import PacketBench.Maps.Bounded
import Mathlib.Data.List.AList

/-! # Association lists as bounded maps

An association list with the latest entry first is a bounded map under both
policies: dropping the last entry evicts the least recently used key, and
ignoring a new key refuses it.
-/

namespace BoundedMaps

variable {K V : Type} [DecidableEq K] {capacity : ℕ}

abbrev RecencyList (K V : Type) (capacity : ℕ) :=
  {l : AList fun _ : K => V // l.keys.length ≤ capacity}

namespace RecencyList

variable (s : RecencyList K V capacity) (k : K) (v : V)

def keySet : Finset K := s.val.keys.toFinset

theorem mem_keySet : k ∈ s.keySet ↔ (s.val.lookup k).isSome := by
  rw [keySet, List.mem_toFinset, AList.lookup_isSome, AList.mem_keys]

theorem card_keySet : s.keySet.card = s.val.keys.length :=
  List.toFinset_card_of_nodup s.val.keys_nodup

theorem length_keys_insert_of_mem (h : k ∈ s.val) :
    (s.val.insert k v).keys.length = s.val.keys.length := by
  have hpos := List.length_pos_of_mem (AList.mem_keys.mp h)
  rw [AList.keys_insert, List.length_cons, List.length_erase_of_mem (AList.mem_keys.mp h)]
  omega

theorem length_keys_insert_le :
    (s.val.insert k v).keys.length ≤ s.val.keys.length + 1 := by
  rw [AList.keys_insert, List.length_cons]
  exact Nat.succ_le_succ List.length_erase_le

theorem lookup_insert_eq :
    (fun k' => (s.val.insert k v).lookup k') =
      Function.update (fun k' => s.val.lookup k') k (some v) := by
  funext k'
  rcases eq_or_ne k' k with rfl | h
  · rw [AList.lookup_insert, Function.update_self]
  · rw [AList.lookup_insert_ne h, Function.update_of_ne h]

theorem length_insert_of_room (h : k ∈ s.keySet ∨ s.keySet.card < capacity) :
    (s.val.insert k v).keys.length ≤ capacity := by
  rcases h with h | h
  · rw [s.mem_keySet, AList.lookup_isSome] at h
    exact (s.length_keys_insert_of_mem k v h).trans_le s.property
  · rw [s.card_keySet] at h
    exact (s.length_keys_insert_le k v).trans h

def dropOldest (l : AList fun _ : K => V) : AList fun _ : K => V :=
  ⟨l.entries.dropLast, l.nodupKeys.sublist (List.dropLast_sublist _)⟩

omit [DecidableEq K] in
theorem length_keys_dropOldest (l : AList fun _ : K => V) :
    (dropOldest l).keys.length = l.keys.length - 1 := by
  simp [dropOldest, AList.keys, List.keys]

theorem lookup_dropOldest (l : AList fun _ : K => V) :
    (dropOldest l).lookup k = l.lookup k ∨ (dropOldest l).lookup k = none := by
  cases h : (dropOldest l).lookup k with
  | none => exact Or.inr rfl
  | some b =>
    left
    have hmem := AList.mem_lookup_iff.mp (Option.mem_def.mpr h)
    exact (AList.mem_lookup_iff.mpr (List.mem_of_mem_dropLast hmem)).symm

theorem lookup_dropOldest_insert (h : capacity < (s.val.insert k v).keys.length)
    (hpos : 0 < capacity) : (dropOldest (s.val.insert k v)).lookup k = some v := by
  have hmem : (⟨k, v⟩ : Sigma fun _ : K => V) ∈ (s.val.insert k v).entries.dropLast := by
    rw [AList.keys_insert, List.length_cons] at h
    obtain ⟨e, l, he⟩ : ∃ e l, s.val.entries.kerase k = e :: l := by
      refine List.exists_cons_of_length_pos ?_
      have hlen : (s.val.keys.erase k).length = (s.val.entries.kerase k).length := by
        rw [AList.keys, ← List.keys_kerase, List.keys, List.length_map]
      omega
    rw [AList.entries_insert, he, List.dropLast_cons_cons]
    exact List.mem_cons_self
  exact AList.mem_lookup_iff.mpr hmem

theorem lookup_insert_self_eq (h : s.val.lookup k = some v) :
    (fun k' => (s.val.insert k v).lookup k') = fun k' => s.val.lookup k' := by
  rw [lookup_insert_eq]
  exact Function.update_eq_self_iff.mpr h.symm

end RecencyList

open RecencyList

/-- The least recently used eviction policy: lookups and insertions move a key to the front. -/
def lruMap (K V : Type) [DecidableEq K] (capacity : ℕ) (hpos : 0 < capacity) :
    EvictingMap K V capacity where
  State := RecencyList K V capacity
  empty := ⟨∅, by simp⟩
  get s k := s.val.lookup k
  keys := keySet
  lookup s k := match h : s.val.lookup k with
    | none => s
    | some v => ⟨s.val.insert k v, s.length_insert_of_room k v
        (Or.inl ((s.mem_keySet k).mpr (by rw [h]; rfl)))⟩
  put s k v :=
    if h : (s.val.insert k v).keys.length ≤ capacity then ⟨s.val.insert k v, h⟩
    else ⟨dropOldest (s.val.insert k v), by
      have := s.length_keys_insert_le k v
      have := s.property
      rw [length_keys_dropOldest]
      omega⟩
  mem_keys s k := s.mem_keySet k
  card_keys_le s := s.card_keySet.trans_le s.property
  get_empty k := AList.lookup_empty k
  get_lookup s k := by
    split
    · rfl
    · next v h => exact s.lookup_insert_self_eq k v h
  get_put s k v h := by
    rw [dif_pos (s.length_insert_of_room k v h)]
    exact s.lookup_insert_eq k v
  get_put_self s k v := by
    split_ifs with h
    · exact AList.lookup_insert s.val
    · exact s.lookup_dropOldest_insert k v (by omega) hpos
  get_put_of_ne s k v k' hk := by
    have hins : (s.val.insert k v).lookup k' = s.val.lookup k' := AList.lookup_insert_ne hk
    split_ifs with h
    · exact Or.inl hins
    · exact (lookup_dropOldest k' _).imp (·.trans hins) id

def refusingMap (K V : Type) [DecidableEq K] (capacity : ℕ) : FillingMap K V capacity where
  State := RecencyList K V capacity
  empty := ⟨∅, by simp⟩
  get s k := s.val.lookup k
  keys := keySet
  lookup s _ := s
  put s k v :=
    if h : k ∈ s.keySet ∨ s.keySet.card < capacity then
      ⟨s.val.insert k v, s.length_insert_of_room k v h⟩
    else s
  Takes s k := k ∈ s.keySet ∨ s.keySet.card < capacity
  mem_keys s k := s.mem_keySet k
  card_keys_le s := s.card_keySet.trans_le s.property
  get_empty k := AList.lookup_empty k
  get_lookup _ _ := rfl
  takes_of_mem _ _ := Or.inl
  takes_of_lt _ _ := Or.inr
  get_put_of_takes s k v h := by
    rw [dif_pos h]
    exact s.lookup_insert_eq k v
  get_put_of_not s k v h := by
    rw [dif_neg h]

end BoundedMaps

import Mathlib.Data.Finset.Card
import Mathlib.Data.Finset.Filter
import Mathlib.Logic.Function.Basic

/-! # Maps of bounded capacity

A bounded map holds at most `capacity` keys. An evicting map stores every key
and may give up others for it, a refusing map may refuse a new key even before
it is full, and a filling map takes every key up to its capacity. A family of
bounded maps that share the keys out between them and take every key that they
have room for keeps every written value exactly as long as the written keys of
each share fit the capacity.
-/

namespace BoundedMaps

/-- A map of at most `capacity` keys. A lookup may do bookkeeping that no later `get` sees. -/
structure BoundedMap (K V : Type) [DecidableEq K] (capacity : ℕ) where
  State : Type
  empty : State
  get : State → K → Option V
  keys : State → Finset K
  lookup : State → K → State
  put : State → K → V → State
  mem_keys : ∀ s k, k ∈ keys s ↔ (get s k).isSome
  card_keys_le : ∀ s, (keys s).card ≤ capacity
  get_empty : ∀ k, get empty k = none
  get_lookup : ∀ s k, get (lookup s k) = get s

namespace BoundedMap

variable {K V : Type} [DecidableEq K] {capacity : ℕ} (M : BoundedMap K V capacity)

/-- An insertion under the key adds or changes its entry and no other one. -/
def Stores (s : M.State) (k : K) : Prop :=
  ∀ v, M.get (M.put s k v) = Function.update (M.get s) k (some v)

/-- Below its capacity the map stores every key. -/
def Roomy : Prop := ∀ s k, k ∈ M.keys s ∨ (M.keys s).card < capacity → M.Stores s k

theorem keys_empty : M.keys M.empty = ∅ := by
  refine Finset.eq_empty_of_forall_notMem fun k hk => ?_
  rw [M.mem_keys, M.get_empty] at hk
  cases hk

variable {M}

theorem Stores.keys_put {s : M.State} {k : K} (h : M.Stores s k) (v : V) :
    M.keys (M.put s k v) = insert k (M.keys s) := by
  ext k'
  rw [M.mem_keys, h v, Finset.mem_insert, M.mem_keys]
  rcases eq_or_ne k' k with rfl | hne
  · simp
  · simp [hne]

theorem keys_eq_of_get_eq {s t : M.State} (h : M.get s = M.get t) : M.keys s = M.keys t := by
  ext k
  rw [M.mem_keys, M.mem_keys, h]

end BoundedMap

/-- A full map makes room for a new key by giving up other entries. -/
structure EvictingMap (K V : Type) [DecidableEq K] (capacity : ℕ) extends
    BoundedMap K V capacity where
  get_put : ∀ s k v, k ∈ keys s ∨ (keys s).card < capacity →
    get (put s k v) = Function.update (get s) k (some v)
  get_put_self : ∀ s k v, get (put s k v) k = some v
  get_put_of_ne : ∀ s k v k', k' ≠ k →
    get (put s k v) k' = get s k' ∨ get (put s k v) k' = none

theorem EvictingMap.roomy {K V : Type} [DecidableEq K] {capacity : ℕ}
    (M : EvictingMap K V capacity) : M.toBoundedMap.Roomy := fun s k h v => M.get_put s k v h

/-- A map that may refuse a new key, as its own state tells, and then stays as it is. -/
structure RefusingMap (K V : Type) [DecidableEq K] (capacity : ℕ) extends
    BoundedMap K V capacity where
  Takes : State → K → Prop
  takes_of_mem : ∀ s k, k ∈ keys s → Takes s k
  get_put_of_takes : ∀ s k v, Takes s k → get (put s k v) = Function.update (get s) k (some v)
  get_put_of_not : ∀ s k v, ¬ Takes s k → get (put s k v) = get s

namespace RefusingMap

variable {K V : Type} [DecidableEq K] {capacity : ℕ} {M : RefusingMap K V capacity}

theorem stores_of_takes {s : M.State} {k : K} (h : M.Takes s k) : M.toBoundedMap.Stores s k :=
  fun v => M.get_put_of_takes s k v h

theorem not_takes_of_full [Nonempty V] {s : M.State} {k : K} (hk : k ∉ M.keys s)
    (hfull : capacity ≤ (M.keys s).card) : ¬ M.Takes s k := by
  intro htakes
  obtain ⟨v⟩ := ‹Nonempty V›
  have hle := M.card_keys_le (M.put s k v)
  rw [(stores_of_takes htakes).keys_put v, Finset.card_insert_of_notMem hk] at hle
  omega

theorem get_put_of_ne (s : M.State) (v : V) {k k' : K} (h : k' ≠ k) :
    M.get (M.put s k v) k' = M.get s k' := by
  by_cases htakes : M.Takes s k
  · rw [M.get_put_of_takes s k v htakes, Function.update_of_ne h]
  · rw [M.get_put_of_not s k v htakes]

end RefusingMap

/-- A map that takes every key up to its capacity. -/
structure FillingMap (K V : Type) [DecidableEq K] (capacity : ℕ) extends
    RefusingMap K V capacity where
  takes_of_lt : ∀ s k, (keys s).card < capacity → Takes s k

namespace FillingMap

variable {K V : Type} [DecidableEq K] {capacity : ℕ} (M : FillingMap K V capacity)

theorem takes_of_room {s : M.State} {k : K} (h : k ∈ M.keys s ∨ (M.keys s).card < capacity) :
    M.Takes s k := h.elim (M.takes_of_mem s k) (M.takes_of_lt s k)

theorem roomy : M.toBoundedMap.Roomy := fun _ _ h => RefusingMap.stores_of_takes (M.takes_of_room h)

theorem get_put (s : M.State) (k : K) (v : V) (h : k ∈ M.keys s ∨ (M.keys s).card < capacity) :
    M.get (M.put s k v) = Function.update (M.get s) k (some v) := M.roomy s k h v

/-- The insertions that change nothing. -/
def Redundant (s : M.State) (k : K) (v : V) : Prop :=
  M.get s k = some v ∨ (M.get s k = none ∧ capacity ≤ (M.keys s).card)

variable {M}

theorem get_put_eq_iff (s : M.State) (k : K) (v : V) :
    M.get (M.put s k v) = M.get s ↔ M.Redundant s k v := by
  have hkeys := M.mem_keys s k
  by_cases hroom : k ∈ M.keys s ∨ (M.keys s).card < capacity
  · rw [M.get_put s k v hroom, Function.update_eq_self_iff, Redundant, eq_comm]
    refine (or_iff_left ?_).symm
    rintro ⟨hnone, hfull⟩
    rcases hroom with hmem | hlt
    · rw [hkeys, hnone] at hmem
      cases hmem
    · exact Nat.not_lt.mpr hfull hlt
  · obtain ⟨hnot, hfull⟩ := not_or.mp hroom
    have hnone : M.get s k = none := by
      rw [hkeys] at hnot
      exact Option.not_isSome_iff_eq_none.mp hnot
    have : Nonempty V := ⟨v⟩
    have hrefused := RefusingMap.not_takes_of_full hnot (Nat.le_of_not_lt hfull)
    exact iff_of_true (M.get_put_of_not s k v hrefused) (Or.inr ⟨hnone, Nat.le_of_not_lt hfull⟩)

theorem redundant_congr {s t : M.State} (h : M.get s = M.get t) (k : K) (v : V) :
    M.Redundant s k v ↔ M.Redundant t k v := by
  rw [Redundant, Redundant, h, BoundedMap.keys_eq_of_get_eq h]

variable (M) in
def putAll (s : M.State) (entries : List (K × V)) : M.State :=
  entries.foldl (fun s e => M.put s e.1 e.2) s

theorem keys_putAll {s : M.State} {entries : List (K × V)}
    (h : (M.keys s).card + entries.length ≤ capacity) :
    M.keys (M.putAll s entries) = M.keys s ∪ (entries.map Prod.fst).toFinset := by
  induction entries generalizing s with
  | nil => simp [putAll]
  | cons e entries ih =>
    rw [List.length_cons] at h
    have hkeys := (M.roomy s e.1 (Or.inr (by omega))).keys_put e.2
    have hcard : (M.keys (M.put s e.1 e.2)).card + entries.length ≤ capacity := by
      have hle := Finset.card_insert_le e.1 (M.keys s)
      rw [hkeys]
      omega
    have hfold : M.putAll s (e :: entries) = M.putAll (M.put s e.1 e.2) entries := rfl
    rw [hfold, ih hcard, hkeys, List.map_cons, List.toFinset_cons, Finset.insert_union,
      Finset.union_insert]

theorem get_putAll_of_notMem {s : M.State} {entries : List (K × V)} {k : K}
    (h : k ∉ entries.map Prod.fst) : M.get (M.putAll s entries) k = M.get s k := by
  induction entries generalizing s with
  | nil => rfl
  | cons e entries ih =>
    obtain ⟨hne, hrest⟩ := List.ne_and_not_mem_of_not_mem_cons h
    exact (ih hrest).trans (RefusingMap.get_put_of_ne s e.2 hne)

theorem get_putAll_eq_iff {s : M.State} {entries : List (K × V)}
    (hnodup : (entries.map Prod.fst).Nodup) :
    M.get (M.putAll s entries) = M.get s ↔ ∀ e ∈ entries, M.Redundant s e.1 e.2 := by
  induction entries generalizing s with
  | nil => exact iff_of_true rfl fun e he => absurd he List.not_mem_nil
  | cons e entries ih =>
    obtain ⟨hnot, hrest⟩ := List.nodup_cons.mp hnodup
    have hfold : M.putAll s (e :: entries) = M.putAll (M.put s e.1 e.2) entries := rfl
    rw [hfold, List.forall_mem_cons, ← get_put_eq_iff]
    constructor
    · intro heq
      have hhead : M.get (M.put s e.1 e.2) = M.get s := by
        funext k
        rcases eq_or_ne k e.1 with rfl | hne
        · rw [← get_putAll_of_notMem hnot, heq]
        · exact RefusingMap.get_put_of_ne s e.2 hne
      refine ⟨hhead, fun e' he' => ?_⟩
      exact (redundant_congr hhead _ _).mp ((ih hrest).mp (heq.trans hhead.symm) e' he')
    · rintro ⟨hhead, hall⟩
      rw [(ih hrest).mpr fun e' he' => (redundant_congr hhead _ _).mpr (hall e' he'), hhead]

end FillingMap

inductive Op (K V : Type) where
  | read (k : K)
  | write (k : K) (v : V)

namespace Op

variable {K V : Type} [DecidableEq K]

def key : Op K V → K
  | read k => k
  | write k _ => k

def written : Op K V → Option K
  | read _ => none
  | write k _ => some k

def effect (ρ : K → Option V) : Op K V → K → Option V
  | read _ => ρ
  | write k v => Function.update ρ k (some v)

def mapValue {W : Type} (g : V → W) : Op K V → Op K W
  | read k => .read k
  | write k v => .write k (g v)

end Op

variable {K V : Type} [DecidableEq K]

def lastWrite (ops : List (Op K V)) : K → Option V := ops.foldl Op.effect fun _ => none

def writtenKeys (ops : List (Op K V)) : Finset K := (ops.filterMap Op.written).toFinset

def touchedKeys (ops : List (Op K V)) : Finset K := (ops.map Op.key).toFinset

@[simp] theorem lastWrite_nil : lastWrite ([] : List (Op K V)) = fun _ => none := rfl

theorem lastWrite_append_singleton (ops : List (Op K V)) (op : Op K V) :
    lastWrite (ops ++ [op]) = op.effect (lastWrite ops) := by
  simp [lastWrite]

theorem mem_writtenKeys {ops : List (Op K V)} {k : K} :
    k ∈ writtenKeys ops ↔ ∃ v, Op.write k v ∈ ops := by
  simp only [writtenKeys, List.mem_toFinset, List.mem_filterMap]
  constructor
  · rintro ⟨_ | ⟨k', v⟩, hmem, hk⟩
    · cases hk
    · obtain rfl : k' = k := Option.some.inj hk
      exact ⟨v, hmem⟩
  · rintro ⟨v, hmem⟩
    exact ⟨_, hmem, rfl⟩

theorem writtenKeys_subset_touchedKeys (ops : List (Op K V)) :
    writtenKeys ops ⊆ touchedKeys ops := by
  intro k hk
  obtain ⟨v, hmem⟩ := mem_writtenKeys.mp hk
  exact List.mem_toFinset.mpr (List.mem_map.mpr ⟨_, hmem, rfl⟩)

theorem card_touchedKeys_le (ops : List (Op K V)) : (touchedKeys ops).card ≤ ops.length := by
  unfold touchedKeys
  rw [← List.length_map Op.key]
  exact List.toFinset_card_le _

theorem writtenKeys_mono {ops ops' : List (Op K V)} (h : ops ⊆ ops') :
    writtenKeys ops ⊆ writtenKeys ops' := by
  intro k hk
  obtain ⟨v, hmem⟩ := mem_writtenKeys.mp hk
  exact mem_writtenKeys.mpr ⟨v, h hmem⟩

theorem lastWrite_isSome {ops : List (Op K V)} {k : K} :
    (lastWrite ops k).isSome ↔ k ∈ writtenKeys ops := by
  induction ops using List.reverseRecOn with
  | nil => simp [writtenKeys]
  | append_singleton ops op ih =>
    rw [lastWrite_append_singleton]
    cases op with
    | read k' => simpa [Op.effect, mem_writtenKeys] using ih
    | write k' v =>
      rcases eq_or_ne k k' with rfl | h
      · simp [Op.effect, mem_writtenKeys]
      · simpa [Op.effect, mem_writtenKeys, h] using ih

section MapValue

variable {W : Type} (g : V → W)

theorem lastWrite_mapValue (ops : List (Op K V)) (k : K) :
    lastWrite (ops.map (Op.mapValue g)) k = (lastWrite ops k).map g := by
  induction ops using List.reverseRecOn with
  | nil => rfl
  | append_singleton ops op ih =>
    rw [List.map_append, List.map_singleton, lastWrite_append_singleton, lastWrite_append_singleton]
    cases op with
    | read k' => exact ih
    | write k' v =>
      rcases eq_or_ne k k' with rfl | h
      · simp [Op.effect, Op.mapValue]
      · simpa [Op.effect, Op.mapValue, h] using ih

theorem writtenKeys_mapValue (ops : List (Op K V)) :
    writtenKeys (ops.map (Op.mapValue g)) = writtenKeys ops := by
  have hkey : Op.written ∘ Op.mapValue g = (Op.written : Op K V → Option K) := by
    funext op
    cases op <;> rfl
  rw [writtenKeys, List.filterMap_map, hkey, writtenKeys]

end MapValue

section Shards

variable {capacity : ℕ} (M : BoundedMap K V capacity) {ι : Type} [DecidableEq ι] (shard : K → ι)

/-- Serve a request on the map its key belongs to. -/
def serve (S : ι → M.State) : Op K V → ι → M.State
  | .read k => Function.update S (shard k) (M.lookup (S (shard k)) k)
  | .write k v => Function.update S (shard k) (M.put (S (shard k)) k v)

def serveAll (ops : List (Op K V)) : ι → M.State := ops.foldl (serve M shard) fun _ => M.empty

def value (S : ι → M.State) (k : K) : Option V := M.get (S (shard k)) k

/-- The part of a key set that belongs to one map. -/
def share (keys : Finset K) (i : ι) : Finset K := keys.filter (shard · = i)

variable {M shard}

omit [DecidableEq K] in
theorem mem_share {keys : Finset K} {i : ι} {k : K} :
    k ∈ share shard keys i ↔ k ∈ keys ∧ shard k = i := Finset.mem_filter

variable (shard) in
/-- The maps hold the latest write of each key and no key but the written ones of their share. -/
structure Faithful (ops : List (Op K V)) (S : ι → M.State) : Prop where
  value_eq : ∀ k, value M shard S k = lastWrite ops k
  keys_subset : ∀ i, M.keys (S i) ⊆ share shard (writtenKeys ops) i

theorem faithful_empty : Faithful shard [] fun _ : ι => M.empty where
  value_eq k := M.get_empty k
  keys_subset i := by
    rw [M.keys_empty]
    exact Finset.empty_subset _

theorem Faithful.keys_eq {ops : List (Op K V)} {S : ι → M.State}
    (h : Faithful shard ops S) (i : ι) : M.keys (S i) = share shard (writtenKeys ops) i := by
  refine Finset.Subset.antisymm (h.keys_subset i) fun k hk => ?_
  obtain ⟨hw, rfl⟩ := mem_share.mp hk
  have hval := h.value_eq k
  rw [value] at hval
  rw [M.mem_keys, hval]
  exact lastWrite_isSome.mpr hw

theorem Faithful.room {ops : List (Op K V)} {S : ι → M.State}
    (h : Faithful shard ops S) {k : K} {v : V}
    (hcard : (share shard (writtenKeys (ops ++ [.write k v])) (shard k)).card ≤ capacity) :
    k ∈ M.keys (S (shard k)) ∨ (M.keys (S (shard k))).card < capacity := by
  by_cases hk : k ∈ M.keys (S (shard k))
  · exact Or.inl hk
  · refine Or.inr (lt_of_lt_of_le (Finset.card_lt_card ?_) hcard)
    refine (Finset.ssubset_iff_of_subset fun k' hk' => ?_).mpr ⟨k, ?_, hk⟩
    · obtain ⟨hw, hs⟩ := mem_share.mp (h.keys_subset _ hk')
      exact mem_share.mpr ⟨writtenKeys_mono (List.subset_append_left _ _) hw, hs⟩
    · exact mem_share.mpr ⟨mem_writtenKeys.mpr ⟨v, by simp⟩, rfl⟩

theorem Faithful.serve (hM : M.Roomy) {ops : List (Op K V)} {S : ι → M.State}
    (h : Faithful shard ops S) (op : Op K V)
    (hcard : ∀ i, (share shard (writtenKeys (ops ++ [op])) i).card ≤ capacity) :
    Faithful shard (ops ++ [op]) (serve M shard S op) := by
  have hgrow : writtenKeys ops ⊆ writtenKeys (ops ++ [op]) :=
    writtenKeys_mono (List.subset_append_left _ _)
  cases op with
  | read k =>
    have hget : ∀ i, M.get (BoundedMaps.serve M shard S (.read k) i) = M.get (S i) := by
      intro i
      rcases eq_or_ne i (shard k) with rfl | hi
      · rw [BoundedMaps.serve, Function.update_self, M.get_lookup]
      · rw [BoundedMaps.serve, Function.update_of_ne hi]
    refine ⟨fun k' => ?_, fun i k' hk' => ?_⟩
    · rw [value, hget, lastWrite_append_singleton]
      exact h.value_eq k'
    · have hmem : k' ∈ M.keys (S i) := by
        rw [M.mem_keys, ← hget i, ← M.mem_keys]
        exact hk'
      obtain ⟨hw, hs⟩ := mem_share.mp (h.keys_subset i hmem)
      exact mem_share.mpr ⟨hgrow hw, hs⟩
  | write k v =>
    have hput := hM _ k (h.room (hcard (shard k))) v
    have hself : BoundedMaps.serve M shard S (.write k v) (shard k) = M.put (S (shard k)) k v := by
      rw [BoundedMaps.serve, Function.update_self]
    have hother : ∀ i, i ≠ shard k → BoundedMaps.serve M shard S (.write k v) i = S i :=
      fun i hi => by rw [BoundedMaps.serve, Function.update_of_ne hi]
    refine ⟨fun k' => ?_, fun i k' hk' => ?_⟩
    · rw [value, lastWrite_append_singleton, Op.effect]
      rcases eq_or_ne (shard k') (shard k) with hs | hs
      · rw [hs, hself, hput]
        rcases eq_or_ne k' k with hk | hk
        · rw [hk, Function.update_self, Function.update_self]
        · rw [Function.update_of_ne hk, Function.update_of_ne hk, ← hs]
          exact h.value_eq k'
      · rw [hother _ hs, Function.update_of_ne (fun hk : k' = k => hs (congrArg shard hk))]
        exact h.value_eq k'
    · rcases eq_or_ne i (shard k) with rfl | hi
      · rcases eq_or_ne k' k with hk | hk
        · exact mem_share.mpr ⟨mem_writtenKeys.mpr ⟨v, by simp [hk]⟩, by rw [hk]⟩
        · rw [M.mem_keys, hself, hput, Function.update_of_ne hk, ← M.mem_keys] at hk'
          obtain ⟨hw, hs⟩ := mem_share.mp (h.keys_subset _ hk')
          exact mem_share.mpr ⟨hgrow hw, hs⟩
      · rw [hother i hi] at hk'
        obtain ⟨hw, hs⟩ := mem_share.mp (h.keys_subset i hk')
        exact mem_share.mpr ⟨hgrow hw, hs⟩

theorem serveAll_append_singleton (ops : List (Op K V)) (op : Op K V) :
    serveAll M shard (ops ++ [op]) = serve M shard (serveAll M shard ops) op := by
  simp [serveAll]

/-- While the written keys of each share fit the capacity, the maps are faithful. -/
theorem faithful_serveAll (hM : M.Roomy) (ops : List (Op K V))
    (hcard : ∀ i, (share shard (writtenKeys ops) i).card ≤ capacity) :
    Faithful shard ops (serveAll M shard ops) := by
  induction ops using List.reverseRecOn with
  | nil => exact faithful_empty
  | append_singleton ops op ih =>
    rw [serveAll_append_singleton]
    refine (ih fun i => le_trans (Finset.card_le_card ?_) (hcard i)).serve hM op hcard
    exact Finset.filter_subset_filter _ (writtenKeys_mono (List.subset_append_left _ _))

theorem card_share_le {ops : List (Op K V)} {S : ι → M.State}
    (h : ∀ k ∈ writtenKeys ops, (value M shard S k).isSome) (i : ι) :
    (share shard (writtenKeys ops) i).card ≤ capacity := by
  refine le_trans (Finset.card_le_card fun k hk => ?_) (M.card_keys_le (S i))
  obtain ⟨hw, rfl⟩ := mem_share.mp hk
  exact (M.mem_keys _ _).mpr (h k hw)

/-- No written value is lost exactly when the written keys of each share fit the capacity. -/
theorem lossless_iff (hM : M.Roomy) (ops : List (Op K V)) :
    (∀ k ∈ writtenKeys ops, value M shard (serveAll M shard ops) k = lastWrite ops k) ↔
      ∀ i, (share shard (writtenKeys ops) i).card ≤ capacity := by
  constructor
  · intro h
    refine card_share_le (S := serveAll M shard ops) fun k hk => ?_
    rw [h k hk]
    exact lastWrite_isSome.mpr hk
  · intro h k _
    exact (faithful_serveAll hM ops h).value_eq k

end Shards

end BoundedMaps

import PacketBench.Arithmetic.Hashing
import PacketBench.Compare.Filter

/-! # The match tables of the filters

Both filters start by filling their tables with the hashes of the numbers from
0 on, DPDK with one address of its own at the end. The hash multiplies the lower
byte by 31 and adds the upper one, so it takes no more than 8161 values, and the
keys repeat from number `31 * 256` on.
-/

namespace PacketBench

open Hashing BoundedMaps

/-- `hashmult` of both filters, over the two bytes of a number, the lower one first. -/
def hashmult (key : BitVec 16) : BitVec 16 :=
  [key.extractLsb' 0 8, key.extractLsb' 8 8].foldl
    (fun hash keyByte => hash * 31 + keyByte.setWidth 16) 0

theorem toNat_hashmult (key : BitVec 16) : (hashmult key).toNat = digitHash 31 256 key.toNat := by
  have hhorner : hashmult key =
      horner 31 [(key.extractLsb' 0 8).setWidth 16, (key.extractLsb' 8 8).setWidth 16] := rfl
  have hbyte : ∀ i, ((key.extractLsb' i 8).setWidth 16).toNat = key.toNat / 2 ^ i % 256 := by
    intro i
    rw [BitVec.toNat_setWidth_of_le (by decide), BitVec.extractLsb'_toNat,
      Nat.shiftRight_eq_div_pow]
  have hmult : (31 : BitVec 16).toNat = 31 := rfl
  have hkey := key.isLt
  have hlow : key.toNat / 2 ^ 0 % 256 = key.toNat % 256 := by omega
  have hhigh : key.toNat / 2 ^ 8 % 256 = key.toNat / 256 := by omega
  rw [hhorner, toNat_horner, List.map_cons, List.map_cons, List.map_nil, hbyte, hbyte, hmult,
    hlow, hhigh, ← digitHash, digitHash_eq, Nat.mod_eq_of_lt (by omega)]

def tableKey (i : ℕ) : BitVec 32 := (hashmult (BitVec.ofNat 16 i)).setWidth 32

theorem toNat_tableKey {i : ℕ} (hi : i < 65536) : (tableKey i).toNat = digitHash 31 256 i := by
  rw [tableKey, BitVec.toNat_setWidth_of_le (by decide), toNat_hashmult, BitVec.toNat_ofNat,
    Nat.mod_eq_of_lt hi]

def tableKeys (n : ℕ) : Finset (BitVec 32) := ((List.range n).map tableKey).toFinset

theorem mem_tableKeys {n : ℕ} (hn : n ≤ 65536) (k : BitVec 32) :
    k ∈ tableKeys n ↔ ∃ i < n, digitHash 31 256 i = k.toNat := by
  simp only [tableKeys, List.mem_toFinset, List.mem_map, List.mem_range]
  refine exists_congr fun i => and_congr_right fun hi => ?_
  rw [← toNat_tableKey (hi.trans_le hn), BitVec.toNat_inj]

theorem card_tableKeys {n : ℕ} (hn : n ≤ 65536) :
    (tableKeys n).card = min n (31 * 256) + (n - 31 * 256) / 256 := by
  have himage : (tableKeys n).image BitVec.toNat = (Finset.range n).image (digitHash 31 256) := by
    ext v
    simp only [Finset.mem_image, mem_tableKeys hn, Finset.mem_range]
    constructor
    · rintro ⟨k, ⟨i, hi, hk⟩, rfl⟩
      exact ⟨i, hi, hk⟩
    · rintro ⟨i, hi, rfl⟩
      exact ⟨tableKey i, ⟨i, hi, (toNat_tableKey (hi.trans_le hn)).symm⟩,
        toNat_tableKey (hi.trans_le hn)⟩
  rw [← Finset.card_image_of_injective _ BitVec.toNat_injective, himage,
    card_image_digitHash (by decide) (by decide)]

namespace Dpdk

def hashEntries : ℕ := 65536

/-- `rte_hash` by the keys that it holds. `none` stands for a negative result of `rte_hash_add_key`,
and a key that is there already does not become a second entry. -/
structure KeyTable where
  State : Type
  empty : State
  keys : State → Finset (BitVec 32)
  addKey : State → BitVec 32 → Option State
  keys_empty : keys empty = ∅
  keys_addKey : ∀ s k t, addKey s k = some t → keys t = insert k (keys s)

namespace KeyTable

variable {R : KeyTable}

/-- It takes a key as long as it holds fewer than `HASH_ENTRIES`. -/
def Roomy (R : KeyTable) : Prop := ∀ s k, (R.keys s).card < hashEntries → (R.addKey s k).isSome

theorem keys_foldlM {ks : List (BitVec 32)} {s t : R.State} (h : ks.foldlM R.addKey s = some t) :
    R.keys t = R.keys s ∪ ks.toFinset := by
  induction ks generalizing s with
  | nil =>
    obtain rfl := Option.some.inj h
    simp
  | cons k ks ih =>
    rw [List.foldlM_cons] at h
    obtain ⟨u, hu, ht⟩ := Option.bind_eq_some_iff.mp h
    rw [ih ht, R.keys_addKey s k u hu, List.toFinset_cons, Finset.insert_union,
      Finset.union_insert]

theorem isSome_foldlM (hR : R.Roomy) {ks : List (BitVec 32)} {s : R.State}
    (h : (R.keys s).card + ks.length ≤ hashEntries) : (ks.foldlM R.addKey s).isSome := by
  induction ks generalizing s with
  | nil => rfl
  | cons k ks ih =>
    rw [List.length_cons] at h
    obtain ⟨u, hu⟩ := Option.isSome_iff_exists.mp (hR s k (by omega))
    have hcard : (R.keys u).card + ks.length ≤ hashEntries := by
      have hle := Finset.card_insert_le k (R.keys s)
      rw [R.keys_addKey s k u hu]
      omega
    rw [List.foldlM_cons, hu]
    exact ih hcard

end KeyTable

/-- A table that takes keys up to `HASH_ENTRIES`. -/
def setTable : KeyTable where
  State := Finset (BitVec 32)
  empty := ∅
  keys := id
  addKey s k := if k ∈ s ∨ s.card < hashEntries then some (insert k s) else none
  keys_empty := rfl
  keys_addKey s k t h := by
    split_ifs at h
    exact (Option.some.inj h).symm

theorem roomy_setTable : setTable.Roomy := fun s k h => by
  have hadd : setTable.addKey s k = some (insert k (setTable.keys s)) := if_pos (Or.inr h)
  rw [hadd]
  rfl

/-- `none` when the program exits because a key cannot be added. -/
def fillHtable (R : KeyTable) (hash : R.State) (length : BitVec 32) : Option R.State := do
  let hash ← (List.range (length - 1).toNat).foldlM (fun hash i => R.addKey hash (tableKey i)) hash
  R.addKey hash 167772928

theorem fillHtable_eq (R : KeyTable) (hash : R.State) {length : BitVec 32}
    (h : 1 ≤ length.toNat) : fillHtable R hash length =
      ((List.range (length.toNat - 1)).map tableKey ++ [167772928]).foldlM R.addKey hash := by
  have hpred : (length - 1).toNat = length.toNat - 1 :=
    BitVec.toNat_sub_of_le (BitVec.le_def.mpr h)
  rw [fillHtable, hpred, List.foldlM_append, List.foldlM_map]
  refine bind_congr fun t => ?_
  rw [List.foldlM_cons]
  exact (bind_pure _).symm

theorem keys_fillHtable {R : KeyTable} {length : BitVec 32} (h : 1 ≤ length.toNat) {t : R.State}
    (ht : fillHtable R R.empty length = some t) :
    R.keys t = insert 167772928 (tableKeys (length.toNat - 1)) := by
  rw [fillHtable_eq R R.empty h] at ht
  rw [KeyTable.keys_foldlM ht, R.keys_empty, Finset.empty_union, List.toFinset_append,
    Finset.union_comm]
  exact (Finset.insert_eq _ _).symm

theorem isSome_fillHtable {R : KeyTable} (hR : R.Roomy) {length : BitVec 32}
    (h₁ : 1 ≤ length.toNat) (hn : length.toNat ≤ hashEntries) :
    (fillHtable R R.empty length).isSome := by
  rw [fillHtable_eq R R.empty h₁]
  apply KeyTable.isSome_foldlM hR
  rw [R.keys_empty, Finset.card_empty, List.length_append, List.length_map, List.length_range,
    List.length_singleton]
  omega

end Dpdk

namespace Xdp

/-- The values are numbers of rounds, of which the map keeps the lower 16 bits. -/
def fillHtable (H : FilterHash) (hashFd : H.State) (length : BitVec 32) : H.State :=
  (List.range length.toNat).foldl (fun s i => H.put s (tableKey i) (BitVec.ofNat 16 i)) hashFd

theorem keys_fillHtable (H : FilterHash) {length : BitVec 32} (hn : length.toNat ≤ hashEntries) :
    H.keys (fillHtable H H.empty length) = tableKeys length.toNat := by
  have hfold : fillHtable H H.empty length = H.putAll H.empty
      ((List.range length.toNat).map fun i => (tableKey i, BitVec.ofNat 16 i)) := by
    rw [fillHtable, FillingMap.putAll, List.foldl_map]
  rw [hfold, FillingMap.keys_putAll, H.keys_empty, Finset.empty_union, List.map_map]
  · rfl
  · rw [H.keys_empty, Finset.card_empty, List.length_map, List.length_range, Nat.zero_add]
    exact hn

end Xdp

namespace Compare

theorem notMem_tableKeys {n : ℕ} (hn : n ≤ 65536) : 167772928 ∉ tableKeys n := by
  rw [mem_tableKeys hn]
  rintro ⟨i, hi, hhash⟩
  have hlarge : (167772928 : BitVec 32).toNat = 167772928 := rfl
  rw [hlarge, digitHash_eq] at hhash
  omega

theorem card_dpdk_keys {R : Dpdk.KeyTable} {n : BitVec 32} (h₁ : 1 ≤ n.toNat)
    (hn : n.toNat ≤ 65536) {t : R.State} (ht : Dpdk.fillHtable R R.empty n = some t) :
    (R.keys t).card =
      min (n.toNat - 1) (31 * 256) + (n.toNat - 1 - 31 * 256) / 256 + 1 := by
  have hpred : n.toNat - 1 ≤ 65536 := by omega
  rw [Dpdk.keys_fillHtable h₁ ht, Finset.card_insert_of_notMem (notMem_tableKeys hpred),
    card_tableKeys hpred]

theorem card_xdp_keys (H : Xdp.FilterHash) {n : BitVec 32} (hn : n.toNat ≤ 65536) :
    (H.keys (Xdp.fillHtable H H.empty n)).card =
      min n.toNat (31 * 256) + (n.toNat - 31 * 256) / 256 := by
  rw [Xdp.keys_fillHtable H hn, card_tableKeys hn]

theorem toNat_fullLength : (65536 : BitVec 32).toNat = 65536 := rfl

/-- A table of `n` entries is filled only up to the first repeated key. -/
theorem filled_iff (R : Dpdk.KeyTable) (H : Xdp.FilterHash) (n : BitVec 32) (h₁ : 1 ≤ n.toNat)
    (hn : n.toNat ≤ Dpdk.hashEntries) :
    (R.Roomy → (Dpdk.fillHtable R R.empty n).isSome) ∧
      (∀ t, Dpdk.fillHtable R R.empty n = some t →
        ((R.keys t).card = n.toNat ↔ n.toNat ≤ 31 * 256 + 1)) ∧
      ((H.keys (Xdp.fillHtable H H.empty n)).card = n.toNat ↔ n.toNat ≤ 31 * 256) := by
  have hle : n.toNat ≤ 65536 := hn
  refine ⟨fun hR => Dpdk.isSome_fillHtable hR h₁ hn, fun t ht => ?_, ?_⟩
  · rw [card_dpdk_keys h₁ hle ht]
    omega
  · rw [card_xdp_keys H hle]
    omega

theorem filled_iff_hundred : ∃ t, Dpdk.fillHtable Dpdk.setTable Dpdk.setTable.empty 100 = some t ∧
    (Dpdk.setTable.keys t).card = 100 ∧
    ((refusingMap (BitVec 32) (BitVec 16) Xdp.hashEntries).keys
      (Xdp.fillHtable (refusingMap _ _ _) (refusingMap _ _ _).empty 100)).card = 100 := by
  obtain ⟨hreturns, hdpdk, hxdp⟩ := filled_iff Dpdk.setTable
    (refusingMap (BitVec 32) (BitVec 16) Xdp.hashEntries) 100 (by decide) (by decide)
  obtain ⟨t, ht⟩ := Option.isSome_iff_exists.mp (hreturns Dpdk.roomy_setTable)
  exact ⟨t, ht, (hdpdk t ht).mpr (by decide), hxdp.mpr (by decide)⟩

/-- Both programs ask for `HASH_ENTRIES` keys and get 8161. -/
theorem not_filled : ∃ t, Dpdk.fillHtable Dpdk.setTable Dpdk.setTable.empty 65536 = some t ∧
    (Dpdk.setTable.keys t).card ≠ 65536 ∧
    ((refusingMap (BitVec 32) (BitVec 16) Xdp.hashEntries).keys
      (Xdp.fillHtable (refusingMap _ _ _) (refusingMap _ _ _).empty 65536)).card ≠ 65536 := by
  have hreturns : (Dpdk.fillHtable Dpdk.setTable Dpdk.setTable.empty 65536).isSome :=
    Dpdk.isSome_fillHtable Dpdk.roomy_setTable (by decide) (by decide)
  obtain ⟨t, ht⟩ := Option.isSome_iff_exists.mp hreturns
  refine ⟨t, ht, ?_, ?_⟩
  · rw [card_dpdk_keys (by decide) (by decide) ht, toNat_fullLength]
    decide
  · rw [card_xdp_keys _ (by decide), toNat_fullLength]
    decide

theorem mem_tableKeys_blocks {c : ℕ} (hc : 31 ≤ c) (hc' : c ≤ 256) (k : BitVec 32) :
    k ∈ tableKeys (256 * c) ↔ k.toNat < 255 * 31 + c := by
  rw [mem_tableKeys (by omega)]
  exact exists_digitHash_iff (by decide) (by decide) hc k.toNat

theorem tableKeys_65535 : tableKeys 65535 = tableKeys (256 * 255) := by
  refine (Finset.eq_of_subset_of_card_le ?_ ?_).symm
  · intro k hk
    obtain ⟨i, hi, hhash⟩ := (mem_tableKeys (by decide) k).mp hk
    exact (mem_tableKeys (by decide) k).mpr ⟨i, hi.trans (by decide), hhash⟩
  · rw [card_tableKeys (by decide), card_tableKeys (by decide)]
    decide

/-- The DPDK filter starts with the addresses from 0.0.0.0 to 0.0.31.223 and 10.0.3.0. -/
theorem dpdk_matches_filled {R : Dpdk.KeyTable} {t : R.State}
    (ht : Dpdk.fillHtable R R.empty 65536 = some t) {store : Dpdk.FilterStore}
    (hstore : ∀ k, store.table k ↔ k ∈ R.keys t) (f : Frame) :
    Dpdk.Matches store f ↔ (destination f).toNat < 8160 ∨ destination f = receiver := by
  have hkeys : R.keys t = insert receiver (tableKeys 65535) := by
    rw [Dpdk.keys_fillHtable (by decide) ht, toNat_fullLength]
    rfl
  rw [dpdk_matches_iff (S := R.keys t) hstore, Finset.mem_coe, hkeys, Finset.mem_insert,
    tableKeys_65535, mem_tableKeys_blocks (by decide) (by decide), or_comm]

/-- The XDP filter starts with the networks from 0.0 to 31.224, that of the benchmark among
them. -/
theorem xdp_matches_filled {H : Xdp.FilterHash} {maps : Xdp.FilterMaps H}
    (hmaps : maps.hmfilter = Xdp.fillHtable H H.empty 65536) (f : Frame) :
    Xdp.Matches H maps f ↔ (destination f).toNat / 65536 < 8161 := by
  have hget : ∀ k, (H.get maps.hmfilter k).isSome ↔ k ∈ (tableKeys 65536 : Set (BitVec 32)) := by
    intro k
    rw [← H.mem_keys, hmaps, Xdp.keys_fillHtable H (by decide), toNat_fullLength, Finset.mem_coe]
  rw [xdp_matches_iff hget, Finset.mem_coe]
  refine (mem_tableKeys_blocks (c := 256) (by decide) (by decide) _).trans ?_
  rw [BitVec.toNat_ushiftRight, Nat.shiftRight_eq_div_pow]

end Compare

end PacketBench

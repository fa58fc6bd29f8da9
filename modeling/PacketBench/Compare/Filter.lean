import PacketBench.Dpdk.Sinks
import PacketBench.Maps.Recency
import PacketBench.Xdp.Handling

/-! # The filters of the two architectures

Both programs look up the destination address of a frame. DPDK converts all
four bytes of the address to host order; XDP applies the 16-bit conversion and
so asks its table for the upper half of the address only.
-/

namespace PacketBench.Compare

open Bytes BoundedMaps

def destination (f : Frame) : BitVec 32 := ntohl (f.mem.load (ipDaddr 14) 32)

theorem toNat_ntohl (v : BitVec 32) : (ntohl v).toNat = 2 ^ 24 * (v.toNat % 256) +
    2 ^ 16 * (v.toNat / 2 ^ 8 % 256) + 2 ^ 8 * (v.toNat / 2 ^ 16 % 256) + v.toNat / 2 ^ 24 := by
  have hbyte : ∀ i, (v.extractLsb' i 8).toNat = v.toNat / 2 ^ i % 256 := by
    intro i
    rw [BitVec.extractLsb'_toNat, Nat.shiftRight_eq_div_pow]
  have hv := v.isLt
  unfold ntohl
  rw [BitVec.toNat_append, ← Nat.shiftLeft_add_eq_or_of_lt (v.extractLsb' 24 8).isLt,
    BitVec.toNat_append, ← Nat.shiftLeft_add_eq_or_of_lt (v.extractLsb' 16 8).isLt,
    BitVec.toNat_append, ← Nat.shiftLeft_add_eq_or_of_lt (v.extractLsb' 8 8).isLt,
    Nat.shiftLeft_eq, Nat.shiftLeft_eq, Nat.shiftLeft_eq, hbyte, hbyte, hbyte, hbyte]
  omega

theorem ntohs_setWidth (v : BitVec 32) :
    (ntohs (v.setWidth 16)).setWidth 32 = ntohl v >>> 16 := by
  apply BitVec.eq_of_toNat_eq
  have hlow : 256 * (v.toNat % 2 ^ 16 % 256) + v.toNat % 2 ^ 16 / 256 =
      256 * (v.toNat % 256) + v.toNat / 2 ^ 8 % 256 := by omega
  have hhigh : v.toNat / 2 ^ 24 < 256 := by
    have hv := v.isLt
    omega
  rw [BitVec.toNat_setWidth, toNat_ntohs, BitVec.toNat_setWidth, hlow, BitVec.toNat_ushiftRight,
    toNat_ntohl, Nat.shiftRight_eq_div_pow]
  generalize v.toNat / 2 ^ 24 = b₃ at hhigh ⊢
  have hb₂ := Nat.mod_lt (v.toNat / 2 ^ 16) (by decide : 256 > 0)
  have hb₁ := Nat.mod_lt (v.toNat / 2 ^ 8) (by decide : 256 > 0)
  have hb₀ := Nat.mod_lt v.toNat (by decide : 256 > 0)
  generalize v.toNat / 2 ^ 16 % 256 = b₂ at hb₂ ⊢
  generalize v.toNat / 2 ^ 8 % 256 = b₁ at hb₁ ⊢
  generalize v.toNat % 256 = b₀ at hb₀ ⊢
  omega

variable {H : Xdp.FilterHash} {maps : Xdp.FilterMaps H} {store : Dpdk.FilterStore} {f : Frame}
  {S : Set (BitVec 32)}

theorem xdp_matches_iff (h : ∀ k, (H.get maps.hmfilter k).isSome ↔ k ∈ S) :
    Xdp.Matches H maps f ↔ destination f >>> 16 ∈ S := by
  rw [Xdp.Matches, ntohs_setWidth, h, destination]

theorem dpdk_matches_iff (h : ∀ k, store.table k ↔ k ∈ S) :
    Dpdk.Matches store f ↔ destination f ∈ S := h _

/-- Both filters treat a frame as a match exactly when its destination address is in the table. -/
structure SelectsBy (S : Set (BitVec 32)) (maps : Xdp.FilterMaps H) (store : Dpdk.FilterStore)
    (f : Frame) : Prop where
  xdp : Xdp.Matches H maps f ↔ destination f ∈ S
  dpdk : Dpdk.Matches store f ↔ destination f ∈ S

theorem selectsBy_iff (S : Set (BitVec 32)) (maps : Xdp.FilterMaps H) (store : Dpdk.FilterStore)
    (f : Frame) (hxdp : ∀ k, (H.get maps.hmfilter k).isSome ↔ k ∈ S)
    (hdpdk : ∀ k, store.table k ↔ k ∈ S) :
    SelectsBy S maps store f ↔ (destination f >>> 16 ∈ S ↔ destination f ∈ S) := by
  constructor
  · rintro ⟨hx, -⟩
    exact (xdp_matches_iff hxdp).symm.trans hx
  · intro h
    exact ⟨(xdp_matches_iff hxdp).trans h, dpdk_matches_iff hdpdk⟩

def receiver : BitVec 32 := 0x0A000300

def receiverMaps : Xdp.FilterMaps (refusingMap (BitVec 32) (BitVec 16) Xdp.hashEntries) :=
  ⟨fun _ => 0, (refusingMap _ _ _).put (refusingMap _ _ _).empty receiver 7999⟩

def receiverStore : Dpdk.FilterStore := ⟨fun k => k = receiver, fun _ => 0⟩

theorem receiverMaps_iff (k : BitVec 32) :
    ((refusingMap _ _ _).get receiverMaps.hmfilter k).isSome ↔
      k ∈ ({receiver} : Set (BitVec 32)) := by
  have hroom : ((refusingMap (BitVec 32) (BitVec 16) Xdp.hashEntries).keys
      (refusingMap _ _ _).empty).card < Xdp.hashEntries := by
    rw [BoundedMap.keys_empty]
    decide
  rw [receiverMaps, (refusingMap _ _ _).get_put _ _ _ (Or.inr hroom), Set.mem_singleton_iff]
  rcases eq_or_ne k receiver with rfl | hne
  · rw [Function.update_self]
    exact iff_of_true rfl rfl
  · rw [Function.update_of_ne hne, (refusingMap _ _ _).get_empty]
    exact iff_of_false (by decide) hne

theorem receiverStore_iff (k : BitVec 32) :
    receiverStore.table k ↔ k ∈ ({receiver} : Set (BitVec 32)) := by
  rw [receiverStore, decide_eq_true_iff, Set.mem_singleton_iff]

theorem destination_requestFrame (flag key val : BitVec 32) :
    destination (requestFrame flag key val) = receiver := by
  rw [destination, load_requestFrame _ _ _ (by decide)]
  decide

def senderFrame : Frame := ⟨1066, requestHeaders.store 30 32 0x0001000A⟩

theorem selectsBy_iff_senderFrame : SelectsBy {receiver} receiverMaps receiverStore senderFrame :=
  (selectsBy_iff {receiver} receiverMaps receiverStore senderFrame receiverMaps_iff
    receiverStore_iff).mpr (iff_of_false (by decide) (by decide))

/-- The address of the benchmark: only DPDK finds it. -/
theorem not_selectsBy_requestFrame : Xdp.Takes totSizeB (requestFrame 1 7 42) ∧
    Dpdk.Accepted (requestFrame 1 7 42) ∧
    Dpdk.Matches receiverStore (requestFrame 1 7 42) ∧
    ¬ Xdp.Matches _ receiverMaps (requestFrame 1 7 42) := by
  refine ⟨Xdp.takes_requestFrame 1 7 42, Dpdk.accepted_requestFrame 1 7 42, ?_, ?_⟩
  · rw [dpdk_matches_iff receiverStore_iff, destination_requestFrame]
    rfl
  · rw [xdp_matches_iff receiverMaps_iff, destination_requestFrame]
    decide

end PacketBench.Compare

import PacketBench.Dpdk.Kvstore
import PacketBench.Xdp.ReadYourWrites

/-! # The key-value stores of the two architectures

On requests that both take, the untimed XDP store and the DPDK store send back
the same payload with one exception: a read of a key that was never written
leaves the content word alone in XDP and clears it in DPDK.
-/

namespace PacketBench.Compare

open BoundedMaps

def BothAnswer (f : Frame) : Prop := Xdp.IsRequest f ∧ Dpdk.Accepted f

theorem bothAnswer_requestFrame (flag key val : BitVec 32) :
    BothAnswer (requestFrame flag key val) :=
  ⟨Xdp.isRequest_requestFrame flag key val, Dpdk.accepted_requestFrame flag key val⟩

theorem requests_eq {frames : List Frame} (h : ∀ f ∈ frames, BothAnswer f) :
    Xdp.requests frames = frames.map request := by
  unfold Xdp.requests
  rw [List.filter_eq_self.mpr fun f hf => decide_eq_true (h f hf).1]

theorem pointerRequests_eq {frames : List Frame} (h : ∀ f ∈ frames, BothAnswer f) :
    Dpdk.pointerRequests frames =
      (frames.map request).map (Op.mapValue (BitVec.signExtend 64)) := by
  unfold Dpdk.pointerRequests
  rw [List.filter_eq_self.mpr fun f hf => decide_eq_true (h f hf).2,
    List.map_map]
  rfl

/-- Below the capacity of one map both stores hold the latest write of each key, if the table of
DPDK takes every key that it has room for. -/
theorem values_eq (L : Xdp.LruHash) (H : Dpdk.RteHash) (rteIpv4UdptcpCksum : Dpdk.Cksum)
    (hroom : H.toBoundedMap.Roomy) {history : List Frame} (h : ∀ f ∈ history, BothAnswer f)
    (hcard : (writtenKeys (history.map request)).card ≤ Xdp.setsBlocks) (k : BitVec 32) :
    value L.toBoundedMap Xdp.keySet (Xdp.mapsAfter L history) k =
      lastWrite (history.map request) k ∧
    value H.toBoundedMap Dpdk.buck (Dpdk.cacheAfter H rteIpv4UdptcpCksum history) k =
      (lastWrite (history.map request) k).map (BitVec.signExtend 64) := by
  constructor
  · rw [← requests_eq h] at hcard ⊢
    exact (Xdp.faithful_mapsAfter fun i =>
      (Finset.card_le_card (Finset.filter_subset _ _)).trans hcard).value_eq k
  · rw [Dpdk.cacheAfter_eq, pointerRequests_eq h, ← lastWrite_mapValue]
    refine (faithful_serveAll hroom _ fun i => ?_).value_eq k
    rw [writtenKeys_mapValue]
    exact (Finset.card_le_card (Finset.filter_subset _ _)).trans (hcard.trans (by decide))

/-- The replies to writes and to reads of written keys carry the same payload; the reply to any
other read differs in the content word, which is the client's in XDP and 0 in DPDK. -/
theorem replies_agree (L : Xdp.LruHash) (H : Dpdk.RteHash) (rteIpv4UdptcpCksum : Dpdk.Cksum)
    (hroom : H.toBoundedMap.Roomy) (frames : List Frame) (hboth : ∀ f ∈ frames, BothAnswer f)
    (hkeys : (touchedKeys (frames.map request)).card ≤ Xdp.setsBlocks)
    (history rest : List Frame) (f : Frame) (hsplit : frames = history ++ f :: rest) :
    (∀ i < dataNr, i ≠ 2 ∨ f.word 0 ≠ 0 ∨ f.word 1 ∈ writtenKeys (history.map request) →
      (Xdp.respond L history f).2.frame.word i =
        (Dpdk.respond H rteIpv4UdptcpCksum
          (Dpdk.cacheAfter H rteIpv4UdptcpCksum history) f).2.frame.word i) ∧
    (f.word 0 = 0 → f.word 1 ∉ writtenKeys (history.map request) →
      (Xdp.respond L history f).2.frame.word 2 = f.word 2 ∧
      (Dpdk.respond H rteIpv4UdptcpCksum
        (Dpdk.cacheAfter H rteIpv4UdptcpCksum history) f).2.frame.word 2 = 0) := by
  have hf : BothAnswer f := hboth f (by simp [hsplit])
  have hhistory : ∀ g ∈ history, BothAnswer g := fun g hg => hboth g (by simp [hsplit, hg])
  have hcard : (writtenKeys (history.map request)).card ≤ Xdp.setsBlocks := by
    refine (Finset.card_le_card ?_).trans hkeys
    refine (writtenKeys_mono ?_).trans (writtenKeys_subset_touchedKeys _)
    rw [hsplit, List.map_append]
    exact List.subset_append_left _ _
  obtain ⟨hxdp, hdpdk⟩ := values_eq L H rteIpv4UdptcpCksum hroom hhistory hcard (f.word 1)
  refine ⟨fun i _ hi => ?_, fun hread hmiss => ?_⟩
  · by_cases hother : f.word 0 ≠ 0 ∨ i ≠ 2
    · rw [Xdp.respond_word history hf.1 hother, Dpdk.respond_word _ hf.2 hother]
    · obtain ⟨hflag, htwo⟩ := not_or.mp hother
      rw [not_not] at hflag htwo
      obtain ⟨v, hv⟩ := Option.isSome_iff_exists.mp (lastWrite_isSome.mpr
        ((hi.resolve_left (not_not.mpr htwo)).resolve_left (not_not.mpr hflag)))
      rw [htwo, Xdp.respond_read history hf.1 hflag, Dpdk.respond_read _ hf.2 hflag, hxdp, hdpdk,
        hv, Option.getD_some, Option.map_some, Option.getD_some, Dpdk.setWidth_signExtend]
  · have hnone : lastWrite (history.map request) (f.word 1) = none := by
      rwa [← lastWrite_isSome, Option.not_isSome_iff_eq_none] at hmiss
    rw [Xdp.respond_read history hf.1 hread, Dpdk.respond_read _ hf.2 hread, hxdp, hdpdk, hnone]
    exact ⟨rfl, rfl⟩

theorem replies_agree_read_back :
    (Xdp.respond Xdp.kernelLru [requestFrame 1 7 42] (requestFrame 0 7 0)).2.frame.word 2 =
      (Dpdk.respond Dpdk.plainHash Dpdk.rteCksum
        (Dpdk.cacheAfter Dpdk.plainHash Dpdk.rteCksum [requestFrame 1 7 42])
          (requestFrame 0 7 0)).2.frame.word 2 := by
  have hboth : ∀ f ∈ [requestFrame 1 7 42, requestFrame 0 7 0], BothAnswer f := by
    intro f hf
    rcases List.mem_pair.mp hf with rfl | rfl
    · exact bothAnswer_requestFrame 1 7 42
    · exact bothAnswer_requestFrame 0 7 0
  have hkeys : (touchedKeys ([requestFrame 1 7 42, requestFrame 0 7 0].map request)).card ≤
      Xdp.setsBlocks := (card_touchedKeys_le _).trans (by decide)
  refine (replies_agree Xdp.kernelLru Dpdk.plainHash Dpdk.rteCksum Dpdk.roomy_plainHash _ hboth
    hkeys [requestFrame 1 7 42] [] _ rfl).1 2 (by decide) (Or.inr (Or.inr ?_))
  rw [word_one_requestFrame, List.map_singleton, request_of_write (by simp), mem_writtenKeys]
  exact ⟨42, by simp⟩

/-- A read of a key that was never written is answered with the client's word in one architecture
and with 0 in the other. -/
theorem not_replies_agree_miss :
    (Xdp.respond Xdp.kernelLru [] (requestFrame 0 7 5)).2.frame.word 2 ≠
      (Dpdk.respond Dpdk.plainHash Dpdk.rteCksum
        (Dpdk.cacheAfter Dpdk.plainHash Dpdk.rteCksum []) (requestFrame 0 7 5)).2.frame.word 2 := by
  have hempty : ∀ f ∈ ([] : List Frame), BothAnswer f := fun f hf => by cases hf
  obtain ⟨hxdp, hdpdk⟩ := values_eq Xdp.kernelLru Dpdk.plainHash Dpdk.rteCksum Dpdk.roomy_plainHash
    hempty (by decide) ((requestFrame 0 7 5).word 1)
  have hboth := bothAnswer_requestFrame 0 7 5
  rw [Xdp.respond_read [] hboth.1 (by simp), Dpdk.respond_read _ hboth.2 (by simp), hxdp, hdpdk]
  simp

end PacketBench.Compare

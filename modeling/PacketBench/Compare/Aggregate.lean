import PacketBench.Dpdk.Sinks
import PacketBench.Frame.Requests
import PacketBench.Xdp.Handling

/-! # The aggregations of the two architectures

Both programs add up the same payload words. But DPDK asks for the EtherType of
IPv4 and XDP for the protocol number of UDP, so they take the same frames only
where the two fields go together.
-/

namespace PacketBench.Compare

open PktM

/-- One frame in both programs: they accept it together, and then add the same value. -/
structure SameWork (f : Frame) (aggregateVal : BitVec 32) (maps : Xdp.Counted (BitVec 32))
    (dpdk : Option Bool × Run (BitVec 32)) (xdp : Xdp.Verdict × Run (Xdp.Counted (BitVec 32))) :
    Prop where
  accepts : dpdk.1 = some true ↔ xdp.2.store.rxpkt = maps.rxpkt + 1
  adds : dpdk.1 = some true → dpdk.2.store - aggregateVal = xdp.2.store.data - maps.data

theorem takes_iff_of_long {f : Frame}
    (hlen : sizeofEthhdr + sizeofIphdr + sizeofUdphdr + totSizeB ≤ f.len) :
    Xdp.Takes totSizeB f ↔ f.protocol = ipprotoUdp ∧ f.Announces totSizeB := by
  have hroom : 42 + dataSizeB * (totSizeB / dataSizeB) ≤ f.len := hlen
  have hudp : 42 ≤ f.len := (Nat.le_add_right _ _).trans hroom
  exact ⟨fun h => ⟨h.1.2, h.2.1⟩, fun h => ⟨⟨hudp, h.1⟩, h.2, hroom⟩⟩

theorem counted_iff_accepted (aggregateVal : BitVec 32) (f : Frame) :
    (Dpdk.aggregate.exec (Run.start f aggregateVal)).1 = some true ↔ Dpdk.Accepted f := by
  by_cases h : Dpdk.Accepted f
  · exact iff_of_true (Dpdk.adds_aggregate.accepted _ f h).1 h
  · rw [(Dpdk.adds_aggregate.rejected _ f h).1]
    exact iff_of_false (by decide) h

theorem counted_iff_takes (arrival processed : Xdp.Instant) (maps : Xdp.Counted (BitVec 32))
    (f : Frame) : (Xdp.handle (Xdp.aggregate totSizeB arrival processed) maps f).2.store.rxpkt =
      maps.rxpkt + 1 ↔ Xdp.Takes totSizeB f := by
  have hcounts := Xdp.countsWith_aggregate (by decide : totSizeB < 2 ^ 31) arrival processed
  by_cases h : Xdp.Takes totSizeB f
  · rw [hcounts.taken maps f h]
    exact iff_of_true rfl h
  · rw [hcounts.rejected maps f h]
    exact iff_of_false (Xdp.add_one_ne_self _).symm h

theorem same_value {f : Frame} (arrival processed : Xdp.Instant) (aggregateVal : BitVec 32)
    (maps : Xdp.Counted (BitVec 32)) (hdpdk : Dpdk.Accepted f) (hxdp : Xdp.Takes totSizeB f) :
    (Dpdk.aggregate.exec (Run.start f aggregateVal)).2.store - aggregateVal =
      (Xdp.handle (Xdp.aggregate totSizeB arrival processed) maps f).2.store.data - maps.data := by
  have hcounts := Xdp.countsWith_aggregate (by decide : totSizeB < 2 ^ 31) arrival processed
  rw [(Dpdk.adds_aggregate.accepted _ f hdpdk).2, hcounts.taken maps f hxdp, Xdp.addWords,
    add_sub_cancel_left, add_sub_cancel_left, dataNr]

/-- On long frames the programs do the same work unless the frame announces the right size and
only one of the two header fields is right. -/
theorem same_work_iff (arrival processed : Xdp.Instant) (aggregateVal : BitVec 32)
    (maps : Xdp.Counted (BitVec 32)) (f : Frame)
    (hlen : sizeofEthhdr + sizeofIphdr + sizeofUdphdr + totSizeB ≤ f.len) :
    SameWork f aggregateVal maps (Dpdk.aggregate.exec (Run.start f aggregateVal))
        (Xdp.handle (Xdp.aggregate totSizeB arrival processed) maps f) ↔
      (f.Announces totSizeB → (f.etherType = etherTypeIpv4 ↔ f.protocol = ipprotoUdp)) := by
  have htakes := takes_iff_of_long hlen
  constructor
  · rintro ⟨haccepts, -⟩ hsize
    rw [counted_iff_accepted, counted_iff_takes, htakes, Dpdk.Accepted] at haccepts
    exact ⟨fun htype => (haccepts.mp ⟨htype, hsize⟩).1, fun hudp => (haccepts.mpr ⟨hudp, hsize⟩).1⟩
  · intro h
    have hsame : Dpdk.Accepted f ↔ Xdp.Takes totSizeB f := by
      rw [htakes, Dpdk.Accepted]
      exact ⟨fun ha => ⟨(h ha.2).mp ha.1, ha.2⟩, fun ht => ⟨(h ht.2).mpr ht.1, ht.2⟩⟩
    constructor
    · rw [counted_iff_accepted, counted_iff_takes]
      exact hsame
    · rw [counted_iff_accepted]
      exact fun ha => same_value arrival processed aggregateVal maps ha (hsame.mp ha)

theorem same_work_iff_requestFrame :
    SameWork (requestFrame 1 7 42) 0 ⟨0, 0⟩
        (Dpdk.aggregate.exec (Run.start (requestFrame 1 7 42) 0))
        (Xdp.handle (Xdp.aggregate totSizeB ⟨0, 0⟩ ⟨0, 0⟩) ⟨0, 0⟩ (requestFrame 1 7 42)) ↔
      ((requestFrame 1 7 42).Announces totSizeB →
        ((requestFrame 1 7 42).etherType = etherTypeIpv4 ↔
          (requestFrame 1 7 42).protocol = ipprotoUdp)) :=
  same_work_iff ⟨0, 0⟩ ⟨0, 0⟩ 0 ⟨0, 0⟩ (requestFrame 1 7 42) (by decide)

/-- A TCP segment whose bytes under the UDP length announce the right size. -/
def tcpFrame : Frame := ⟨1066, requestHeaders.store 23 8 6⟩

theorem not_same_work_tcpFrame : 42 + totSizeB ≤ tcpFrame.len ∧
    ¬ SameWork tcpFrame 0 ⟨0, 0⟩ (Dpdk.aggregate.exec (Run.start tcpFrame 0))
      (Xdp.handle (Xdp.aggregate totSizeB ⟨0, 0⟩ ⟨0, 0⟩) ⟨0, 0⟩ tcpFrame) := by
  refine ⟨by decide, fun h => ?_⟩
  have haccepts := h.accepts
  rw [counted_iff_accepted, counted_iff_takes] at haccepts
  exact absurd (haccepts.mp (by decide)) (by decide)

end PacketBench.Compare

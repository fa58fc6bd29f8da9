import PacketBench.Compare.Parallel
import PacketBench.Concurrency.ReadBack
import PacketBench.Xdp.LostReplies

/-! # The last reply

On several cores a reply can get lost, since a core may read the packet counter
after others have counted on. When the senders stop at a full number of
periods, however, the core that reads last finds a full number. In XDP its CPU
sends the frame back. In DPDK its lcore offers the first mbuf of its burst to
the driver, whatever its frame is, and the driver may refuse it.
-/

namespace PacketBench.Compare

open Atomics PktM

variable {α σ : Type}

/-- When the work counts as a full number of periods, some core finds the packet counter at a value
of this kind. -/
def SomeCoreFinds (ops : α → List SharedOp) (counted : α → ℕ) (period : ℕ)
    (completes : BitVec 32 → Prop) : Prop :=
  ∀ (n : ℕ) (arrivals : List (Fin n × α)) (schedule : List (Fin n)),
    0 < (arrivals.map (counted ·.2)).sum → period ∣ (arrivals.map (counted ·.2)).sum →
    ((start ops arrivals).run schedule).Finished →
      ∃ x ∈ ((start ops arrivals).run schedule).log, completes x.2

theorem readsLast_countOps (ops : List SharedOp) (packets : BitVec 32) :
    ReadsLast Cell.packets (ops ++ countOps packets) := by
  have hsplit : ops ++ countOps packets = (ops ++ [.add .packets packets]) ++ [.read .packets] := by
    rw [List.append_assoc]
    rfl
  rw [hsplit]
  exact readsLast_concat _

theorem sum_map_ofNat (l : List ℕ) : (l.map (BitVec.ofNat 32)).sum = BitVec.ofNat 32 l.sum := by
  induction l with
  | nil => rfl
  | cons k l ih => rw [List.map_cons, List.sum_cons, List.sum_cons, ih, BitVec.ofNat_add]

theorem someCoreFinds_of_counts {ops : α → List SharedOp} {counted : α → ℕ} {period : ℕ}
    {completes : BitVec 32 → Prop} (hlast : ∀ a, ReadsLast .packets (ops a))
    (hadded : ∀ a, added .packets (ops a) = BitVec.ofNat 32 (counted a))
    (hwork : ∀ a, ops a = [] → counted a = 0)
    (hfull : ∀ k, period ∣ k → completes (BitVec.ofNat 32 k)) :
    SomeCoreFinds ops counted period completes := by
  intro n arrivals schedule hpos hdvd hdone
  have hsome : ∃ a ∈ arrivals, ops a.2 ≠ [] := by
    by_contra hnone
    push Not at hnone
    apply hpos.ne'
    apply List.sum_eq_zero
    intro k hk
    obtain ⟨a, ha, rfl⟩ := List.mem_map.mp hk
    exact hwork a.2 (hnone a ha)
  have htotal : ((start ops arrivals).run schedule).mem .packets =
      BitVec.ofNat 32 (arrivals.map (counted ·.2)).sum := by
    rw [mem_of_finished_start ops arrivals hdone, ← sum_map_ofNat, List.map_map]
    simp only [hadded]
    rfl
  obtain ⟨i, hi⟩ := exists_log_of_finished hlast hsome hdone
  exact ⟨_, hi, htotal ▸ hfull _ hdvd⟩

/-- A CPU that finds the packet counter at `x` after counting a frame sends the frame back. -/
def RepliesAt (tot : ℕ) (prog : PktM (Xdp.Counted σ) Xdp.Verdict) (x : BitVec 32) : Prop :=
  ∀ maps f, Xdp.Takes tot f → maps.rxpkt + 1 = x → (Xdp.handle prog maps f).1 = .tx

/-- An lcore that finds the packet counter at `x` offers a notification to the driver. -/
def OffersAt (process : PktM σ (Option Bool)) (x : BitVec 32) : Prop :=
  ∀ notify tx s b step, b.bufs ≠ [] → Dpdk.sinkBurst process notify tx s b = some step →
    step.state.pktRec = x → step.notified = true

/-- The CPUs that run a program cannot miss all full numbers. -/
structure CpusReply (tot : ℕ) (prog : PktM (Xdp.Counted σ) Xdp.Verdict)
    (slots : σ → ℕ → BitVec 32) (ops : Frame → List SharedOp) : Prop where
  performs : Xdp.Performs tot prog slots ops
  finds : SomeCoreFinds ops (fun f => if Xdp.Takes tot f then 1 else 0) (miB / tot)
    (RepliesAt tot prog)

/-- The lcores that run a program cannot miss all full numbers. -/
structure LcoresOffer (process : PktM σ (Option Bool)) (slots : σ → ℕ → BitVec 32)
    (ops : Dpdk.Burst → List SharedOp) : Prop where
  performs : Dpdk.Performs process slots ops
  finds : SomeCoreFinds ops Dpdk.acceptedIn Dpdk.nrMsgs (OffersAt process)

section Work

variable {work : Frame → ℕ → List SharedOp} {slots : σ → ℕ → BitVec 32} {g : ℕ → σ → Frame → σ}

theorem cpusReply_of_countsWith {tot : ℕ} {prog : PktM (Xdp.Counted σ) Xdp.Verdict}
    (htot : tot ∣ miB) (h : Folds work slots g)
    (hcounts : Xdp.CountsWith tot prog (g (tot / dataSizeB))) :
    CpusReply tot prog slots (Xdp.takenOps tot work) := by
  refine ⟨Xdp.performs_of_countsWith h hcounts, someCoreFinds_of_counts ?_ ?_ ?_ ?_⟩
  · intro f
    unfold Xdp.takenOps
    split_ifs
    · exact readsLast_countOps _ _
    · exact readsLast_nil
  · intro f
    unfold Xdp.takenOps
    split_ifs
    · rw [added_append, h.packets, added_countOps_packets, zero_add]
      rfl
    · rfl
  · intro f hnil
    unfold Xdp.takenOps at hnil
    split_ifs at hnil ⊢
    · cases (List.append_eq_nil_iff.mp hnil).2
    · rfl
  · intro k hk maps f hf hmaps
    rw [hcounts.verdict, hmaps]
    exact ⟨hf, (Xdp.completes_ofNat htot k).mpr hk⟩

theorem lcoresOffer_of_adds {process : PktM σ (Option Bool)} (h : Folds work slots g)
    (hcounts : Dpdk.Counts process) (hadds : Dpdk.Adds process (g dataNr)) :
    LcoresOffer process slots (Dpdk.burstOps work) := by
  refine ⟨Dpdk.performs_of_adds h hcounts hadds, someCoreFinds_of_counts ?_ ?_ ?_ ?_⟩
  · intro b
    unfold Dpdk.burstOps
    split_ifs
    · exact readsLast_nil
    · exact readsLast_countOps _ _
  · intro b
    unfold Dpdk.burstOps
    split_ifs with hnil
    · rw [Dpdk.acceptedIn_of_nil hnil]
      rfl
    · rw [added_append, Dpdk.added_flatMap_acceptedOps_packets h, added_countOps_packets, zero_add]
  · intro b hops
    unfold Dpdk.burstOps at hops
    split_ifs at hops with hnil
    · exact Dpdk.acceptedIn_of_nil hnil
    · cases (List.append_eq_nil_iff.mp hops).2
  · intro k hk notify tx s b step hne hstep hrec
    rw [Dpdk.notified_iff_completes (Dpdk.turn_of_sinkBurst hcounts hstep), hrec]
    exact ⟨hne, (Dpdk.completes_ofNat k).mpr (Nat.mod_eq_zero_of_dvd hk)⟩

end Work

end PacketBench.Compare

import PacketBench.Compare.Kvstore
import PacketBench.Dpdk.FullTable
import PacketBench.Xdp.Eviction

/-! # The key-value stores of the two architectures beyond their capacity

The stores may forget different keys once they are full. They still never
contradict each other: when both find a key, they answer with the same value.
-/

namespace PacketBench.Compare

open BoundedMaps

def AnswerAlike (f : Frame) : Prop := Xdp.IsRequest f ↔ Dpdk.Accepted f

theorem requests_alike {frames : List Frame} (h : ∀ f ∈ frames, AnswerAlike f) :
    Xdp.requests frames = Dpdk.requests frames := by
  unfold Xdp.requests Dpdk.requests
  congr 1
  exact List.filter_congr fun f hf => decide_eq_decide.mpr (h f hf)

/-- Whatever has been written before, the replies of the two stores to a request that both take
differ only where the XDP store misses the key or the DPDK store has refused it. -/
theorem replies_never_conflict (L : Xdp.LruHash) (H : Dpdk.RteHash)
    (rteIpv4UdptcpCksum : Dpdk.Cksum) (history : List Frame)
    (halike : ∀ g ∈ history, AnswerAlike g) (f : Frame) (hf : BothAnswer f) :
    let xdp := (Xdp.respond L history f).2.frame
    let dpdk := (Dpdk.respond H rteIpv4UdptcpCksum
      (Dpdk.cacheAfter H rteIpv4UdptcpCksum history) f).2.frame
    (∀ i, f.word 0 ≠ 0 ∨ i ≠ 2 → xdp.word i = dpdk.word i) ∧
    (f.word 0 = 0 → Dpdk.WriteTaken H rteIpv4UdptcpCksum history (f.word 1) →
      xdp.word 2 = f.word 2 ∨ xdp.word 2 = dpdk.word 2) ∧
    (f.word 0 = 0 → ¬ Dpdk.WriteTaken H rteIpv4UdptcpCksum history (f.word 1) →
      dpdk.word 2 = 0) := by
  refine ⟨fun i hi => ?_, fun hread htaken => ?_, fun hread hnot => ?_⟩
  · rw [Xdp.respond_word history hf.1 hi, Dpdk.respond_word _ hf.2 hi]
  · have hdpdk := (Dpdk.respond_read_overflow H rteIpv4UdptcpCksum history hf.2 hread).1 htaken
    rcases (Xdp.word_two_cases L history hf.1 hread) with hmiss | hhit
    · exact Or.inl hmiss
    · rw [requests_alike halike, hdpdk] at hhit
      exact Or.inr (Option.some.inj hhit).symm
  · exact (Dpdk.respond_read_overflow H rteIpv4UdptcpCksum history hf.2 hread).2 hnot

theorem replies_never_conflict_read_back :
    (Xdp.respond Xdp.kernelLru [requestFrame 1 7 42] (requestFrame 0 7 5)).2.frame.word 2 = 5 ∨
    (Xdp.respond Xdp.kernelLru [requestFrame 1 7 42] (requestFrame 0 7 5)).2.frame.word 2 =
      (Dpdk.respond Dpdk.plainHash Dpdk.rteCksum (Dpdk.cacheAfter Dpdk.plainHash Dpdk.rteCksum
        [requestFrame 1 7 42]) (requestFrame 0 7 5)).2.frame.word 2 := by
  have hboth := fun flag key val => bothAnswer_requestFrame flag key val
  have halike : ∀ g ∈ [requestFrame 1 7 42], AnswerAlike g := by
    intro g hg
    obtain rfl := List.mem_singleton.mp hg
    exact iff_of_true (hboth 1 7 42).1 (hboth 1 7 42).2
  have htaken : Dpdk.WriteTaken Dpdk.plainHash Dpdk.rteCksum [requestFrame 1 7 42]
      ((requestFrame 0 7 5).word 1) := by
    rw [word_one_requestFrame]
    exact Dpdk.writeTaken_plainHash_first 1 7 42 (by decide) []
  have hreply := (replies_never_conflict Xdp.kernelLru Dpdk.plainHash Dpdk.rteCksum
    [requestFrame 1 7 42] halike _ (hboth 0 7 5)).2.1 (by simp) htaken
  rwa [word_two_requestFrame] at hreply

end PacketBench.Compare

import PacketBench.Dpdk.Notification

/-! # The frame of a notification

A notification takes the first mbuf of the burst, whatever frame is in it. So a
frame that the loop rejected is rewritten and transmitted when it comes first in
a burst that ends on a multiple of `MiB / TOT_SIZE_B`.
-/

namespace PacketBench.Dpdk

variable {σ : Type}

structure Spared (m m' : Mbuf) : Prop where
  addr_eq : m'.addr = m.addr
  rejected : ¬ Accepted m.frame → m'.frame = m.frame

/-- Only accepted frames are transmitted, and the others are freed as they were received. -/
structure TransmitsAccepted (b : Burst) (step : SinkStep σ) : Prop where
  offered : ∀ m ∈ step.offered, ∃ m₀ ∈ b.bufs, m₀.addr = m.addr ∧ Accepted m₀.frame
  freed : List.Forall₂ Spared b.bufs step.freed

theorem spared_processAll {process : PktM σ (Option Bool)} (hcounts : Counts process) (s : σ)
    (bufs : List Mbuf) : List.Forall₂ Spared bufs ((processAll process s bufs).1.map Prod.fst) := by
  have hloop : List.Forall₂ (fun m out => Spared m out.1) bufs (processAll process s bufs).1 :=
    forall₂_processAll (fun s m => ⟨rfl, fun hm => ((hcounts s m).rejected hm).2⟩) s bufs
  rwa [List.forall₂_map_right_iff]

theorem spared_rewriteFirst {notify : PktM σ Unit} {s : σ} {bufs bufs' : List Mbuf}
    (h : List.Forall₂ Spared bufs bufs') (hfirst : ∀ m ∈ bufs.head?, Accepted m.frame) :
    List.Forall₂ Spared bufs (rewriteFirst notify s bufs') := by
  cases h with
  | nil => exact List.Forall₂.nil
  | cons hm hms =>
    exact List.Forall₂.cons ⟨hm.addr_eq, fun hn => absurd (hfirst _ rfl) hn⟩ hms

theorem spared_of_sinkBurst {process : PktM σ (Option Bool)} (hcounts : Counts process)
    {notify : PktM σ Unit} {tx : TxBurst} {s : SinkState σ} {b : Burst} {step : SinkStep σ}
    (h : sinkBurst process notify tx s b = some step)
    (hfirst : Completes (s.pktRec + BitVec.ofNat 32 (acceptedIn b)) →
      ∀ m ∈ b.bufs.head?, Accepted m.frame) : List.Forall₂ Spared b.bufs step.freed := by
  have hcounted := forall₂_processAll hcounts s.store b.bufs
  have hspared := spared_processAll hcounts s.store b.bufs
  rw [sinkBurst] at h
  generalize processAll process s.store b.bufs = result at h hcounted hspared
  obtain ⟨loop, store⟩ := result
  simp only at h hcounted hspared
  split_ifs at h with hnil hexit hdone
  · obtain rfl := Option.some.inj h
    rw [List.length_eq_zero_iff.mp hnil]
    exact List.Forall₂.nil
  · rw [countP_of_counted hcounted hexit, ← acceptedIn] at h hdone
    obtain rfl := Option.some.inj h
    rw [freeAll_eq]
    exact spared_rewriteFirst hspared (hfirst hdone)
  · obtain rfl := Option.some.inj h
    rw [freeAll_eq]
    exact hspared

theorem offered_iff {tx : TxBurst} {s : SinkState σ} {b : Burst} {step : SinkStep σ}
    (h : Turn tx s b step) :
    (∀ m ∈ step.offered, ∃ m₀ ∈ b.bufs, m₀.addr = m.addr ∧ Accepted m₀.frame) ↔
      (Completes (s.pktRec + BitVec.ofNat 32 (acceptedIn b)) →
        ∀ m ∈ b.bufs.head?, Accepted m.frame) := by
  have haddr : (∀ m ∈ step.offered, ∃ m₀ ∈ b.bufs, m₀.addr = m.addr ∧ Accepted m₀.frame) ↔
      ∀ a ∈ step.offered.map Mbuf.addr, ∃ m₀ ∈ b.bufs, m₀.addr = a ∧ Accepted m₀.frame := by
    simp only [List.forall_mem_map]
  have hnodup := b.nodup
  rw [haddr, h.offered, ← h.count]
  rcases hbufs : b.bufs with _ | ⟨m, ms⟩
  · simp
  · rw [hbufs] at hnodup
    by_cases hdone : Completes step.state.pktRec
    · rw [if_pos ⟨List.cons_ne_nil m ms, hdone⟩, List.map_cons, List.take_succ_cons, List.take_zero]
      constructor
      · intro hoffered _ m' hm'
        obtain rfl := Option.some.inj hm'
        obtain ⟨m₀, hmem, haddr, hacc⟩ := hoffered m.addr List.mem_cons_self
        rwa [← List.inj_on_of_nodup_map hnodup hmem List.mem_cons_self haddr]
      · intro hfirst a ha
        obtain rfl := List.mem_singleton.mp ha
        exact ⟨m, List.mem_cons_self, rfl, hfirst hdone m rfl⟩
    · rw [if_neg fun hd => hdone hd.2]
      exact iff_of_true (List.forall_mem_nil _) fun hd => absurd hd hdone

/-- Only accepted frames are rewritten and transmitted unless the burst ends on a multiple of
`MiB / TOT_SIZE_B` and its first frame is rejected. -/
theorem sinkBurst_transmits_iff (rteIpv4UdptcpCksum : Cksum) (app : SinkApp) (tx : TxBurst)
    (s : SinkState app.Store) (b : Burst) (step : SinkStep app.Store)
    (h : sinkBurst app.process (app.notify rteIpv4UdptcpCksum) tx s b = some step) :
    TransmitsAccepted b step ↔ (Completes (s.pktRec + BitVec.ofNat 32 (acceptedIn b)) →
      ∀ m ∈ b.bufs.head?, Accepted m.frame) := by
  have hoffered := offered_iff (turn_of_sinkBurst (counts_process app) h)
  constructor
  · rintro ⟨htransmitted, -⟩
    exact hoffered.mp htransmitted
  · intro hfirst
    exact ⟨hoffered.mpr hfirst, spared_of_sinkBurst (counts_process app) h hfirst⟩

theorem sinkBurst_transmits_iff_single : ∃ step,
    sinkBurst (SinkApp.process .aggregate) (SinkApp.notify rteCksum .aggregate) allSent
      ⟨1023, (0 : BitVec 32)⟩ singleBurst = some step ∧ TransmitsAccepted singleBurst step := by
  obtain ⟨step, hstep⟩ := exists_sinkBurst counts_aggregate.2
    (SinkApp.notify rteCksum .aggregate) allSent ⟨1023, (0 : BitVec 32)⟩ singleBurst
  refine ⟨step, hstep, (sinkBurst_transmits_iff rteCksum .aggregate allSent _ _ step hstep).mpr
    fun _ m hm => ?_⟩
  obtain rfl := Option.some.inj hm
  exact accepted_requestFrame 1 7 42

/-- An ARP frame alone in a burst is answered while the count stands at a multiple. -/
theorem not_sinkBurst_transmits_arp : ∃ step,
    sinkBurst (SinkApp.process .aggregate) (SinkApp.notify rteCksum .aggregate) allSent
      ⟨0, (0 : BitVec 32)⟩ arpBurst = some step ∧ ¬ TransmitsAccepted arpBurst step := by
  obtain ⟨step, hstep⟩ := exists_sinkBurst counts_aggregate.2
    (SinkApp.notify rteCksum .aggregate) allSent ⟨0, (0 : BitVec 32)⟩ arpBurst
  refine ⟨step, hstep, fun h => ?_⟩
  have hfirst := (offered_iff (turn_of_sinkBurst counts_aggregate.1 hstep)).mp h.offered
  exact absurd (hfirst (by decide) _ rfl) (by decide)

end PacketBench.Dpdk

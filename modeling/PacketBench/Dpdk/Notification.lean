import PacketBench.Arithmetic.Wrapping
import PacketBench.Dpdk.Sinks
import PacketBench.Lists.Prefix

/-! # Notifications and ownership at the end of a turn

The programs that consume frames test their count once per burst. So a
notification is lost when a burst steps over a multiple of
`MiB / TOT_SIZE_B`, and sent for nothing when a burst without accepted frames
comes while the count stands at one. The mbuf of a notification is freed even
when the driver took it.
-/

namespace PacketBench.Dpdk

variable {σ : Type}

def acceptedIn (b : Burst) : ℕ := b.bufs.countP (Accepted ·.frame)

theorem acceptedIn_le (b : Burst) : acceptedIn b ≤ burstSize :=
  List.countP_le_length.trans b.length_le

theorem acceptedIn_of_nil {b : Burst} (h : b.bufs = []) : acceptedIn b = 0 := by
  rw [acceptedIn, h]
  rfl

section Loop

variable {bufs : List Mbuf} {loop : List (Mbuf × Option Bool)}

theorem countP_of_counted (h : List.Forall₂ Counted bufs loop)
    (hexit : ¬ loop.any (·.2.isNone)) :
    loop.countP (·.2 = some true) = bufs.countP (Accepted ·.frame) := by
  induction h with
  | nil => rfl
  | @cons m out bufs loop hm _ ih =>
    rw [List.any_cons, Bool.or_eq_true, not_or] at hexit
    rw [List.countP_cons, List.countP_cons, ih hexit.2]
    by_cases hacc : Accepted m.frame
    · rcases hm.accepted hacc with htrue | hnone
      · simp [hacc, htrue]
      · exact absurd (by rw [hnone]; rfl) hexit.1
    · simp [hacc, (hm.rejected hacc).1]

end Loop

theorem addrs_rewriteFirst (notify : PktM σ Unit) (s : σ) (bufs : List Mbuf) :
    (rewriteFirst notify s bufs).map Mbuf.addr = bufs.map Mbuf.addr := by
  cases bufs <;> rfl

structure Turn (tx : TxBurst) (s : SinkState σ) (b : Burst) (step : SinkStep σ) : Prop where
  count : step.state.pktRec = s.pktRec + BitVec.ofNat 32 (acceptedIn b)
  offered : step.offered.map Mbuf.addr =
    if b.bufs ≠ [] ∧ Completes step.state.pktRec then (b.bufs.map Mbuf.addr).take 1 else []
  taken : step.taken = step.offered.take (tx.sent 1)
  freed : step.freed.map Mbuf.addr = b.bufs.map Mbuf.addr

theorem turn_of_sinkBurst {process : PktM σ (Option Bool)} (hcounts : Counts process)
    {notify : PktM σ Unit} {tx : TxBurst} {s : SinkState σ} {b : Burst} {step : SinkStep σ}
    (h : sinkBurst process notify tx s b = some step) : Turn tx s b step := by
  have hcounted := forall₂_processAll hcounts s.store b.bufs
  have haddrs := addrs_processAll process s.store b.bufs
  rw [sinkBurst] at h
  generalize processAll process s.store b.bufs = result at h hcounted haddrs
  obtain ⟨loop, store⟩ := result
  simp only at h hcounted haddrs
  split_ifs at h with hnil hexit hdone
  · obtain rfl := Option.some.inj h
    have hbufs : b.bufs = [] := List.length_eq_zero_iff.mp hnil
    refine ⟨?_, ?_, List.take_nil.symm, ?_⟩
    · unfold acceptedIn
      rw [hbufs]
      simp
    · rw [if_neg (fun hne => hne.1 hbufs)]
      rfl
    · rw [hbufs]
  · have hbufs : b.bufs ≠ [] := fun hbufs => hnil (by rw [hbufs]; rfl)
    rw [countP_of_counted hcounted hexit, ← acceptedIn] at h hdone
    obtain rfl := Option.some.inj h
    refine ⟨rfl, ?_, rfl, ?_⟩
    · rw [if_pos ⟨hbufs, hdone⟩, List.map_take, addrs_rewriteFirst, haddrs]
    · rw [freeAll_eq, addrs_rewriteFirst, haddrs]
  · rw [countP_of_counted hcounted hexit, ← acceptedIn] at h hdone
    obtain rfl := Option.some.inj h
    refine ⟨rfl, ?_, List.take_nil.symm, ?_⟩
    · rw [if_neg (fun hd => hdone hd.2)]
      rfl
    · rw [freeAll_eq, haddrs]

theorem offered_eq_nil_iff {tx : TxBurst} {s : SinkState σ} {b : Burst} {step : SinkStep σ}
    (h : Turn tx s b step) :
    step.offered = [] ↔ b.bufs = [] ∨ ¬ Completes step.state.pktRec := by
  rw [← List.map_eq_nil_iff (f := Mbuf.addr), h.offered]
  split_ifs with hdone
  · rw [List.take_eq_nil_iff, List.map_eq_nil_iff]
    exact iff_of_false (by simp [hdone.1]) (by simp [hdone])
  · exact iff_of_true rfl (by rwa [not_and_or, not_not] at hdone)

theorem notified_iff_completes {tx : TxBurst} {s : SinkState σ} {b : Burst} {step : SinkStep σ}
    (h : Turn tx s b step) :
    step.notified = true ↔ b.bufs ≠ [] ∧ Completes step.state.pktRec := by
  unfold SinkStep.notified
  rw [Bool.not_eq_true', ← Bool.not_eq_true, List.isEmpty_iff, offered_eq_nil_iff h, not_or,
    not_not]

theorem releasedOnce_iff {tx : TxBurst} {s : SinkState σ} {b : Burst} {step : SinkStep σ}
    (h : Turn tx s b step) : ReleasedOnce b (step.taken ++ step.freed) ↔
      b.bufs = [] ∨ ¬ Completes (s.pktRec + BitVec.ofNat 32 (acceptedIn b)) ∨ tx.sent 1 = 0 := by
  have htaken : ReleasedOnce b (step.taken ++ step.freed) ↔ step.taken = [] := by
    unfold ReleasedOnce
    rw [List.map_append, h.freed]
    constructor
    · intro hperm
      have hlen := hperm.length_eq
      rw [List.length_append, List.length_map] at hlen
      exact List.length_eq_zero_iff.mp (by omega)
    · intro hnil
      rw [hnil]
      exact List.Perm.refl _
  rw [htaken, h.taken, List.take_eq_nil_iff, offered_eq_nil_iff h, h.count, or_comm, or_assoc]

/-- Each mbuf is released once unless the burst ends on a multiple of `MiB / TOT_SIZE_B` and the
driver takes the notification. -/
theorem sinkBurst_releases_once_iff (rteIpv4UdptcpCksum : Cksum) (app : SinkApp) (tx : TxBurst)
    (s : SinkState app.Store) (b : Burst) (step : SinkStep app.Store)
    (h : sinkBurst app.process (app.notify rteIpv4UdptcpCksum) tx s b = some step) :
    ReleasedOnce b (step.taken ++ step.freed) ↔
      b.bufs = [] ∨ ¬ Completes (s.pktRec + BitVec.ofNat 32 (acceptedIn b)) ∨ tx.sent 1 = 0 :=
  releasedOnce_iff (turn_of_sinkBurst (counts_process app) h)

def singleBurst : Burst where
  bufs := [⟨1, by decide, requestFrame 1 7 42⟩]
  nodup := by decide
  length_le := by decide

theorem acceptedIn_singleBurst : acceptedIn singleBurst = 1 := by
  unfold acceptedIn singleBurst
  rw [List.countP_singleton,
    if_pos (decide_eq_true (accepted_requestFrame 1 7 42))]

theorem acceptedIn_mixedBurst : acceptedIn mixedBurst = 1 := by decide

/-- A notification that the driver refuses. -/
theorem sinkBurst_releases_once_refused : ∃ step,
    sinkBurst (SinkApp.process .aggregate) (SinkApp.notify rteCksum .aggregate) noneSent
      ⟨1023, (0 : BitVec 32)⟩ mixedBurst = some step ∧
    step.notified = true ∧ ReleasedOnce mixedBurst (step.taken ++ step.freed) := by
  obtain ⟨step, hstep⟩ := exists_sinkBurst counts_aggregate.2
    (SinkApp.notify rteCksum .aggregate) noneSent ⟨1023, (0 : BitVec 32)⟩ mixedBurst
  have hturn := turn_of_sinkBurst counts_aggregate.1 hstep
  have hnotified : step.notified = true ↔ mixedBurst.bufs ≠ [] ∧ Completes step.state.pktRec :=
    notified_iff_completes hturn
  refine ⟨step, hstep, hnotified.mpr ⟨List.cons_ne_nil _ _, ?_⟩, ?_⟩
  · rw [hturn.count, acceptedIn_mixedBurst]
    decide
  · exact (sinkBurst_releases_once_iff rteCksum .aggregate noneSent _ _ step hstep).mpr
      (Or.inr (Or.inr rfl))

/-- The request that completes a MiB is taken by the driver and freed as well. -/
theorem not_sinkBurst_releases_once : ∃ step,
    sinkBurst (SinkApp.process .aggregate) (SinkApp.notify rteCksum .aggregate) allSent
      ⟨1023, (0 : BitVec 32)⟩ singleBurst = some step ∧
    ¬ ReleasedOnce singleBurst (step.taken ++ step.freed) := by
  obtain ⟨step, hstep⟩ := exists_sinkBurst counts_aggregate.2
    (SinkApp.notify rteCksum .aggregate) allSent ⟨1023, (0 : BitVec 32)⟩ singleBurst
  refine ⟨step, hstep, fun hreleased => ?_⟩
  have hcond := (releasedOnce_iff (turn_of_sinkBurst counts_aggregate.1 hstep)).mp hreleased
  rw [acceptedIn_singleBurst] at hcond
  revert hcond
  decide

/-- Accepted frames for one notification. -/
def nrMsgs : ℕ := miB / totSizeB

def withCounts : ℕ → List Burst → List (ℕ × Burst)
  | _, [] => []
  | n, b :: bs => (n, b) :: withCounts (n + acceptedIn b) bs

def acceptedTotal (bs : List Burst) : ℕ := (bs.map acceptedIn).sum

/-- The count reaches or passes a multiple of `MiB / TOT_SIZE_B` during the burst. -/
def Crosses (x : ℕ × Burst) : Prop := x.1 / nrMsgs < (x.1 + acceptedIn x.2) / nrMsgs

def Notifies (x : ℕ × Burst) : Prop := x.2.bufs ≠ [] ∧ (x.1 + acceptedIn x.2) % nrMsgs = 0

/-- The burst does not step over a multiple, and brings an accepted frame where the count stands
at one. -/
def Lands (x : ℕ × Burst) : Prop :=
  (Crosses x → (x.1 + acceptedIn x.2) % nrMsgs = 0) ∧
    (x.2.bufs ≠ [] → x.1 % nrMsgs = 0 → 0 < acceptedIn x.2)

instance : DecidablePred Crosses := fun x =>
  inferInstanceAs (Decidable (x.1 / nrMsgs < (x.1 + acceptedIn x.2) / nrMsgs))

instance : DecidablePred Notifies := fun x =>
  inferInstanceAs (Decidable (x.2.bufs ≠ [] ∧ (x.1 + acceptedIn x.2) % nrMsgs = 0))

/-- One notification for each multiple of `MiB / TOT_SIZE_B`, by the burst that reaches it. -/
structure NotifiesPerMiB (bs : List Burst) (steps : List (SinkStep σ)) : Prop where
  count : steps.countP SinkStep.notified = acceptedTotal bs / nrMsgs
  timing : List.Forall₂ (fun step x => step.notified = true → Crosses x) steps (withCounts 0 bs)

theorem completes_ofNat (n : ℕ) : Completes (BitVec.ofNat 32 n) ↔ n % nrMsgs = 0 := by
  have hperiod : nrMsgs ∣ 2 ^ 32 := by decide
  rw [← Nat.dvd_iff_mod_eq_zero]
  exact Wrapping.tmod_toInt_ofNat_eq_zero_iff hperiod n

theorem notified_iff {tx : TxBurst} {s : SinkState σ} {b : Burst} {step : SinkStep σ} {n : ℕ}
    (h : Turn tx s b step) (hcount : s.pktRec = BitVec.ofNat 32 n) :
    step.state.pktRec = BitVec.ofNat 32 (n + acceptedIn b) ∧
    (step.notified = true ↔ Notifies (n, b)) := by
  have hpkt : step.state.pktRec = BitVec.ofNat 32 (n + acceptedIn b) := by
    rw [h.count, hcount, BitVec.ofNat_add]
  refine ⟨hpkt, ?_⟩
  rw [notified_iff_completes h, hpkt, completes_ofNat, Notifies]

theorem notified_of_sinkRun {process : PktM σ (Option Bool)} (hcounts : Counts process)
    {notify : PktM σ Unit} {run : List (TxBurst × Burst)} {steps : List (SinkStep σ)}
    {s : SinkState σ} {n : ℕ} (hcount : s.pktRec = BitVec.ofNat 32 n)
    (h : sinkRun process notify s run = some steps) :
    List.Forall₂ (fun step x => step.notified = true ↔ Notifies x) steps
      (withCounts n (run.map Prod.snd)) := by
  induction run generalizing s n steps with
  | nil =>
    obtain rfl := Option.some.inj h
    exact List.Forall₂.nil
  | cons x run ih =>
    rw [sinkRun] at h
    obtain ⟨step, hstep, h⟩ := Option.bind_eq_some_iff.mp h
    obtain ⟨steps', hsteps, h⟩ := Option.bind_eq_some_iff.mp h
    obtain rfl := Option.some.inj h
    obtain ⟨hpkt, hnotified⟩ := notified_iff (turn_of_sinkBurst hcounts hstep) hcount
    exact List.Forall₂.cons hnotified (ih hpkt hsteps)

theorem countP_crosses (n : ℕ) (bs : List Burst) :
    (withCounts n bs).countP (Crosses ·) = (n + acceptedTotal bs) / nrMsgs - n / nrMsgs := by
  induction bs generalizing n with
  | nil => simp [withCounts, acceptedTotal]
  | cons b bs ih =>
    have hle := acceptedIn_le b
    have htotal : acceptedTotal (b :: bs) = acceptedIn b + acceptedTotal bs := by
      rw [acceptedTotal, List.map_cons, List.sum_cons, acceptedTotal]
    rw [withCounts, List.countP_cons, ih, htotal, ← Nat.add_assoc]
    by_cases hcross : Crosses (n, b)
    · rw [if_pos (decide_eq_true hcross)]
      simp only [Crosses, nrMsgs, miB, totSizeB, burstSize] at hcross hle ⊢
      omega
    · rw [if_neg (by simpa using hcross)]
      simp only [Crosses, nrMsgs, miB, totSizeB] at hcross ⊢
      omega

/-- The notification test is right for a burst exactly when the burst lands. -/
theorem notifies_iff_crosses (x : ℕ × Burst) : (Notifies x ↔ Crosses x) ↔ Lands x := by
  have hle := acceptedIn_le x.2
  simp only [Notifies, Crosses, Lands, nrMsgs, miB, totSizeB, burstSize] at hle ⊢
  rcases eq_or_ne x.2.bufs [] with hbufs | hbufs
  · have hzero := acceptedIn_of_nil hbufs
    simp [hbufs, hzero]
  · simp only [ne_eq, hbufs, not_false_eq_true, true_and, forall_true_left]
    omega

section Steps

variable {steps : List (SinkStep σ)} {xs : List (ℕ × Burst)}

theorem countP_notified
    (h : List.Forall₂ (fun step x => step.notified = true ↔ Notifies x) steps xs) :
    steps.countP SinkStep.notified = xs.countP (Notifies ·) := by
  induction h with
  | nil => rfl
  | cons hstep _ ih =>
    rw [List.countP_cons, List.countP_cons, ih]
    simp only [hstep, decide_eq_true_eq]

theorem forall₂_crosses_iff
    (h : List.Forall₂ (fun step x => step.notified = true ↔ Notifies x) steps xs) :
    List.Forall₂ (fun step x => step.notified = true → Crosses x) steps xs ↔
      ∀ x ∈ xs, Notifies x → Crosses x := by
  induction h with
  | nil => simp
  | cons hstep _ ih => rw [List.forall₂_cons, List.forall_mem_cons, ih, hstep]

end Steps

theorem notifiesPerMiB_iff {steps : List (SinkStep σ)} {bs : List Burst}
    (h : List.Forall₂ (fun step x => step.notified = true ↔ Notifies x) steps (withCounts 0 bs)) :
    NotifiesPerMiB bs steps ↔ ∀ x ∈ withCounts 0 bs, Lands x := by
  have htotal := countP_crosses 0 bs
  rw [Nat.zero_add, Nat.zero_div, Nat.sub_zero] at htotal
  have hsplit : NotifiesPerMiB bs steps ↔
      (withCounts 0 bs).countP (Notifies ·) = (withCounts 0 bs).countP (Crosses ·) ∧
        ∀ x ∈ withCounts 0 bs, Notifies x → Crosses x := by
    rw [← countP_notified h, ← forall₂_crosses_iff h, htotal]
    exact ⟨fun hper => ⟨hper.count, hper.timing⟩, fun ⟨hcount, htiming⟩ => ⟨hcount, htiming⟩⟩
  have hback : (∀ x ∈ withCounts 0 bs, Notifies x → Crosses x) →
      ((withCounts 0 bs).countP (Notifies ·) = (withCounts 0 bs).countP (Crosses ·) ↔
        ∀ x ∈ withCounts 0 bs, Crosses x → Notifies x) := by
    intro hto
    rw [Lists.countP_eq_iff fun x hx hn => decide_eq_true (hto x hx (of_decide_eq_true hn))]
    simp only [decide_eq_true_eq]
  rw [hsplit]
  constructor
  · rintro ⟨hcount, hto⟩ x hx
    exact (notifies_iff_crosses x).mp ⟨hto x hx, (hback hto).mp hcount x hx⟩
  · intro hlands
    have hiff : ∀ x ∈ withCounts 0 bs, (Notifies x ↔ Crosses x) :=
      fun x hx => (notifies_iff_crosses x).mpr (hlands x hx)
    have hto := fun x hx => (hiff x hx).mp
    exact ⟨(hback hto).mpr fun x hx => (hiff x hx).mpr, hto⟩

/-- A run sends one notification for each multiple of `MiB / TOT_SIZE_B` exactly when no burst
steps over a multiple and none without accepted frames comes while the count stands at one. -/
theorem sinkRun_notifies_iff (rteIpv4UdptcpCksum : Cksum) (app : SinkApp) (store : app.Store)
    (run : List (TxBurst × Burst)) (steps : List (SinkStep app.Store))
    (h : sinkRun app.process (app.notify rteIpv4UdptcpCksum) ⟨0, store⟩ run = some steps) :
    NotifiesPerMiB (run.map Prod.snd) steps ↔
      ∀ x ∈ withCounts 0 (run.map Prod.snd), Lands x :=
  notifiesPerMiB_iff (notified_of_sinkRun (counts_process app) rfl h)

theorem mem_withCounts_replicate {x : ℕ × Burst} {n k : ℕ} {b : Burst}
    (h : x ∈ withCounts n (List.replicate k b)) : x.2 = b := by
  induction k generalizing n with
  | zero => cases h
  | succ k ih =>
    rcases List.mem_cons.mp h with rfl | h
    · rfl
    · exact ih h

theorem lands_of_acceptedIn_eq_one {x : ℕ × Burst} (h : acceptedIn x.2 = 1) : Lands x := by
  unfold Lands Crosses
  simp only [h, nrMsgs, miB, totSizeB]
  omega

/-- The one notification of a MiB that comes among other frames. -/
theorem sinkRun_notifies_iff_mixed : ∃ steps,
    sinkRun (SinkApp.process .aggregate) (SinkApp.notify rteCksum .aggregate) ⟨0, (0 : BitVec 32)⟩
      (List.replicate 1024 (allSent, mixedBurst)) = some steps ∧
    steps.countP SinkStep.notified = 1 := by
  obtain ⟨steps, hsteps⟩ := exists_sinkRun counts_aggregate.2
    (SinkApp.notify rteCksum .aggregate) ⟨0, (0 : BitVec 32)⟩
    (List.replicate 1024 (allSent, mixedBurst))
  have hnotifies := (sinkRun_notifies_iff rteCksum .aggregate (0 : BitVec 32) _ steps hsteps).mpr
  rw [List.map_replicate] at hnotifies
  refine ⟨steps, hsteps, (hnotifies fun x hx => ?_).count.trans ?_⟩
  · apply lands_of_acceptedIn_eq_one
    rw [mem_withCounts_replicate hx, acceptedIn_mixedBurst]
  · rw [acceptedTotal, List.map_replicate, acceptedIn_mixedBurst, List.sum_replicate_nat]
    rfl

def arpBurst : Burst where
  bufs := [⟨1, by decide, arpFrame⟩]
  nodup := by decide
  length_le := by decide

/-- A frame that no program accepts sets off a notification before any other one came. -/
theorem not_sinkRun_notifies_arp : ∃ steps,
    sinkRun (SinkApp.process .aggregate) (SinkApp.notify rteCksum .aggregate) ⟨0, (0 : BitVec 32)⟩
      [(allSent, arpBurst)] = some steps ∧ ¬ NotifiesPerMiB [arpBurst] steps := by
  obtain ⟨steps, hsteps⟩ := exists_sinkRun counts_aggregate.2
    (SinkApp.notify rteCksum .aggregate) ⟨0, (0 : BitVec 32)⟩ [(allSent, arpBurst)]
  refine ⟨steps, hsteps, fun hper => ?_⟩
  have hlands := (notifiesPerMiB_iff (notified_of_sinkRun counts_aggregate.1 rfl hsteps)).mp hper
  have hpos := (hlands (0, arpBurst) List.mem_cons_self).2 (by decide) (by decide)
  exact absurd hpos (by decide)

end PacketBench.Dpdk

import PacketBench.Lists.Decimals
import PacketBench.Xdp.Clocks
import PacketBench.Xdp.Period

/-! # The result file of a timed program

The loader prints a line for each datagram that the program passes on to it. A
frame that completes a period goes back to its sender instead, so there is no
line for the last message of a period. The loader never flushes or closes its
file, and it is killed, so the end of what it printed may be missing.
-/

namespace PacketBench.Xdp

open Bytes PktM

variable {σ : Type}

def passedOn (prog : Instant → Instant → PktM σ Verdict) : σ → List Arrival → List Frame
  | _, [] => []
  | s, a :: arrivals =>
    let out := handleTimed prog s a
    (if out.1 = .pass then [out.2.frame] else []) ++ passedOn prog out.2.store arrivals

/-- The numbers that `poll_stats` prints for the datagrams that it receives. -/
def printed (received : List Frame) : List (BitVec 64) := received.filterMap pollStats

def output (received : List Frame) : List Char :=
  Decimals.printLines ((printed received).map BitVec.toNat)

/-- What the file can hold when the loader is killed: the output as far as it had filled its
buffers. -/
def IsResultFile (received : List Frame) (text : List Char) : Prop := text <+: output received

def period : ℕ := miB / totSizeB

/-- A timed program replies to a frame that it counts or passes it on with the two stamps, and any
other frame it passes on as it is. -/
structure Logs (prog : Instant → Instant → PktM (Counted σ) Verdict) (counts : Frame → Prop)
    (line : Arrival → BitVec 64) : Prop where
  counted : ∀ s a, counts a.frame → (handleTimed prog s a).2.store.rxpkt = s.rxpkt + 1
  replied : ∀ s a, counts a.frame → Completes totSizeB (s.rxpkt + 1) →
    (handleTimed prog s a).1 = .tx
  stamped : ∀ s a, counts a.frame → ¬ Completes totSizeB (s.rxpkt + 1) →
    (handleTimed prog s a).1 = .pass ∧ pollStats (handleTimed prog s a).2.frame = some (line a)
  passed : ∀ s a, ¬ counts a.frame → (handleTimed prog s a).1 = .pass ∧
    (handleTimed prog s a).2.frame = a.frame ∧ (handleTimed prog s a).2.store.rxpkt = s.rxpkt

section Lines

variable {prog : Instant → Instant → PktM (Counted σ) Verdict} {counts : Frame → Prop}
  {line : Arrival → BitVec 64}

theorem printed_append (received later : List Frame) :
    printed (received ++ later) = printed received ++ printed later :=
  List.filterMap_append

theorem rxpkt_succ {s : Counted σ} {k : ℕ} (hs : s.rxpkt = BitVec.ofNat 32 k) :
    s.rxpkt + 1 = BitVec.ofNat 32 (k + 1) := by
  rw [hs, BitVec.ofNat_add]
  rfl

theorem completes_iff {s : Counted σ} {k : ℕ} (hs : s.rxpkt = BitVec.ofNat 32 k) :
    Completes totSizeB (s.rxpkt + 1) ↔ period ∣ k + 1 := by
  have hdvd : totSizeB ∣ miB := by decide
  rw [rxpkt_succ hs]
  exact completes_ofNat hdvd (k + 1)

/-- The lines are those of the counted messages but for the last one of each period. -/
theorem Logs.printed_eq (h : Logs prog counts line) {arrivals : List Arrival}
    (hall : ∀ a ∈ arrivals, counts a.frame) {s : Counted σ} {k : ℕ}
    (hs : s.rxpkt = BitVec.ofNat 32 k) : printed (passedOn prog s arrivals) =
      ((arrivals.zipIdx (k + 1)).filter fun x => ¬ period ∣ x.2).map fun x => line x.1 := by
  induction arrivals generalizing s k with
  | nil => rfl
  | cons a arrivals ih =>
    obtain ⟨ha, hall⟩ := List.forall_mem_cons.mp hall
    have hrest := ih hall ((h.counted s a ha).trans (rxpkt_succ hs))
    rw [passedOn, printed_append, hrest, List.zipIdx_cons]
    by_cases hdone : period ∣ k + 1
    · rw [h.replied s a ha ((completes_iff hs).mpr hdone), List.filter_cons_of_neg (by simpa)]
      rfl
    · obtain ⟨hpass, hline⟩ := h.stamped s a ha (mt (completes_iff hs).mp hdone)
      rw [if_pos hpass, List.filter_cons_of_pos (by simpa), List.map_cons, printed,
        List.filterMap_cons_some hline]
      rfl

theorem Logs.length_head [DecidablePred counts] (h : Logs prog counts line) (a : Arrival)
    {s : Counted σ} {k : ℕ} (hs : s.rxpkt = BitVec.ofNat 32 k) :
    (printed (if (handleTimed prog s a).1 = .pass then [(handleTimed prog s a).2.frame]
      else [])).length =
        if counts a.frame then if period ∣ k + 1 then 0 else 1
        else if (pollStats a.frame).isSome then 1 else 0 := by
  by_cases ha : counts a.frame
  · rw [if_pos ha]
    by_cases hdone : period ∣ k + 1
    · rw [h.replied s a ha ((completes_iff hs).mpr hdone), if_pos hdone]
      rfl
    · obtain ⟨hpass, hline⟩ := h.stamped s a ha (mt (completes_iff hs).mp hdone)
      rw [if_pos hpass, if_neg hdone, printed, List.filterMap_cons_some hline]
      rfl
  · obtain ⟨hpass, hframe, -⟩ := h.passed s a ha
    rw [if_pos hpass, hframe, if_neg ha, printed]
    cases hline : pollStats a.frame with
    | none => rw [List.filterMap_cons_none hline]; rfl
    | some n => rw [List.filterMap_cons_some hline]; rfl

theorem Logs.length_printed [DecidablePred counts] (h : Logs prog counts line)
    (arrivals : List Arrival) {s : Counted σ} {k : ℕ} (hs : s.rxpkt = BitVec.ofNat 32 k) :
    (printed (passedOn prog s arrivals)).length +
        (k + arrivals.countP (counts ·.frame)) / period =
      arrivals.countP (counts ·.frame) + k / period +
        arrivals.countP fun a => ¬ counts a.frame ∧ (pollStats a.frame).isSome := by
  induction arrivals generalizing s k with
  | nil => simp [passedOn, printed]
  | cons a arrivals ih =>
    rw [passedOn, printed_append, List.length_append, h.length_head a hs, List.countP_cons,
      List.countP_cons]
    by_cases ha : counts a.frame
    · have hrest := ih ((h.counted s a ha).trans (rxpkt_succ hs))
      have hindex : k + (arrivals.countP (counts ·.frame) + 1) =
          k + 1 + arrivals.countP (counts ·.frame) := by omega
      have hquotient : (k + 1) / period = k / period + if period ∣ k + 1 then 1 else 0 :=
        Nat.succ_div
      simp only [ha, decide_true, if_true, not_true_eq_false, false_and, decide_false,
        Bool.false_eq_true, if_false, hindex]
      split_ifs at hquotient ⊢ <;> omega
    · have hrest := ih ((h.passed s a ha).2.2.trans hs)
      simp only [ha, decide_false, Bool.false_eq_true, if_false, not_false_eq_true, true_and,
        decide_eq_true_eq, Nat.add_zero]
      omega

end Lines

section CountPackets

variable {counts : Frame → Prop} {work : ℕ → ℕ → BitVec 32 → PktM (Counted σ) Bool}
  {notify : ℕ → ℕ → PktM (Counted σ) Unit}
  {rest : BitVec 64 → BitVec 64 → ℕ → ℕ → ℕ → PktM (Counted σ) Verdict}

/-- The rest of a program stamps the frame and passes it on. -/
def StampsAndPasses (rest : BitVec 64 → BitVec 64 → ℕ → ℕ → ℕ → PktM (Counted σ) Verdict) : Prop :=
  ∀ first second f m s, Takes totSizeB f → (∀ a < 42, m a = f.mem a) →
    ∃ m', (rest first second 14 34 42).Yields ⟨f.len, m⟩ s .pass m' s ∧
      Stamped first second f ⟨f.len, m'⟩

theorem stampsAndPasses_stampAndPass :
    StampsAndPasses (stampAndPass : _ → _ → _ → _ → _ → PktM (Counted σ) Verdict) :=
  fun first second _ _ _ h hm => ⟨_, yields_stampAndPass h first second, stamped_of_pass hm⟩

theorem stampsAndPasses_stampAndRefresh :
    StampsAndPasses (stampAndRefresh : _ → _ → _ → _ → _ → PktM (Counted σ) Verdict) :=
  fun first second _ _ _ h hm => ⟨_, yields_stampAndRefresh h first second, stamped_of_refresh hm⟩

theorem pollStats_of_stamped {first second : BitVec 64} {f f' : Frame} (h : Takes totSizeB f)
    (hst : Stamped first second f f') : pollStats f' = some (second - first) := by
  have hlen : f'.udpLength.toNat = sizeofUdphdr + totSizeB := hst.udpLength ▸ h.2.1
  simp only [pollStats, hlen, hst.first, hst.second]
  rfl

/-- A counted frame ends a period and is sent back, or it is stamped and passed on. -/
theorem exists_yields_of_counted (first second : BitVec 64) {f : Frame} {s : Counted σ}
    (h : Takes totSizeB f)
    (hwork : ∃ d m, (∀ a < 42, m a = f.mem a) ∧
      (work 14 42 (BitVec.ofNat 32 totSizeB)).Yields f s true m { s with data := d })
    (hnotify : ∀ m (s : Counted σ), ∃ m', (notify 14 34).Yields ⟨f.len, m⟩ s () m' s)
    (hrest : StampsAndPasses rest) :
    ∃ v m d, (countPackets totSizeB work notify (rest first second)).Yields f s v m
        ⟨s.rxpkt + 1, d⟩ ∧
      (Completes totSizeB (s.rxpkt + 1) → v = .tx) ∧
      (¬ Completes totSizeB (s.rxpkt + 1) → v = .pass ∧
        Stamped first second f ⟨f.len, m⟩) := by
  have hlt : totSizeB < 2 ^ 31 := by decide
  obtain ⟨d, m, hm, hwork⟩ := hwork
  by_cases hdone : Completes totSizeB (s.rxpkt + 1)
  · obtain ⟨m', hm'⟩ := hnotify (swapHeaders m) ⟨s.rxpkt + 1, d⟩
    exact ⟨_, _, d, yields_countPackets_notify hlt h hwork hdone hm', fun _ => rfl,
      fun hnot => absurd hdone hnot⟩
  · obtain ⟨m', hm', hst⟩ := hrest first second f m ⟨s.rxpkt + 1, d⟩ h hm
    exact ⟨_, _, d, yields_countPackets_rest hlt h hwork hdone hm',
      fun hc => absurd hc hdone, fun _ => ⟨rfl, hst⟩⟩

theorem logs_countPackets (first second : Instant → BitVec 64)
    (htakes : ∀ f, counts f → Takes totSizeB f)
    (hgood : ∀ s f, counts f → ∃ d m, (∀ a < 42, m a = f.mem a) ∧
      (work 14 42 (BitVec.ofNat 32 totSizeB)).Yields f s true m { s with data := d })
    (hbad : ∀ s f, Takes totSizeB f → ¬ counts f → ∃ d,
      (work 14 42 (BitVec.ofNat 32 totSizeB)).Yields f s false f.mem { s with data := d })
    (hnotify : ∀ f, Takes totSizeB f → ∀ m (s : Counted σ), ∃ m',
      (notify 14 34).Yields ⟨f.len, m⟩ s () m' s) (hrest : StampsAndPasses rest) :
    Logs (fun received processed => countPackets totSizeB work notify
      (rest (first received) (second processed))) counts
      fun a => second a.processed - first a.received := by
  have hlt : totSizeB < 2 ^ 31 := by decide
  have hcase := fun (s : Counted σ) (a : Arrival) (ha : counts a.frame) =>
    exists_yields_of_counted (first a.received) (second a.processed) (htakes _ ha) (hgood s _ ha)
      (hnotify _ (htakes _ ha)) hrest
  constructor
  · intro s a ha
    obtain ⟨v, m, d, hyields, -⟩ := hcase s a ha
    exact congrArg Counted.rxpkt hyields.exec_start.2.2.1
  · intro s a ha hdone
    obtain ⟨v, m, d, hyields, hreply, -⟩ := hcase s a ha
    exact hyields.exec_start.1.trans (hreply hdone)
  · intro s a ha hdone
    obtain ⟨v, m, d, hyields, -, hpass⟩ := hcase s a ha
    obtain ⟨rfl, hst⟩ := hpass hdone
    refine ⟨hyields.exec_start.1, ?_⟩
    rw [handleTimed, handle, hyields.exec_start.2.1]
    exact pollStats_of_stamped (htakes a.frame ha) hst
  · intro s a ha
    have hleft : ∃ d, (countPackets totSizeB work notify
        (rest (first a.received) (second a.processed))).Yields a.frame s .pass a.frame.mem
          { s with data := d } := by
      by_cases htaken : Takes totSizeB a.frame
      · obtain ⟨d, hwork⟩ := hbad s a.frame htaken ha
        exact ⟨d, yields_countPackets_of_false hlt htaken hwork⟩
      · exact ⟨s.data, yields_countPackets_of_not hlt htaken⟩
    obtain ⟨d, hyields⟩ := hleft
    obtain ⟨hv, hf, hs, -⟩ := hyields.exec_start
    have hcount := congrArg Counted.rxpkt hs
    exact ⟨hv, hf, hcount⟩

end CountPackets

def elapsed (first second : Instant → BitVec 64) (a : Arrival) : BitVec 64 :=
  second a.processed - first a.received

def CountsBins (f : Frame) : Prop := Takes totSizeB f ∧ ∀ w ∈ payloadWords totSizeB f, Admits w

instance : DecidablePred CountsBins := fun f =>
  inferInstanceAs (Decidable (Takes totSizeB f ∧ ∀ w ∈ payloadWords totSizeB f, Admits w))

section Programs

variable {work : ℕ → ℕ → BitVec 32 → PktM (Counted σ) Bool}
  {notify : ℕ → ℕ → PktM (Counted σ) Unit}
  {rest : BitVec 64 → BitVec 64 → ℕ → ℕ → ℕ → PktM (Counted σ) Verdict}

theorem logs_of_takes (first second : Instant → BitVec 64)
    (hwork : ∀ s f, Takes totSizeB f → ∃ d m, (∀ a < 42, m a = f.mem a) ∧
      (work 14 42 (BitVec.ofNat 32 totSizeB)).Yields f s true m { s with data := d })
    (hnotify : ∀ f, Takes totSizeB f → ∀ m (s : Counted σ), ∃ m',
      (notify 14 34).Yields ⟨f.len, m⟩ s () m' s) (hrest : StampsAndPasses rest) :
    Logs (fun received processed => countPackets totSizeB work notify
      (rest (first received) (second processed))) (Takes totSizeB) (elapsed first second) :=
  logs_countPackets first second (fun _ h => h) hwork (fun _ _ h hnot => absurd h hnot) hnotify
    hrest

theorem asIs_yields (f : Frame) (_ : Takes totSizeB f) (m : Mem) (s : Counted σ) :
    ∃ m', (asIs 14 34).Yields ⟨f.len, m⟩ s () m' s := ⟨m, yields_pure ()⟩

theorem logs_aggregate : Logs (aggregate totSizeB) (Takes totSizeB)
    (elapsed Instant.ktimeBootNs Instant.ktimeBootNs) :=
  logs_of_takes _ _
    (fun s _ h => ⟨_, _, fun _ _ => rfl, yields_aggregateWork (by decide) h s⟩) asIs_yields
    stampsAndPasses_stampAndRefresh

theorem logs_reduce : Logs (reduce totSizeB) (Takes totSizeB)
    (elapsed Instant.ktimeNs Instant.ktimeNs) :=
  logs_of_takes _ _
    (fun s _ h => ⟨_, _, fun _ _ => rfl, yields_reduceWork (by decide) h s⟩) asIs_yields
    stampsAndPasses_stampAndPass

theorem logs_filter (H : FilterHash) : Logs (filter totSizeB · · H) (Takes totSizeB)
    (elapsed Instant.ktimeNs Instant.ktimeBootNs) :=
  logs_of_takes _ _
    (fun s _ h => ⟨_, _, fun _ _ => rfl, yields_filterWork (by decide) h s⟩) asIs_yields
    stampsAndPasses_stampAndPass

theorem logs_copyToHost : Logs (copyToHost totSizeB) (Takes totSizeB)
    (elapsed Instant.ktimeNs Instant.ktimeNs) :=
  logs_of_takes _ _
    (fun s _ h => ⟨_, _, fun _ _ => rfl, yields_copyToHostWork (by decide) h s⟩) asIs_yields
    stampsAndPasses_stampAndRefresh

theorem logs_copyFromHost : Logs (copyFromHost totSizeB) (Takes totSizeB)
    (elapsed Instant.ktimeNs Instant.ktimeNs) := by
  apply logs_of_takes
  · intro s f h
    exact ⟨_, _, fun a ha => hostWritten_apply_of_lt s.data f.mem _ ha,
      yields_copyFromHostWork (by decide) h s⟩
  · intro f h m s
    exact ⟨_, yields_refreshCheck h.1.1⟩
  · exact stampsAndPasses_stampAndRefresh

theorem logs_histogram : Logs (histogram totSizeB) CountsBins
    (elapsed Instant.ktimeNs Instant.ktimeBootNs) := by
  apply logs_countPackets
  · exact fun f h => h.1
  · intro s f h
    exact ⟨_, _, fun _ _ => rfl, yields_histogramWork_of_admits (by decide) h.1 h.2 s⟩
  · intro s f h hnot
    have hwords : ¬ ∀ w ∈ payloadWords totSizeB f, Admits w := fun hw => hnot ⟨h, hw⟩
    exact ⟨_, yields_histogramWork_of_not (by decide) h hwords s⟩
  · exact asIs_yields
  · exact stampsAndPasses_stampAndRefresh

end Programs

end PacketBench.Xdp

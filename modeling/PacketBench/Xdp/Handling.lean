import PacketBench.Xdp.Counting

/-! # Counting frame by frame

`aggregate`, `reduce` and `copy_to_host` count every frame they take, fold its
words into their maps and reply when the count completes a period. A run over
many frames therefore folds the taken frames and counts them.
-/

namespace PacketBench.Xdp

open Bytes PktM

variable {σ : Type} {tot : ℕ} {prog : PktM (Counted σ) Verdict} {g : σ → Frame → σ}

/-- What a program does to its maps and its verdict, where `g` folds a frame into the data. -/
structure CountsWith (tot : ℕ) (prog : PktM (Counted σ) Verdict) (g : σ → Frame → σ) : Prop where
  taken : ∀ s f, Takes tot f → (handle prog s f).2.store = ⟨s.rxpkt + 1, g s.data f⟩
  rejected : ∀ s f, ¬ Takes tot f → (handle prog s f).2.store = s
  verdict : ∀ s f, (handle prog s f).1 = .tx ↔ Takes tot f ∧ Completes tot (s.rxpkt + 1)

theorem add_one_ne_self (n : BitVec 32) : n + 1 ≠ n :=
  fun h => absurd (add_eq_left.mp h) (by decide)

section CountPackets

variable {work : ℕ → ℕ → BitVec 32 → PktM (Counted σ) Bool}
  {rest : ℕ → ℕ → ℕ → PktM (Counted σ) Verdict}

theorem countsWith_countPackets (htot : tot < 2 ^ 31)
    (hwork : ∀ s f, Takes tot f → (work 14 42 (BitVec.ofNat 32 tot)).Yields f s true f.mem
      { s with data := g s.data f })
    (hrest : ∀ f t, IsUdp f → ∃ v m, v ≠ .tx ∧ (rest 14 34 42).Yields f t v m t) :
    CountsWith tot (countPackets tot work asIs rest) g := by
  have hdone : ∀ s f, Takes tot f → Completes tot (s.rxpkt + 1) →
      (countPackets tot work asIs rest).Yields f s .tx (swapHeaders f.mem)
        ⟨s.rxpkt + 1, g s.data f⟩ := fun s f h hdone =>
    yields_countPackets_notify htot h (hwork s f h) hdone (yields_pure ())
  have hgo : ∀ s f, Takes tot f → ¬ Completes tot (s.rxpkt + 1) → ∃ v m, v ≠ .tx ∧
      (countPackets tot work asIs rest).Yields f s v m ⟨s.rxpkt + 1, g s.data f⟩ := by
    intro s f h hn
    obtain ⟨v, m, hv, hyields⟩ := hrest f ⟨s.rxpkt + 1, g s.data f⟩ h.1
    exact ⟨v, m, hv, yields_countPackets_rest htot h (hwork s f h) hn hyields⟩
  have hnot : ∀ s f, ¬ Takes tot f → (countPackets tot work asIs rest).Yields f s .pass f.mem s :=
    fun s f h => yields_countPackets_of_not htot h
  refine ⟨fun s f h => ?_, fun s f h => (hnot s f h).exec_start.2.2.1, fun s f => ?_⟩
  · by_cases hc : Completes tot (s.rxpkt + 1)
    · exact (hdone s f h hc).exec_start.2.2.1
    · obtain ⟨v, m, -, hyields⟩ := hgo s f h hc
      exact hyields.exec_start.2.2.1
  · by_cases h : Takes tot f
    · by_cases hc : Completes tot (s.rxpkt + 1)
      · exact iff_of_true (hdone s f h hc).exec_start.1 ⟨h, hc⟩
      · obtain ⟨v, m, hv, hyields⟩ := hgo s f h hc
        exact iff_of_false (hyields.exec_start.1.trans_ne hv) fun hd => hc hd.2
    · exact iff_of_false ((hnot s f h).exec_start.1.trans_ne (by decide)) fun hd => h hd.1

theorem ne_tx_of_leave {v : Verdict} (hv : v ≠ .tx) (f : Frame) (t : Counted σ) (_ : IsUdp f) :
    ∃ v' m, v' ≠ .tx ∧ (leave v 14 34 42 : PktM (Counted σ) _).Yields f t v' m t :=
  ⟨v, f.mem, hv, yields_pure v⟩

theorem ne_tx_of_stamp {first second : BitVec 64} {finish : PktM (Counted σ) Verdict}
    {f : Frame} {t : Counted σ} {m : Mem}
    (h : finish.Yields ⟨f.len, stamped first second f.mem⟩ t .pass m t) :
    ∃ v m, v ≠ .tx ∧ (stamp 42 first second finish).Yields f t v m t := by
  by_cases hlen : 58 ≤ f.len
  · exact ⟨.pass, m, by decide, yields_stamp hlen h⟩
  · exact ⟨.pass, f.mem, by decide, yields_stamp_of_short hlen⟩

theorem ne_tx_of_stampAndPass (first second : BitVec 64) (f : Frame) (t : Counted σ)
    (_ : IsUdp f) : ∃ v m, v ≠ .tx ∧
      (stampAndPass first second 14 34 42 : PktM (Counted σ) _).Yields f t v m t :=
  ne_tx_of_stamp (yields_pure _)

theorem ne_tx_of_stampAndRefresh (first second : BitVec 64) (f : Frame) (t : Counted σ)
    (h : IsUdp f) : ∃ v m, v ≠ .tx ∧
      (stampAndRefresh first second 14 34 42 : PktM (Counted σ) _).Yields f t v m t :=
  ne_tx_of_stamp (yields_refresh h.1)

end CountPackets

section Programs

variable (htot : tot < 2 ^ 31) (arrival processed : Instant)

def addWords (tot : ℕ) (rxaggr : BitVec 32) (f : Frame) : BitVec 32 :=
  rxaggr + f.wordsSum (tot / dataSizeB)

def addEach (tot : ℕ) (rxred : ArrayMap) (f : Frame) : ArrayMap :=
  f.combine (· + ·) rxred (tot / dataSizeB)

def copyEach (tot : ℕ) (rxcptoh : ArrayMap) (f : Frame) : ArrayMap :=
  f.combine (fun _ w => w) rxcptoh (tot / dataSizeB)

def copyMatching (H : FilterHash) (tot : ℕ) (maps : FilterMaps H) (f : Frame) : FilterMaps H :=
  if Matches H maps f then maps.copied f (tot / dataSizeB) else maps

include htot

theorem countsWith_aggregate : CountsWith tot (aggregate tot arrival processed) (addWords tot) :=
  countsWith_countPackets htot (fun s _ h => yields_aggregateWork htot h s)
    (ne_tx_of_stampAndRefresh _ _)

theorem countsWith_aggregateNoT : CountsWith tot (aggregateNoT tot) (addWords tot) :=
  countsWith_countPackets htot (fun s _ h => yields_aggregateWork htot h s)
    (ne_tx_of_leave (by decide))

theorem countsWith_reduce : CountsWith tot (reduce tot arrival processed) (addEach tot) :=
  countsWith_countPackets htot (fun s _ h => yields_reduceWork htot h s)
    (ne_tx_of_stampAndPass _ _)

theorem countsWith_reduceNoT : CountsWith tot (reduceNoT tot) (addEach tot) :=
  countsWith_countPackets htot (fun s _ h => yields_reduceWork htot h s)
    (ne_tx_of_leave (by decide))

theorem countsWith_filter (H : FilterHash) :
    CountsWith tot (filter tot arrival processed H) (copyMatching H tot) :=
  countsWith_countPackets htot (fun s _ h => yields_filterWork htot h s)
    (ne_tx_of_stampAndPass _ _)

theorem countsWith_filterNoT (H : FilterHash) :
    CountsWith tot (filterNoT tot H) (copyMatching H tot) :=
  countsWith_countPackets htot (fun s _ h => yields_filterWork htot h s)
    (ne_tx_of_leave (by decide))

theorem countsWith_copyToHost : CountsWith tot (copyToHost tot arrival processed) (copyEach tot) :=
  countsWith_countPackets htot (fun s _ h => yields_copyToHostWork htot h s)
    (ne_tx_of_stampAndRefresh _ _)

theorem countsWith_copyToHostNoT : CountsWith tot (copyToHostNoT tot) (copyEach tot) :=
  countsWith_countPackets htot (fun s _ h => yields_copyToHostWork htot h s)
    (ne_tx_of_leave (by decide))

end Programs

end PacketBench.Xdp

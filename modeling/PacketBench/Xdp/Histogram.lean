import PacketBench.Frame.Requests
import PacketBench.Xdp.Period
import PacketBench.Xdp.Variants

/-! # The histogram

`histogram` tests and counts word by word: the range test lets the value
`HISTOG_NR` through, for which `rxhist` has no entry, and the words before the
first one out of range are counted although the frame is then rejected.
-/

namespace PacketBench.Xdp

open PktM

variable {tot : ℕ} {f : Frame} {s : Counted ArrayMap} {words : List (BitVec 32)}

theorem admits_iff {word : BitVec 32} : Admits word ↔ word.toNat ≤ histogNr := by
  have hword := word.isLt
  unfold Admits
  rw [BitVec.toInt_eq_toNat_cond, histogNr]
  split_ifs <;> omega

theorem admittedKeys_of_admits (h : ∀ w ∈ words, Admits w) :
    admittedKeys words = words.map BitVec.toNat := by
  induction words with
  | nil => rfl
  | cons word words ih =>
    obtain ⟨hword, hwords⟩ := List.forall_mem_cons.mp h
    rw [admittedKeys_cons hword, ih hwords, List.map_cons]

theorem length_payloadWords (tot : ℕ) (f : Frame) :
    (payloadWords tot f).length = tot / dataSizeB := by
  unfold payloadWords
  rw [List.length_map, List.length_range]

theorem payloadWords_requestFrame (flag key val : BitVec 32) :
    payloadWords totSizeB (requestFrame flag key val) =
      flag :: key :: val :: List.replicate 253 0 := by
  have hrest : (List.range' 3 253).map (requestFrame flag key val).word = List.replicate 253 0 := by
    refine List.eq_replicate_iff.mpr ⟨by rw [List.length_map, List.length_range'], fun w hw => ?_⟩
    obtain ⟨i, hi, rfl⟩ := List.mem_map.mp hw
    exact word_requestFrame_of_le _ _ _ (List.mem_range'_1.mp hi).1
  have hrange : List.range (totSizeB / dataSizeB) = 0 :: 1 :: 2 :: List.range' 3 253 :=
    List.range_eq_range'
  rw [payloadWords, hrange, List.map_cons, List.map_cons, List.map_cons, hrest,
    word_zero_requestFrame, word_one_requestFrame, word_two_requestFrame]

theorem store_histogramNoT_of_not (htot : tot < 2 ^ 31) (h : ¬ Takes tot f) :
    (handle (histogramNoT tot) s f).2.store = s :=
  (yields_countPackets_of_not htot h).exec_start.2.2.1

theorem store_histogramNoT (htot : tot < 2 ^ 31) (h : Takes tot f)
    (hw : ∀ w ∈ payloadWords tot f, Admits w) : (handle (histogramNoT tot) s f).2.store =
      ⟨s.rxpkt + 1, countAdmitted s.data (payloadWords tot f)⟩ := by
  have hwork := yields_histogramWork htot h s
  rw [List.all_eq_true.mpr fun w hmem => decide_eq_true (hw w hmem)] at hwork
  by_cases hdone : Completes tot (s.rxpkt + 1)
  · exact (yields_countPackets_notify htot h hwork hdone (yields_pure ())).exec_start.2.2.1
  · exact (yields_countPackets_rest htot h hwork hdone (yields_pure Verdict.pass)).exec_start.2.2.1

/-- The exit of both variants at the first word out of range. -/
theorem handle_of_not_admits (rest : ℕ → ℕ → ℕ → PktM (Counted ArrayMap) Verdict)
    (htot : tot < 2 ^ 31) (h : Takes tot f) (hw : ∃ w ∈ payloadWords tot f, ¬ Admits w) :
    (handle (countPackets tot histogramWork asIs rest) s f).1 = .pass ∧
    (handle (countPackets tot histogramWork asIs rest) s f).2.store =
      { s with data := countAdmitted s.data (payloadWords tot f) } := by
  obtain ⟨w, hmem, hbad⟩ := hw
  have hfalse : (payloadWords tot f).all (Admits ·) = false :=
    List.all_eq_false.mpr ⟨w, hmem, by simpa using hbad⟩
  have hwork := yields_histogramWork htot h s
  rw [hfalse] at hwork
  have hrun : (countPackets tot histogramWork asIs rest).Yields f s .pass f.mem _ :=
    yields_countPackets_of_false htot h hwork
  exact ⟨hrun.exec_start.1, hrun.exec_start.2.2.1⟩

def takenWords (tot : ℕ) (frames : List Frame) : List (BitVec 32) :=
  (frames.filter (Takes tot ·)).flatMap (payloadWords tot)

theorem takenWords_cons (f : Frame) (frames : List Frame) : takenWords tot (f :: frames) =
    (if Takes tot f then payloadWords tot f else []) ++ takenWords tot frames := by
  unfold takenWords
  by_cases h : Takes tot f
  · rw [List.filter_cons, if_pos (decide_eq_true h), List.flatMap_cons, if_pos h]
  · rw [List.filter_cons, if_neg (by simpa using h), if_neg h, List.nil_append]

theorem takenWords_requestFrame (flag key val : BitVec 32) :
    takenWords totSizeB [requestFrame flag key val] =
      flag :: key :: val :: List.replicate 253 0 := by
  rw [takenWords_cons, if_pos (takes_requestFrame flag key val), payloadWords_requestFrame]
  exact List.append_nil _

theorem length_takenWords (tot : ℕ) (frames : List Frame) :
    (takenWords tot frames).length = tot / dataSizeB * frames.countP (Takes tot ·) := by
  induction frames with
  | nil => rfl
  | cons f frames ih =>
    rw [takenWords_cons, List.length_append, ih, List.countP_cons]
    by_cases h : Takes tot f
    · rw [if_pos h, if_pos (decide_eq_true h), length_payloadWords]
      ring
    · rw [if_neg h, if_neg (by simpa using h)]
      simp

theorem storeAfter_histogramNoT (htot : tot < 2 ^ 31) {frames : List Frame}
    (hw : ∀ w ∈ takenWords tot frames, Admits w) (s : Counted ArrayMap) :
    storeAfter (histogramNoT tot) s frames =
      ⟨s.rxpkt + BitVec.ofNat 32 (frames.countP (Takes tot ·)),
        Lists.tally histogNr s.data ((takenWords tot frames).map BitVec.toNat)⟩ := by
  induction frames generalizing s with
  | nil => simp [storeAfter, takenWords]
  | cons f frames ih =>
    rw [takenWords_cons] at hw ⊢
    obtain ⟨hf, hframes⟩ := List.forall_mem_append.mp hw
    rw [storeAfter, List.foldl_cons, ← storeAfter, ih hframes, List.countP_cons]
    by_cases h : Takes tot f
    · rw [if_pos h] at hf ⊢
      rw [store_histogramNoT htot h hf, if_pos (decide_eq_true h), countAdmitted,
        admittedKeys_of_admits hf, List.map_append, Lists.tally_append, BitVec.ofNat_add,
        BitVec.add_assoc, BitVec.add_comm 1]
      rfl
    · rw [if_neg h, store_histogramNoT_of_not htot h, if_neg (by simpa using h)]
      rfl

/-- The bins hold the number of words of each admitted value, and together all words. -/
structure CountsWords (s : Counted ArrayMap) (words : List (BitVec 32)) : Prop where
  bins : ∀ v : BitVec 32, Admits v → s.data v.toNat = BitVec.ofNat 32 (words.count v)
  total : ∑ v ∈ Finset.range histogNr, s.data v = BitVec.ofNat 32 dataNr * s.rxpkt

theorem count_map_toNat (words : List (BitVec 32)) (v : BitVec 32) :
    (words.map BitVec.toNat).count v.toNat = words.count v :=
  List.count_map_of_injective words BitVec.toNat (fun _ _ h => BitVec.eq_of_toNat_eq h) v

/-- Of the admitted words only those that equal `HISTOG_NR` find no bin. -/
theorem countP_add_count (h : ∀ w ∈ words, Admits w) :
    (words.map BitVec.toNat).countP (· < histogNr) + words.count (BitVec.ofNat 32 histogNr) =
      words.length := by
  induction words with
  | nil => rfl
  | cons word words ih =>
    obtain ⟨hword, hwords⟩ := List.forall_mem_cons.mp h
    have hle := admits_iff.mp hword
    have heq : word = BitVec.ofNat 32 histogNr ↔ word.toNat = histogNr := by
      rw [← BitVec.toNat_inj, BitVec.toNat_ofNat, histogNr]
    rw [List.map_cons, List.countP_cons, List.count_cons, List.length_cons, ← ih hwords]
    by_cases hlt : word.toNat < histogNr
    · have hne : ¬ word = BitVec.ofNat 32 histogNr := fun h => hlt.ne (heq.mp h)
      rw [if_pos (decide_eq_true hlt), if_neg (by simpa using hne)]
      omega
    · have hlast : word = BitVec.ofNat 32 histogNr :=
        heq.mpr (le_antisymm hle (Nat.le_of_not_lt hlt))
      rw [if_neg fun h => hlt (of_decide_eq_true h), if_pos (by simpa using hlast)]
      omega

theorem ofNat_eq_zero_iff (n : ℕ) : BitVec.ofNat 32 n = 0 ↔ 2 ^ 32 ∣ n := by
  rw [← BitVec.toNat_inj, BitVec.toNat_ofNat, Nat.dvd_iff_mod_eq_zero]
  rfl

theorem countsWords_iff {nr : ℕ} (h : ∀ w ∈ words, Admits w) (hlen : words.length = dataNr * nr) :
    CountsWords ⟨BitVec.ofNat 32 nr,
        Lists.tally histogNr (fun _ => 0) (words.map BitVec.toNat)⟩ words ↔
      2 ^ 32 ∣ words.count (BitVec.ofNat 32 histogNr) := by
  have hlast : (BitVec.ofNat 32 histogNr).toNat = histogNr := rfl
  rw [← ofNat_eq_zero_iff]
  constructor
  · rintro ⟨hbins, -⟩
    rw [← hbins _ (admits_iff.mpr hlast.le), hlast]
    exact Lists.tally_apply_of_le _ _ le_rfl
  · intro hzero
    constructor
    · intro v hv
      rcases (admits_iff.mp hv).lt_or_eq with hlt | heq
      · refine (Lists.tally_apply_of_lt _ _ hlt).trans ?_
        rw [count_map_toNat, BitVec.natCast_eq_ofNat, zero_add]
      · obtain rfl : v = BitVec.ofNat 32 histogNr := BitVec.eq_of_toNat_eq (heq.trans hlast.symm)
        rw [hzero, hlast]
        exact Lists.tally_apply_of_le _ _ le_rfl
    · rw [Lists.sum_tally, Finset.sum_const_zero, zero_add, BitVec.natCast_eq_ofNat,
        ← BitVec.ofNat_mul, ← hlen, ← countP_add_count h, BitVec.ofNat_add, hzero, add_zero]

theorem countsWords_histogramNoT_iff {frames : List Frame}
    (h : ∀ w ∈ takenWords totSizeB frames, Admits w) :
    CountsWords (storeAfter (histogramNoT totSizeB) ⟨0, fun _ => 0⟩ frames)
        (takenWords totSizeB frames) ↔
      2 ^ 32 ∣ (takenWords totSizeB frames).count (BitVec.ofNat 32 histogNr) := by
  rw [storeAfter_histogramNoT (by decide) h, zero_add]
  exact countsWords_iff h (length_takenWords totSizeB frames)

theorem alike_histogram (tot : ℕ) (arrival processed : Instant) :
    Alike (histogram tot arrival processed) (histogramNoT tot) :=
  alike_countPackets _ _ (quiet_stampAndRefresh _ _) (quiet_leave (by decide))

/-- No word is dropped exactly when the words that equal `HISTOG_NR` wrap around to none. -/
theorem histogram_counts_iff (arrivals : List Arrival)
    (h : ∀ w ∈ takenWords totSizeB (arrivals.map Arrival.frame), Admits w) :
    (CountsWords (storeAfterTimed (histogram totSizeB) ⟨0, fun _ => 0⟩ arrivals)
        (takenWords totSizeB (arrivals.map Arrival.frame)) ↔
      2 ^ 32 ∣ (takenWords totSizeB (arrivals.map Arrival.frame)).count
        (BitVec.ofNat 32 histogNr)) ∧
    (CountsWords (storeAfter (histogramNoT totSizeB) ⟨0, fun _ => 0⟩
        (arrivals.map Arrival.frame)) (takenWords totSizeB (arrivals.map Arrival.frame)) ↔
      2 ^ 32 ∣ (takenWords totSizeB (arrivals.map Arrival.frame)).count
        (BitVec.ofNat 32 histogNr)) := by
  rw [storeAfterTimed_eq (alike_histogram totSizeB)]
  exact ⟨countsWords_histogramNoT_iff h, countsWords_histogramNoT_iff h⟩

theorem admits_takenWords_requestFrame {flag key val : BitVec 32} (hflag : Admits flag)
    (hkey : Admits key) (hval : Admits val) :
    ∀ w ∈ takenWords totSizeB [requestFrame flag key val], Admits w := by
  rw [takenWords_requestFrame]
  rintro w (_ | ⟨_, _ | ⟨_, _ | ⟨_, hw⟩⟩⟩)
  · exact hflag
  · exact hkey
  · exact hval
  · obtain rfl := List.eq_of_mem_replicate hw
    decide

theorem histogram_counts_iff_requestFrame :
    CountsWords (storeAfterTimed (histogram totSizeB) ⟨0, fun _ => 0⟩
      [⟨requestFrame 1 7 42, ⟨0, 0⟩, ⟨0, 0⟩⟩]) (takenWords totSizeB [requestFrame 1 7 42]) := by
  refine (histogram_counts_iff [⟨requestFrame 1 7 42, ⟨0, 0⟩, ⟨0, 0⟩⟩]
    (admits_takenWords_requestFrame (by decide) (by decide) (by decide))).1.mpr ?_
  rw [List.map_singleton, takenWords_requestFrame, List.count_cons_of_ne (by decide),
    List.count_cons_of_ne (by decide), List.count_cons_of_ne (by decide), List.count_replicate]
  decide

/-- The frame with the key `HISTOG_NR` is taken and counted, but the word is dropped. -/
theorem not_histogram_counts_last :
    (∀ w ∈ takenWords totSizeB [requestFrame 1 1024 42], Admits w) ∧
    ¬ CountsWords (storeAfterTimed (histogram totSizeB) ⟨0, fun _ => 0⟩
        [⟨requestFrame 1 1024 42, ⟨0, 0⟩, ⟨0, 0⟩⟩])
      (takenWords totSizeB [requestFrame 1 1024 42]) := by
  have hadmits : ∀ w ∈ takenWords totSizeB [requestFrame 1 1024 42], Admits w :=
    admits_takenWords_requestFrame (by decide) (by decide) (by decide)
  refine ⟨hadmits, fun h => ?_⟩
  rw [storeAfterTimed_eq (alike_histogram totSizeB)] at h
  have hdvd := (countsWords_histogramNoT_iff hadmits).mp h
  rw [takenWords_requestFrame, List.count_cons_of_ne (by decide), List.count_cons,
    List.count_cons_of_ne (by decide), List.count_replicate] at hdvd
  exact absurd hdvd (by decide)

/-- The frame is passed on and contributes nothing. -/
def RejectsWhole (prog : PktM (Counted ArrayMap) Verdict) (s : Counted ArrayMap) (f : Frame) :
    Prop := (handle prog s f).1 = .pass ∧ (handle prog s f).2.store = s

theorem countAdmitted_eq_self_iff (rxhist : ArrayMap) (hlen : words.length < 2 ^ 32) :
    countAdmitted rxhist words = rxhist ↔
      ∀ w ∈ words.takeWhile (Admits ·), w = BitVec.ofNat 32 histogNr := by
  have hkeys : (admittedKeys words).length ≤ words.length := by
    rw [admittedKeys, List.length_map]
    exact (List.takeWhile_prefix _).length_le
  have hzero : ∀ c ≤ (admittedKeys words).length, (c : BitVec 32) = 0 → c = 0 := by
    intro c hc hcast
    rw [BitVec.natCast_eq_ofNat, ofNat_eq_zero_iff] at hcast
    exact Nat.eq_zero_of_dvd_of_lt hcast (by omega)
  rw [countAdmitted, Lists.tally_eq_self_iff _ hzero, admittedKeys, List.forall_mem_map]
  refine forall₂_congr fun w hw => ?_
  have hle := admits_iff.mp (of_decide_eq_true (List.all_eq_true.mp List.all_takeWhile w hw))
  rw [← BitVec.toNat_inj]
  exact ⟨fun hge => le_antisymm hle hge, fun heq => heq.ge⟩

theorem rejectsWhole_iff {rest : ℕ → ℕ → ℕ → PktM (Counted ArrayMap) Verdict}
    (h : Takes totSizeB f) (hw : ∃ w ∈ payloadWords totSizeB f, ¬ Admits w) :
    RejectsWhole (countPackets totSizeB histogramWork asIs rest) s f ↔
      ∀ w ∈ (payloadWords totSizeB f).takeWhile (Admits ·), w = BitVec.ofNat 32 histogNr := by
  obtain ⟨hverdict, hstore⟩ := handle_of_not_admits (s := s) rest (by decide) h hw
  have hlen : (payloadWords totSizeB f).length < 2 ^ 32 := by
    rw [length_payloadWords]
    decide
  rw [RejectsWhole, hverdict, hstore, ← countAdmitted_eq_self_iff s.data hlen]
  exact ⟨fun hs => congrArg Counted.data hs.2, fun hd => ⟨rfl, by rw [hd]⟩⟩

/-- A frame with a word out of range contributes nothing exactly when all words before the first
such word equal `HISTOG_NR`. -/
theorem histogram_rejects_iff (s : Counted ArrayMap) (f : Frame) (arrival processed : Instant)
    (h : Takes totSizeB f) (hw : ∃ w ∈ payloadWords totSizeB f, ¬ Admits w) :
    (RejectsWhole (histogram totSizeB arrival processed) s f ↔
      ∀ w ∈ (payloadWords totSizeB f).takeWhile (Admits ·), w = BitVec.ofNat 32 histogNr) ∧
    (RejectsWhole (histogramNoT totSizeB) s f ↔
      ∀ w ∈ (payloadWords totSizeB f).takeWhile (Admits ·), w = BitVec.ofNat 32 histogNr) :=
  ⟨rejectsWhole_iff h hw, rejectsWhole_iff h hw⟩

theorem histogram_rejects_iff_requestFrame :
    RejectsWhole (histogramNoT totSizeB) ⟨0, fun _ => 0⟩ (requestFrame (-1) 7 42) := by
  have hw : ∃ w ∈ payloadWords totSizeB (requestFrame (-1) 7 42), ¬ Admits w := by
    rw [payloadWords_requestFrame]
    exact ⟨-1, List.mem_cons_self, by decide⟩
  refine (histogram_rejects_iff ⟨0, fun _ => 0⟩ (requestFrame (-1) 7 42) ⟨0, 0⟩ ⟨0, 0⟩
    (takes_requestFrame _ _ _) hw).2.mpr ?_
  rw [payloadWords_requestFrame, List.takeWhile_cons, if_neg (by decide)]
  exact List.forall_mem_nil _

/-- The first word of the frame is counted before the second one rejects it. -/
theorem not_histogram_rejects_second : Takes totSizeB (requestFrame 1 (-1) 42) ∧
    (∃ w ∈ payloadWords totSizeB (requestFrame 1 (-1) 42), ¬ Admits w) ∧
    ¬ RejectsWhole (histogram totSizeB ⟨0, 0⟩ ⟨0, 0⟩) ⟨0, fun _ => 0⟩ (requestFrame 1 (-1) 42) := by
  have htakes := takes_requestFrame 1 (-1) 42
  have hw : ∃ w ∈ payloadWords totSizeB (requestFrame 1 (-1) 42), ¬ Admits w := by
    rw [payloadWords_requestFrame]
    exact ⟨-1, List.mem_cons_of_mem _ List.mem_cons_self, by decide⟩
  refine ⟨htakes, hw, fun h => ?_⟩
  have hlast := (rejectsWhole_iff htakes hw).mp h
  rw [payloadWords_requestFrame, List.takeWhile_cons, if_pos (by decide)] at hlast
  exact absurd (hlast 1 List.mem_cons_self) (by decide)

end PacketBench.Xdp

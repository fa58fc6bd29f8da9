import PacketBench.Dpdk.Runs
import PacketBench.Frame.Requests
import PacketBench.Lists.Tally
import Mathlib.Data.List.TakeWhile
import Mathlib.Tactic.Ring

/-! # The bins of the DPDK histogram

`final_histog` has `HISTOG_NR` entries, but the range test in front of an
increment lets the value `HISTOG_NR` itself through. The increment then hits
what lies behind the array.
-/

namespace PacketBench.Dpdk

open PktM

@[simp] def finalHistogLength : ℕ := 1024

def InRange (word : BitVec 32) : Prop := ¬ (word.toInt > histogNr ∨ word.toInt < 0)

instance : DecidablePred InRange := fun word =>
  inferInstanceAs (Decidable (¬ (word.toInt > histogNr ∨ word.toInt < 0)))

theorem inRange_iff {word : BitVec 32} : InRange word ↔ word.toNat ≤ finalHistogLength := by
  have hword := word.isLt
  unfold InRange
  rw [BitVec.toInt_eq_toNat_cond, histogNr, finalHistogLength]
  split_ifs <;> omega

def dataWords (f : Frame) : List (BitVec 32) := (List.range dataNr).map f.word

/-- The indices that are incremented for a list of words: those before the first one out of
range. -/
def binKeys (words : List (BitVec 32)) : List ℕ :=
  (words.takeWhile (InRange ·)).map BitVec.toNat

/-- The program exits at the frame. -/
def ExitsAt (f : Frame) : Prop := Accepted f ∧ ∃ w ∈ dataWords f, ¬ InRange w

instance : DecidablePred ExitsAt := fun f =>
  inferInstanceAs (Decidable (Accepted f ∧ ∃ w ∈ dataWords f, ¬ InRange w))

/-- The indices that are incremented for a sequence of frames, up to the one where the program
exits. -/
def incremented : List Frame → List ℕ
  | [] => []
  | f :: frames =>
    (if Accepted f then binKeys (dataWords f) else []) ++
      if ExitsAt f then [] else incremented frames

/-- The store when all frames are handled or when the program exits. -/
def storeUntilExit {σ : Type} (process : PktM σ (Option Bool)) : σ → List Frame → σ
  | s, [] => s
  | s, f :: frames =>
    let out := process.exec (Run.start f s)
    if out.1.isNone then out.2.store else storeUntilExit process out.2.store frames

@[simp] theorem exec_rteAtomic32Add (i : ℕ) (v : BitVec 32) (r : Run Counters) :
    (rteAtomic32Add i v).exec r =
      ((), r.setStore (Function.update r.store i (r.store i + v))) := by rfl

theorem exec_countKeys_succ (i n : ℕ) (r : Run Counters) : (countKeys 42 i (n + 1)).exec r =
    if InRange (r.frame.word i) then
      (countKeys 42 (i + 1) n).exec ((r.setStore (Function.update r.store (r.frame.word i).toNat
        (r.store (r.frame.word i).toNat + 1))).touch (42 + 4 * i + 4))
    else (false, r.touch (42 + 4 * i + 4)) := by
  rw [countKeys, exec_bind, exec_loadWord]
  by_cases hkey : InRange (r.frame.word i)
  · simp only [if_neg hkey, if_pos hkey, exec_bind, exec_rteAtomic32Add, Run.touch_store,
      Run.touch_setStore]
  · simp only [if_pos (not_not.mp hkey), if_neg hkey, exec_pure]

theorem exec_countKeys (i n : ℕ) (r : Run Counters) :
    ((countKeys 42 i n).exec r).1 = ((List.range' i n).map r.frame.word).all (InRange ·) ∧
    ((countKeys 42 i n).exec r).2.store =
      Lists.incrementAll r.store (binKeys ((List.range' i n).map r.frame.word)) := by
  induction n generalizing i r with
  | zero => exact ⟨rfl, rfl⟩
  | succ n ih =>
    rw [exec_countKeys_succ, List.range'_succ, List.map_cons, List.all_cons, binKeys,
      List.takeWhile_cons]
    by_cases hkey : InRange (r.frame.word i)
    · rw [if_pos hkey, decide_eq_true hkey, Bool.true_and, if_pos rfl, List.map_cons]
      exact ih (i + 1) _
    · rw [if_neg hkey, decide_eq_false hkey, Bool.false_and, if_neg Bool.false_ne_true,
        List.map_nil]
      exact ⟨rfl, rfl⟩

theorem exec_histogram_of_not {f : Frame} (h : ¬ Accepted f) (s : Counters) :
    (histogram.exec (Run.start f s)).1 = some false ∧
    (histogram.exec (Run.start f s)).2.store = s := by
  unfold histogram
  rw [exec_classify rfl, Run.start_frame, if_neg h]
  exact ⟨rfl, rfl⟩

theorem exec_histogram {f : Frame} (h : Accepted f) (s : Counters) :
    (histogram.exec (Run.start f s)).1 =
      (if (dataWords f).all (InRange ·) then some true else none) ∧
    (histogram.exec (Run.start f s)).2.store =
      Lists.incrementAll s (binKeys (dataWords f)) := by
  obtain ⟨hgood, hstore⟩ := exec_countKeys 0 dataNr ((Run.start f s).touch (classifyReach f))
  have hwords : (List.range' 0 dataNr).map f.word = dataWords f := by
    rw [dataWords, List.range_eq_range']
  rw [Run.touch_frame, Run.start_frame, hwords] at hgood hstore
  unfold histogram
  rw [exec_classify rfl, Run.start_frame, if_pos h]
  simp only [payload_offset, words_totSizeB, exec_bind, exec_ite, exec_pure, hgood]
  constructor
  · split <;> rfl
  · split <;> exact hstore

theorem isNone_histogram_iff (f : Frame) (s : Counters) :
    (histogram.exec (Run.start f s)).1.isNone ↔ ExitsAt f := by
  by_cases hf : Accepted f
  · rw [(exec_histogram hf s).1, ExitsAt]
    simp [hf]
  · rw [(exec_histogram_of_not hf s).1]
    exact iff_of_false Bool.false_ne_true fun h => hf h.1

/-- What a sequence of frames does to the array and the memory behind it. -/
theorem storeUntilExit_histogram (s : Counters) (frames : List Frame) :
    storeUntilExit histogram s frames = Lists.incrementAll s (incremented frames) := by
  induction frames generalizing s with
  | nil => rfl
  | cons f frames ih =>
    have hstore : (histogram.exec (Run.start f s)).2.store =
        Lists.incrementAll s (if Accepted f then binKeys (dataWords f) else []) := by
      split_ifs with hf
      · exact (exec_histogram hf s).2
      · exact (exec_histogram_of_not hf s).2
    rw [storeUntilExit, incremented]
    by_cases hexit : ExitsAt f
    · rw [if_pos hexit, List.append_nil, if_pos ((isNone_histogram_iff f s).mpr hexit), hstore]
    · rw [if_neg hexit, if_neg (mt (isNone_histogram_iff f s).mp hexit), ih, hstore]
      exact List.foldl_append.symm

theorem mem_binKeys {f : Frame} {k : ℕ} : k ∈ binKeys (dataWords f) ↔
    ∃ i < dataNr, (∀ j ≤ i, InRange (f.word j)) ∧ (f.word i).toNat = k := by
  unfold binKeys dataWords
  rw [List.mem_map, List.range_eq_range']
  simp only [Lists.mem_takeWhile_map_range', Nat.zero_add, decide_eq_true_eq]
  constructor
  · rintro ⟨w, ⟨i, hi, hall, rfl⟩, hk⟩
    exact ⟨i, hi, hall, hk⟩
  · rintro ⟨i, hi, hall, hk⟩
    exact ⟨f.word i, ⟨i, hi, hall, rfl⟩, hk⟩

/-- The program reaches a word `HISTOG_NR` in the frame: no word in front of it is out of range. -/
def Overruns (f : Frame) : Prop :=
  Accepted f ∧ ∃ i < dataNr, (∀ j < i, InRange (f.word j)) ∧ (f.word i).toInt = histogNr

theorem le_of_mem_binKeys {words : List (BitVec 32)} {k : ℕ} (h : k ∈ binKeys words) :
    k ≤ finalHistogLength := by
  obtain ⟨w, hw, rfl⟩ := List.mem_map.mp h
  exact inRange_iff.mp (of_decide_eq_true
    (List.mem_takeWhile_imp (p := fun w => decide (InRange w)) hw))

theorem toInt_eq_histogNr_iff (w : BitVec 32) :
    w.toInt = histogNr ↔ w.toNat = finalHistogLength := by
  have hword := w.isLt
  rw [BitVec.toInt_eq_toNat_cond, histogNr, finalHistogLength]
  split_ifs <;> omega

theorem overruns_iff {f : Frame} (h : Accepted f) :
    Overruns f ↔ finalHistogLength ∈ binKeys (dataWords f) := by
  rw [mem_binKeys, Overruns, and_iff_right h]
  constructor
  · rintro ⟨i, hi, hbefore, hlast⟩
    have hlast := (toInt_eq_histogNr_iff _).mp hlast
    refine ⟨i, hi, fun j hj => ?_, hlast⟩
    rcases hj.lt_or_eq with hlt | rfl
    · exact hbefore j hlt
    · exact inRange_iff.mpr hlast.le
  · rintro ⟨i, hi, hall, hlast⟩
    exact ⟨i, hi, fun j hj => hall j hj.le, (toInt_eq_histogNr_iff _).mpr hlast⟩

theorem forall_binKeys_lt_iff (f : Frame) :
    (∀ k ∈ if Accepted f then binKeys (dataWords f) else [], k < finalHistogLength) ↔
      ¬ Overruns f := by
  by_cases hf : Accepted f
  · rw [if_pos hf, overruns_iff hf]
    constructor
    · exact fun h hmem => lt_irrefl _ (h _ hmem)
    · intro hnot k hk
      exact (le_of_mem_binKeys hk).lt_of_ne fun heq => hnot (heq ▸ hk)
  · rw [if_neg hf]
    exact iff_of_true (fun k hk => absurd hk List.not_mem_nil) fun h => hf h.1

/-- No frame that the program handles before it exits makes it overrun. -/
def StaysInside (frames : List Frame) : Prop :=
  ∀ before f after, frames = before ++ f :: after → (∀ g ∈ before, ¬ ExitsAt g) → ¬ Overruns f

theorem incremented_lt_iff (frames : List Frame) :
    (∀ k ∈ incremented frames, k < finalHistogLength) ↔ StaysInside frames := by
  unfold StaysInside
  induction frames with
  | nil => exact iff_of_true (fun k hk => absurd hk List.not_mem_nil) (by simp)
  | cons f frames ih =>
    rw [Lists.forall_split_cons
      (P := fun before f => (∀ g ∈ before, ¬ ExitsAt g) → ¬ Overruns f), incremented,
      List.forall_mem_append, forall_binKeys_lt_iff]
    refine and_congr ⟨fun h _ => h, fun h => h fun g hg => absurd hg List.not_mem_nil⟩ ?_
    by_cases hexit : ExitsAt f
    · rw [if_pos hexit]
      refine iff_of_true (fun k hk => absurd hk List.not_mem_nil) fun before g after _ hbefore => ?_
      exact absurd hexit (hbefore f List.mem_cons_self)
    · rw [if_neg hexit, ih]
      simp only [List.forall_mem_cons, hexit, not_false_eq_true, true_and]

theorem binKeys_of_not_exitsAt {f : Frame} (hf : Accepted f) (h : ¬ ExitsAt f) :
    binKeys (dataWords f) = (dataWords f).map BitVec.toNat := by
  have hall : ∀ w ∈ dataWords f, InRange w := by
    intro w hw
    by_contra hbad
    exact h ⟨hf, w, hw, hbad⟩
  have hself : (dataWords f).takeWhile (InRange ·) = dataWords f :=
    List.takeWhile_eq_self_iff.mpr fun w hw => decide_eq_true (hall w hw)
  rw [binKeys, hself]

theorem length_binKeys_of_not_exitsAt {f : Frame} (hf : Accepted f) (h : ¬ ExitsAt f) :
    (binKeys (dataWords f)).length = dataNr := by
  rw [binKeys_of_not_exitsAt hf h, List.length_map, dataWords, List.length_map,
    List.length_range]

theorem length_incremented {frames : List Frame} (h : ∀ f ∈ frames, ¬ ExitsAt f) :
    (incremented frames).length = dataNr * frames.countP (Accepted ·) := by
  induction frames with
  | nil => rfl
  | cons f frames ih =>
    obtain ⟨hf, hframes⟩ := List.forall_mem_cons.mp h
    rw [incremented, if_neg hf, List.length_append, ih hframes, List.countP_cons]
    by_cases hacc : Accepted f
    · rw [if_pos hacc, length_binKeys_of_not_exitsAt hacc hf, if_pos (decide_eq_true hacc)]
      ring
    · rw [if_neg hacc, if_neg (by simpa using hacc), List.length_nil, Nat.zero_add, Nat.add_zero]

theorem storeAfter_histogram {frames : List Frame} (h : ∀ f ∈ frames, ¬ ExitsAt f) (s : Counters) :
    storeAfter histogram s frames = storeUntilExit histogram s frames := by
  induction frames generalizing s with
  | nil => rfl
  | cons f frames ih =>
    obtain ⟨hf, hframes⟩ := List.forall_mem_cons.mp h
    rw [storeUntilExit, if_neg (mt (isNone_histogram_iff f s).mp hf), ← ih hframes]
    rfl

theorem sum_storeAfter_histogram {frames : List Frame} (h : ∀ f ∈ frames, ¬ ExitsAt f)
    (hin : ∀ k ∈ incremented frames, k < finalHistogLength) :
    ∑ k ∈ Finset.range finalHistogLength, storeAfter histogram (fun _ => 0) frames k =
      BitVec.ofNat 32 (dataNr * frames.countP (Accepted ·)) := by
  rw [storeAfter_histogram h, storeUntilExit_histogram, Lists.incrementAll_eq_tally _ hin,
    Lists.sum_tally, Finset.sum_const_zero, zero_add, BitVec.natCast_eq_ofNat]
  have hcount : (incremented frames).countP (· < finalHistogLength) = (incremented frames).length :=
    List.countP_eq_length.mpr fun k hk => decide_eq_true (hin k hk)
  rw [hcount, length_incremented h]

/-- The increments of a run are all that it does to its memory and hit the array, and the bins hold
all words of the counted frames unless the run exits. -/
structure CountsInside (rteIpv4UdptcpCksum : Cksum) (run : List (TxBurst × Burst)) : Prop where
  increments : ∀ s, storeUntilExit histogram s (framesOf run) =
    Lists.incrementAll s (incremented (framesOf run))
  inside : ∀ k ∈ incremented (framesOf run), k < finalHistogLength
  total : ∀ steps, sinkRun histogram (SinkApp.notify rteIpv4UdptcpCksum .histogram)
      ⟨0, fun _ => 0⟩ run = some steps →
    ∑ k ∈ Finset.range finalHistogLength, (finalState ⟨0, fun _ => 0⟩ steps).store k =
      BitVec.ofNat 32 dataNr * (finalState ⟨0, fun _ => 0⟩ steps).pktRec

/-- A run of the histogram is right exactly when no frame in front of its exit makes it overrun. -/
theorem histogram_countsInside_iff (rteIpv4UdptcpCksum : Cksum) (run : List (TxBurst × Burst)) :
    CountsInside rteIpv4UdptcpCksum run ↔ StaysInside (framesOf run) := by
  rw [← incremented_lt_iff]
  refine ⟨CountsInside.inside, fun hin =>
    ⟨fun s => storeUntilExit_histogram s _, hin, fun steps hsteps => ?_⟩⟩
  obtain ⟨hstore, hcount, hgo⟩ := completed_of_sinkRun counts_histogram hsteps
  have hnot : ∀ f ∈ framesOf run, ¬ ExitsAt f := by
    intro f hf hexit
    obtain ⟨s, hs⟩ := hgo f hf
    rw [Option.isSome_iff_ne_none] at hs
    exact hs (Option.isNone_iff_eq_none.mp ((isNone_histogram_iff f s).mpr hexit))
  rw [hstore, hcount, sum_storeAfter_histogram hnot hin, zero_add, BitVec.ofNat_mul]

def boundaryBurst : Burst where
  bufs := [⟨1, Nat.one_ne_zero, requestFrame 1 1024 42⟩]
  nodup := by decide
  length_le := by decide

theorem overruns_requestFrame : Overruns (requestFrame 1 1024 42) := by
  refine ⟨accepted_requestFrame 1 1024 42, 1, by decide, fun j hj => ?_, ?_⟩
  · rw [Nat.lt_one_iff.mp hj, word_zero_requestFrame]
    decide
  · rw [word_one_requestFrame]
    decide

/-- The word `HISTOG_NR` passes the range test and is counted behind the array. -/
theorem not_histogram_countsInside : ¬ CountsInside rteCksum [(allSent, boundaryBurst)] := by
  intro h
  have hstays := (incremented_lt_iff _).mp h.inside
  exact hstays [] (requestFrame 1 1024 42) [] rfl (fun g hg => absurd hg List.not_mem_nil)
    overruns_requestFrame

end PacketBench.Dpdk

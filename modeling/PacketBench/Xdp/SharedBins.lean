import PacketBench.Frame.Bins
import PacketBench.Xdp.Histogram
import PacketBench.Xdp.Parallel

/-! # The XDP histogram on several CPUs

The CPUs count the words of their frames into common bins by atomic additions.
A frame counts itself only when all its words are in range. However the CPUs
interleave, each bin ends with the number of its words.
-/

namespace PacketBench.Xdp

open Atomics PktM

variable {tot : ℕ} {f : Frame}

def binsOf (tot : ℕ) (f : Frame) : List ℕ :=
  (admittedKeys (payloadWords tot f)).filter (· < histogNr)

def histogramOps (tot : ℕ) (f : Frame) : List SharedOp :=
  if Takes tot f then
    binOps (binsOf tot f) ++ if (payloadWords tot f).all (Admits ·) then countOps 1 else []
  else []

theorem countAdmitted_apply (rxhist : ArrayMap) (f : Frame) (v : ℕ) :
    countAdmitted rxhist (payloadWords tot f) v =
      rxhist v + BitVec.ofNat 32 ((binsOf tot f).count v) := by
  unfold countAdmitted binsOf
  rcases lt_or_ge v histogNr with hv | hv
  · have hcount : ((admittedKeys (payloadWords tot f)).filter (· < histogNr)).count v =
        (admittedKeys (payloadWords tot f)).count v := by
      apply List.count_filter
      exact decide_eq_true hv
    rw [Lists.tally_apply_of_lt _ _ hv, BitVec.natCast_eq_ofNat, hcount]
  · have hcount : ((admittedKeys (payloadWords tot f)).filter (· < histogNr)).count v = 0 := by
      apply List.count_eq_zero.mpr
      intro hmem
      exact absurd (of_decide_eq_true (List.mem_filter.mp hmem).2) (Nat.not_lt.mpr hv)
    rw [Lists.tally_apply_of_le _ _ hv, hcount]
    exact (add_zero _).symm

section OneFrame

variable (htot : tot < 2 ^ 31) {s : Counted ArrayMap}

include htot

theorem handle_histogramNoT_of_admits (h : Takes tot f)
    (hw : ∀ w ∈ payloadWords tot f, Admits w) :
    (handle (histogramNoT tot) s f).1 = .tx ↔ Completes tot (s.rxpkt + 1) := by
  have hwork := yields_histogramWork_of_admits htot h hw s
  by_cases hdone : Completes tot (s.rxpkt + 1)
  · exact iff_of_true
      (yields_countPackets_notify htot h hwork hdone (yields_pure ())).exec_start.1 hdone
  · have hrun : (histogramNoT tot).Yields f s .pass f.mem _ :=
      yields_countPackets_rest htot h hwork hdone (yields_pure Verdict.pass)
    unfold handle
    rw [hrun.exec_start.1]
    exact iff_of_false (by decide) hdone

theorem performs_histogramNoT : Performs tot (histogramNoT tot) id (histogramOps tot) := by
  have hcase : ∀ f, Takes tot f → ¬ (payloadWords tot f).all (Admits ·) →
      ∃ w ∈ payloadWords tot f, ¬ Admits w := by
    intro f _ hbad
    simpa using hbad
  constructor
  · intro s f
    unfold histogramOps
    by_cases hf : Takes tot f
    · rw [if_pos hf]
      by_cases hw : (payloadWords tot f).all (Admits ·)
      · have hall : ∀ w ∈ payloadWords tot f, Admits w := by simpa using hw
        rw [if_pos hw, mem_alone_countOps (added_binOps_packets _), store_histogramNoT htot hf hall]
        simp only [id, added_binOps]
        exact congrArg (cells _) (funext fun v => countAdmitted_apply s.data f v)
      · rw [if_neg hw, List.append_nil, mem_alone_binOps,
          show (handle (histogramNoT tot) s f).2.store = _ from
            (handle_of_not_admits (leave .pass) htot hf (hcase f hf hw)).2]
        exact congrArg (cells _) (funext fun v => countAdmitted_apply s.data f v)
    · rw [if_neg hf, store_histogramNoT_of_not htot hf]
      rfl
  · intro s f
    unfold histogramOps
    by_cases hf : Takes tot f
    · rw [if_pos hf]
      by_cases hw : (payloadWords tot f).all (Admits ·)
      · have hall : ∀ w ∈ payloadWords tot f, Admits w := by simpa using hw
        rw [if_pos hw, log_alone_countOps (isAdd_binOps _) (added_binOps_packets _),
          handle_histogramNoT_of_admits htot hf hall]
        simp
      · rw [if_neg hw, List.append_nil, log_alone_binOps,
          show (handle (histogramNoT tot) s f).1 = _ from
            (handle_of_not_admits (leave .pass) htot hf (hcase f hf hw)).1]
        simp
    · rw [if_neg hf, log_alone_nil]
      have hpass : (handle (histogramNoT tot) s f).1 = .pass :=
        (yields_countPackets_of_not htot hf).exec_start.1
      simp [hpass]

theorem performs_histogram (arrival processed : Instant) :
    Performs tot (histogram tot arrival processed) id (histogramOps tot) := by
  have halike := alike_histogram tot arrival processed
  have hplain := performs_histogramNoT htot
  constructor
  · intro s f
    unfold handle
    rw [halike.store]
    exact hplain.maps s f
  · intro s f
    unfold handle
    rw [halike.verdict]
    exact hplain.verdict s f

end OneFrame

theorem added_histogramOps (f : Frame) (v : ℕ) : added (.slot v) (histogramOps tot f) =
    BitVec.ofNat 32 (if Takes tot f then (binsOf tot f).count v else 0) := by
  unfold histogramOps
  split_ifs
  · rw [added_append, added_binOps, added_countOps, add_zero]
  · rw [added_append, added_binOps, added_nil, add_zero]
  · rfl

theorem bins_of_endsWith {frames : List Frame} {mem : Cell → BitVec 32}
    (h : EndsWith (histogramOps tot) frames mem) (v : ℕ) : mem (.slot v) =
      BitVec.ofNat 32 (((frames.filter (Takes tot ·)).flatMap (binsOf tot)).count v) := by
  rw [h.mem_eq]
  simp only [added_histogramOps]
  clear h
  induction frames with
  | nil => rfl
  | cons f frames ih =>
    rw [List.map_cons, List.sum_cons, ih, ← BitVec.ofNat_add, List.filter_cons]
    by_cases hf : Takes tot f
    · rw [if_pos hf, if_pos (decide_eq_true hf), List.flatMap_cons, List.count_append]
    · rw [if_neg hf, if_neg (by simpa using hf), Nat.zero_add]

end PacketBench.Xdp

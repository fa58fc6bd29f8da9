import PacketBench.Concurrency.Stores
import PacketBench.Dpdk.Sinks

/-! # `copy_to_host` on several lcores

An lcore copies a payload by one atomic store per word, and nothing orders the
stores of different lcores. So the host array can end as any mixture of the
frames, word by word, and it is sure to be one of them only when an lcore
copies after all others.
-/

namespace PacketBench.Dpdk

open PktM Stores

/-- The atomic stores of an lcore for a frame. -/
def copyStores (f : Frame) : List (ℕ × BitVec 32) :=
  if Accepted f then storesFrom 0 dataNr f.word else []

/-- Each lcore has received a frame. -/
def copySystem {ι : Type} (copyVal : Counters) (frames : ι → Frame) : System ι ℕ (BitVec 32) :=
  ⟨copyVal, fun i => copyStores (frames i)⟩

theorem copySystem_eq_start {ι : Type} (copyVal : Counters) {frames : ι → Frame}
    (hacc : ∀ i, Accepted (frames i)) :
    copySystem copyVal frames = start copyVal dataNr fun i => (frames i).word := by
  unfold copySystem copyStores start
  simp only [hacc, if_true]

/-- An lcore that is not interrupted leaves the array as the program does. -/
theorem copyToHost_performs (copyVal : Counters) (f : Frame) :
    ((copySystem copyVal fun _ : Unit => f).run (List.replicate dataNr ())).mem =
      (copyToHost.exec (Run.start f copyVal)).2.store := by
  by_cases hf : Accepted f
  · have hdone : ((start copyVal dataNr fun _ : Unit => f.word).run
        (List.replicate dataNr ())).Finished := by
      intro i
      rw [System.todo_run, List.count_replicate_self, List.drop_eq_nil_iff]
      exact (List.length_map _).le.trans List.length_range'.le
    obtain ⟨hentries, hkept⟩ := (exists_run_start_iff copyVal _ dataNr).mp ⟨_, hdone, rfl⟩
    rw [copySystem_eq_start copyVal fun _ => hf, (adds_copyToHost.accepted copyVal f hf).2]
    funext k
    unfold Frame.combine
    by_cases hk : k < dataNr
    · obtain ⟨-, hword⟩ := hentries k hk
      rw [hword, if_pos hk]
    · rw [hkept k (Nat.le_of_not_lt hk), if_neg hk]
  · have htodo : (copySystem copyVal fun _ : Unit => f).todo () = [] := if_neg hf
    rw [(adds_copyToHost.rejected copyVal f hf).2]
    funext k
    refine (System.mem_run _ _ k).resolve_right ?_
    rintro ⟨⟨⟩, hstore⟩
    rw [htodo] at hstore
    cases hstore

/-- What the interleavings of the copies leave, and what the last one leaves. -/
theorem copies_mix {n : ℕ} (frames : Fin (n + 1) → Frame) (hacc : ∀ i, Accepted (frames i))
    (copyVal : Counters) :
    (∀ result, (∃ schedule, ((copySystem copyVal frames).run schedule).Finished ∧
        ((copySystem copyVal frames).run schedule).mem = result) ↔
      (∀ k < dataNr, ∃ i, result k = (frames i).word k) ∧
        ∀ k, dataNr ≤ k → result k = copyVal k) ∧
    ∀ before after i, i ∉ before →
      (∀ j ≠ i, ((copySystem copyVal frames).run before).todo j = []) →
      ((copySystem copyVal frames).run (before ++ after)).Finished →
      ∀ k < dataNr,
        ((copySystem copyVal frames).run (before ++ after)).mem k = (frames i).word k := by
  rw [copySystem_eq_start copyVal hacc]
  constructor
  · intro result
    exact exists_run_start_iff copyVal result dataNr
  · intro before after i hlast hothers hdone k hk
    exact mem_start_of_last hlast hothers hdone hk

def twoFrames (i : Fin 2) : Frame :=
  if i.val = 0 then requestFrame 1 7 42 else requestFrame 2 8 43

theorem accepted_twoFrames (i : Fin 2) : Accepted (twoFrames i) := by
  unfold twoFrames
  split_ifs
  · exact accepted_requestFrame 1 7 42
  · exact accepted_requestFrame 2 8 43

/-- Some interleaving leaves the first frame as a whole. -/
theorem copies_mix_twoFrames : ∃ schedule,
    ((copySystem (fun _ => 0) twoFrames).run schedule).Finished ∧
      ((copySystem (fun _ => 0) twoFrames).run schedule).mem =
        (twoFrames 0).combine (fun _ w => w) (fun _ => 0) dataNr := by
  refine ((copies_mix twoFrames accepted_twoFrames fun _ => 0).1 _).mpr ⟨?_, ?_⟩
  · exact fun k hk => ⟨0, if_pos hk⟩
  · exact fun k hk => if_neg (Nat.not_lt.mpr hk)

/-- Word 0 of the first frame beside the other words of the second one. -/
theorem not_copies_whole : (∀ i, Accepted (twoFrames i)) ∧
    ¬ ∀ schedule, ((copySystem (fun _ => 0) twoFrames).run schedule).Finished →
      ∃ i, ∀ k < dataNr,
        ((copySystem (fun _ => 0) twoFrames).run schedule).mem k = (twoFrames i).word k := by
  refine ⟨accepted_twoFrames, fun h => ?_⟩
  rw [copySystem_eq_start _ accepted_twoFrames] at h
  let choice : ℕ → Fin 2 := fun k => if k = 0 then 0 else 1
  obtain ⟨schedule, hdone, hrun⟩ := exists_run_storesFrom choice fun i => (rfl :
    (start (fun _ => 0) dataNr fun i => (twoFrames i).word).todo i =
      storesFrom 0 dataNr (twoFrames i).word)
  obtain ⟨i, hi⟩ := h schedule hdone
  have hzero : (twoFrames 0).word 0 = (twoFrames i).word 0 :=
    ((hrun 0).trans (if_pos (by decide))).symm.trans (hi 0 (by decide))
  have hone : (twoFrames 1).word 1 = (twoFrames i).word 1 :=
    ((hrun 1).trans (if_pos (by decide))).symm.trans (hi 1 (by decide))
  have hfirst : twoFrames 0 = requestFrame 1 7 42 := rfl
  have hsecond : twoFrames 1 = requestFrame 2 8 43 := rfl
  obtain rfl | rfl : i = 0 ∨ i = 1 := by omega
  · rw [hfirst, hsecond, word_one_requestFrame, word_one_requestFrame] at hone
    exact absurd hone (by decide)
  · rw [hfirst, hsecond, word_zero_requestFrame, word_zero_requestFrame] at hzero
    exact absurd hzero (by decide)

end PacketBench.Dpdk

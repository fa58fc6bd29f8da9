import PacketBench.Lists.Threads

/-! # Appending to a file under a lock

Each thread has pieces of work whose lines it appends to a common file, one at
a time, while it holds the lock. A schedule names the thread of each step, and
a thread that finds the lock taken waits. So the lines of a piece of work stand
together, the pieces in the order in which the lock was taken, and the threads
can always come to an end.
-/

namespace Guarded

open Finset Lists

variable {ι α V : Type*}

/-- The holder of the lock, the file, the lines each thread inside its critical section has still
to write and the work it has not begun; `taken` records the work in the order in which the lock was
taken for it. -/
structure System (ι α V : Type*) where
  holder : Option ι
  file : List V
  inside : ι → Option (List V)
  todo : ι → List α
  taken : List (ι × α)

variable [DecidableEq ι] (lines : α → List V)

namespace System

/-- The next step of a thread: it takes the lock if it is free, writes a line, or releases the
lock behind the last line. -/
def step (s : System ι α V) (i : ι) : System ι α V :=
  match s.inside i, s.todo i with
  | some (v :: vs), _ =>
    { s with file := s.file ++ [v], inside := Function.update s.inside i (some vs) }
  | some [], _ => { s with holder := none, inside := Function.update s.inside i none }
  | none, [] => s
  | none, a :: rest =>
    if s.holder = none then
      { s with
        holder := some i
        inside := Function.update s.inside i (some (lines a))
        todo := Function.update s.todo i rest
        taken := s.taken ++ [(i, a)] }
    else s

def run (s : System ι α V) (schedule : List ι) : System ι α V := schedule.foldl (step lines) s

def start (work : ι → List α) : System ι α V := ⟨none, [], fun _ => none, work, []⟩

def Finished (s : System ι α V) : Prop := ∀ i, s.inside i = none ∧ s.todo i = []

def unwritten (s : System ι α V) : List V :=
  match s.holder with
  | none => []
  | some i => (s.inside i).getD []

end System

theorem System.run_append (s : System ι α V) (schedule later : List ι) :
    s.run lines (schedule ++ later) = (s.run lines schedule).run lines later :=
  List.foldl_append

omit [DecidableEq ι] in
theorem System.unwritten_of_free {s : System ι α V} (h : s.holder = none) : s.unwritten = [] := by
  unfold unwritten
  rw [h]

omit [DecidableEq ι] in
theorem System.unwritten_of_held {s : System ι α V} {i : ι} (h : s.holder = some i) :
    s.unwritten = (s.inside i).getD [] := by
  unfold unwritten
  rw [h]

/-- One thread at most is inside, and the file holds the lines of the work taken so far up to
those the thread inside has still to write. -/
structure Orderly (work : ι → List α) (s : System ι α V) : Prop where
  exclusive : ∀ i, (s.inside i).isSome ↔ s.holder = some i
  file_eq : s.file ++ s.unwritten = s.taken.flatMap (lines ·.2)
  work_eq : ∀ i, ofThread i s.taken ++ s.todo i = work i

section Invariant

variable {lines} {work : ι → List α} {s : System ι α V}

theorem orderly_start : Orderly lines work (System.start work) where
  exclusive _ := by simp [System.start]
  file_eq := rfl
  work_eq _ := rfl

theorem Orderly.holder_eq (h : Orderly lines work s) {i : ι} {vs : List V}
    (hin : s.inside i = some vs) : s.holder = some i := by
  rw [← h.exclusive, hin]
  rfl

theorem Orderly.inside_eq_none (h : Orderly lines work s) {i : ι} (hi : s.holder ≠ some i) :
    s.inside i = none := by
  rwa [← Option.not_isSome_iff_eq_none, h.exclusive]

theorem Orderly.write (h : Orderly lines work s) {i : ι} {v : V} {vs : List V}
    (hin : s.inside i = some (v :: vs)) : Orderly lines work
      { s with file := s.file ++ [v], inside := Function.update s.inside i (some vs) } := by
  have hholder := h.holder_eq hin
  have hfile := h.file_eq
  refine ⟨fun j => ?_, ?_, h.work_eq⟩
  · rcases eq_or_ne j i with rfl | hj
    · simpa using hholder
    · simpa [hj] using h.exclusive j
  · rw [System.unwritten_of_held hholder, hin] at hfile
    simpa [System.unwritten, hholder] using hfile

theorem Orderly.release (h : Orderly lines work s) {i : ι} (hin : s.inside i = some []) :
    Orderly lines work
      { s with holder := none, inside := Function.update s.inside i none } := by
  have hholder := h.holder_eq hin
  have hfile := h.file_eq
  refine ⟨fun j => ?_, ?_, h.work_eq⟩
  · rcases eq_or_ne j i with rfl | hj
    · simp
    · simpa [hj] using h.inside_eq_none fun heq => hj (Option.some.inj (heq.symm.trans hholder))
  · rw [System.unwritten_of_held hholder, hin] at hfile
    simpa [System.unwritten] using hfile

theorem Orderly.take (h : Orderly lines work s) {i : ι} {a : α} {rest : List α}
    (htodo : s.todo i = a :: rest) (hfree : s.holder = none) : Orderly lines work
      { s with
        holder := some i
        inside := Function.update s.inside i (some (lines a))
        todo := Function.update s.todo i rest
        taken := s.taken ++ [(i, a)] } := by
  have hfile := h.file_eq
  refine ⟨fun j => ?_, ?_, fun j => ?_⟩
  · rcases eq_or_ne j i with rfl | hj
    · simp
    · have hout : s.inside j = none := h.inside_eq_none (by simp [hfree])
      simp [hj, hj.symm, hout]
  · rw [System.unwritten_of_free hfree, List.append_nil] at hfile
    simp [System.unwritten, hfile]
  · have hwork := h.work_eq j
    rcases eq_or_ne j i with rfl | hj
    · rw [htodo] at hwork
      simpa using hwork
    · simpa [hj, ofThread_concat_of_ne hj.symm] using hwork

theorem Orderly.step (h : Orderly lines work s) (i : ι) : Orderly lines work (s.step lines i) := by
  unfold System.step
  split
  · exact h.write ‹_›
  · exact h.release ‹_›
  · exact h
  · split_ifs with hfree
    · exact h.take ‹_› hfree
    · exact h

theorem Orderly.run (h : Orderly lines work s) (schedule : List ι) :
    Orderly lines work (s.run lines schedule) := by
  induction schedule generalizing s with
  | nil => exact h
  | cons i schedule ih => exact ih (h.step i)

/-- When all threads are done the file consists of the lines of all work, piece by piece. -/
theorem Orderly.of_finished (h : Orderly lines work s) (hdone : s.Finished) :
    s.file = s.taken.flatMap (lines ·.2) ∧ ∀ i, ofThread i s.taken = work i := by
  have hfile := h.file_eq
  constructor
  · rw [← hfile]
    cases hholder : s.holder with
    | none => rw [System.unwritten_of_free hholder, List.append_nil]
    | some i => rw [System.unwritten_of_held hholder, (hdone i).1, Option.getD_none,
        List.append_nil]
  · intro i
    rw [← h.work_eq i, (hdone i).2, List.append_nil]

end Invariant

section Progress

variable {lines} {work : ι → List α} {s : System ι α V}

/-- How many steps a thread still needs when it never has to wait. -/
def stepsLeft (lines : α → List V) (s : System ι α V) (i : ι) : ℕ :=
  (s.inside i).elim 0 (fun vs => vs.length + 1) +
    (((s.todo i).flatMap lines).length + 2 * (s.todo i).length)

omit [DecidableEq ι] in
theorem stepsLeft_eq_zero_iff (i : ι) :
    stepsLeft lines s i = 0 ↔ s.inside i = none ∧ s.todo i = [] := by
  unfold stepsLeft
  rcases s.inside i with _ | vs <;> rcases s.todo i with _ | ⟨a, rest⟩ <;> simp

variable (lines s) in
theorem stepsLeft_step_of_ne {i j : ι} (h : j ≠ i) :
    stepsLeft lines (s.step lines i) j = stepsLeft lines s j := by
  unfold System.step stepsLeft
  split
  · simp [h]
  · simp [h]
  · rfl
  · split_ifs
    · simp [h]
    · rfl

variable (lines) in
theorem stepsLeft_step (i : ι) (h : s.inside i ≠ none ∨ s.todo i ≠ [] ∧ s.holder = none) :
    stepsLeft lines (s.step lines i) i + 1 = stepsLeft lines s i := by
  unfold System.step
  split
  · rename_i v vs hin
    simp [stepsLeft, hin]
    omega
  · rename_i hin
    simp [stepsLeft, hin]
    omega
  · rename_i hin htodo
    exact absurd h (by simp [hin, htodo])
  · rename_i a rest hin htodo
    have hfree : s.holder = none := (h.resolve_left (not_not.mpr hin)).2
    rw [if_pos hfree]
    simp [stepsLeft, hin, htodo]
    omega

theorem Orderly.exists_ready (h : Orderly lines work s) (hbusy : ¬ s.Finished) :
    ∃ i, s.inside i ≠ none ∨ s.todo i ≠ [] ∧ s.holder = none := by
  cases hholder : s.holder with
  | some i =>
    refine ⟨i, Or.inl ?_⟩
    rw [Option.ne_none_iff_isSome, h.exclusive, hholder]
  | none =>
    unfold System.Finished at hbusy
    obtain ⟨i, hi⟩ := not_forall.mp hbusy
    have hout : s.inside i = none := h.inside_eq_none (by simp [hholder])
    exact ⟨i, Or.inr ⟨fun htodo => hi ⟨hout, htodo⟩, rfl⟩⟩

/-- Whatever has happened so far, the threads can come to an end. -/
theorem Orderly.exists_finished [Fintype ι] (h : Orderly lines work s) :
    ∃ schedule, (s.run lines schedule).Finished := by
  induction hn : ∑ i, stepsLeft lines s i generalizing s with
  | zero =>
    exact ⟨[], fun i => (stepsLeft_eq_zero_iff i).mp ((sum_eq_zero_iff.mp hn) i (mem_univ i))⟩
  | succ n ih =>
    have hbusy : ¬ s.Finished := fun hdone => by
      rw [sum_eq_zero fun i _ => (stepsLeft_eq_zero_iff i).mpr (hdone i)] at hn
      cases hn
    obtain ⟨i, hi⟩ := h.exists_ready hbusy
    have hstep := stepsLeft_step lines i hi
    obtain ⟨schedule, hdone⟩ := ih (h.step i) (by
      rw [← add_sum_erase univ _ (mem_univ i)] at hn ⊢
      rw [sum_congr rfl fun j hj => stepsLeft_step_of_ne lines s (ne_of_mem_erase hj)]
      omega)
    exact ⟨i :: schedule, hdone⟩

variable (lines work) in
theorem exists_finished_start [Fintype ι] (schedule : List ι) :
    ∃ later, ((System.start work).run lines (schedule ++ later)).Finished := by
  have horderly : Orderly lines work _ := orderly_start.run schedule
  obtain ⟨later, hdone⟩ := horderly.exists_finished
  exact ⟨later, by rwa [System.run_append]⟩

end Progress

end Guarded

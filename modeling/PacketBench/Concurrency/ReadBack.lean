import PacketBench.Concurrency.Atomics

/-! # Threads that read a cell last

When each piece of work ends with a read of the same cell, the last read of all
threads comes after all additions. So in every interleaving some thread sees
the final value of the cell.
-/

namespace Atomics

variable {ι C M α : Type*} {c : C} {ops ops' : List (Op C M)}

/-- The last operation, if there is one, reads the cell. -/
def ReadsLast (c : C) (ops : List (Op C M)) : Prop := ∀ op ∈ ops.getLast?, op = .read c

theorem readsLast_nil : ReadsLast c ([] : List (Op C M)) := by
  rintro op ⟨⟩

theorem readsLast_concat (ops : List (Op C M)) : ReadsLast c (ops ++ [.read c]) := by
  intro op hop
  rw [List.getLast?_concat] at hop
  exact (Option.some.inj hop).symm

theorem ReadsLast.append (h : ReadsLast c ops) (h' : ReadsLast c ops') :
    ReadsLast c (ops ++ ops') := by
  intro op hop
  rw [List.getLast?_append] at hop
  rcases Option.or_eq_some_iff.mp hop with hop | ⟨-, hop⟩
  · exact h' op hop
  · exact h op hop

theorem readsLast_flatMap {work : α → List (Op C M)} (h : ∀ a, ReadsLast c (work a)) (l : List α) :
    ReadsLast c (l.flatMap work) := by
  induction l with
  | nil => exact readsLast_nil
  | cons a l ih =>
    rw [List.flatMap_cons]
    exact (h a).append ih

theorem ReadsLast.of_cons {op : Op C M} (h : ReadsLast c (op :: ops)) : ReadsLast c ops := by
  intro last hlast
  apply h last
  cases ops with
  | nil => cases hlast
  | cons _ _ => rwa [List.getLast?_cons_cons]

/-- Some thread still has work, or some thread has seen what the cell holds. -/
def Seen (c : C) (s : System ι C M) : Prop :=
  (∃ i, s.todo i ≠ []) ∨ ∃ i, (i, s.mem c) ∈ s.log

variable {s : System ι C M}

theorem Seen.of_finished (hseen : Seen c s) (hdone : s.Finished) : ∃ i, (i, s.mem c) ∈ s.log := by
  rcases hseen with ⟨i, hi⟩ | hlog
  · exact absurd (hdone i) hi
  · exact hlog

section Run

variable [DecidableEq ι] [DecidableEq C] [Add M]

theorem readsLast_step (h : ∀ i, ReadsLast c (s.todo i)) (i j : ι) :
    ReadsLast c ((s.step i).todo j) := by
  rcases eq_or_ne j i with rfl | hj
  · rcases htodo : s.todo j with _ | ⟨op, ops⟩
    · rw [System.step_nil htodo]
      exact h j
    · rw [System.todo_step_self htodo]
      exact (htodo ▸ h j).of_cons
  · rw [System.todo_step_of_ne s hj]
    exact h j

theorem Seen.step (hseen : Seen c s) (h : ∀ i, ReadsLast c (s.todo i)) (i : ι) :
    Seen c (s.step i) := by
  rcases htodo : s.todo i with _ | ⟨op, ops⟩
  · rwa [System.step_nil htodo]
  · cases ops with
    | cons op' ops =>
      left
      refine ⟨i, ?_⟩
      rw [System.todo_step_self htodo]
      exact List.cons_ne_nil op' ops
    | nil =>
      right
      obtain rfl : op = .read c := h i op (by rw [htodo]; rfl)
      refine ⟨i, ?_⟩
      rw [System.mem_step_read htodo, System.log_step_read htodo]
      exact List.mem_cons_self

theorem Seen.run (hseen : Seen c s) (h : ∀ i, ReadsLast c (s.todo i)) (schedule : List ι) :
    Seen c (s.run schedule) := by
  induction schedule generalizing s with
  | nil => exact hseen
  | cons i schedule ih => exact ih (hseen.step h i) (readsLast_step h i)

end Run

section Arrivals

variable [DecidableEq ι] {work : α → List (Op C M)} {arrivals : List (ι × α)}

theorem seen_start [Zero M] (hwork : ∃ a ∈ arrivals, work a.2 ≠ []) :
    Seen c (start work arrivals) := by
  obtain ⟨⟨i, a⟩, hmem, hne⟩ := hwork
  left
  refine ⟨i, fun hnil => hne ?_⟩
  have hpiece := List.flatMap_eq_nil_iff.mp hnil
  exact hpiece (i, a) (List.mem_filter.mpr ⟨hmem, decide_eq_true rfl⟩)

/-- In every interleaving some thread sees the final value of the cell. -/
theorem exists_log_of_finished [DecidableEq C] [AddCommMonoid M] (h : ∀ a, ReadsLast c (work a))
    (hwork : ∃ a ∈ arrivals, work a.2 ≠ []) {schedule : List ι}
    (hdone : ((start work arrivals).run schedule).Finished) :
    ∃ i, (i, ((start work arrivals).run schedule).mem c) ∈
      ((start work arrivals).run schedule).log := by
  have hseen : Seen c (start work arrivals) := seen_start hwork
  exact (hseen.run (fun _ => readsLast_flatMap (fun _ => h _) _) schedule).of_finished hdone

end Arrivals

end Atomics

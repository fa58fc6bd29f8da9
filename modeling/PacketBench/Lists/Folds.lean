import Mathlib.Data.List.Basic
import Mathlib.Logic.Function.Basic

/-! # Folds over runs

A condition on one step can be asked of all steps of a fold. If each selected
element overwrites what is seen of the state and no other element changes it,
the last selected element is seen at the end. If each step takes the head off one
of many queues, a queue is shorter by the number of its steps.
-/

namespace Lists

variable {α σ β : Type} {step : σ → α → σ} {cond cond' : σ → α → Prop}

/-- The condition holds of every step of the fold. -/
def Along (step : σ → α → σ) (cond : σ → α → Prop) : σ → List α → Prop
  | _, [] => True
  | s, x :: xs => cond s x ∧ Along step cond (step s x) xs

theorem along_of_forall (h : ∀ s x, cond s x) (s : σ) (xs : List α) : Along step cond s xs := by
  induction xs generalizing s with
  | nil => trivial
  | cons x xs ih => exact ⟨h s x, ih (step s x)⟩

theorem Along.imp {s : σ} {xs : List α} (hall : Along step cond s xs)
    (h : ∀ s x, cond s x → cond' s x) : Along step cond' s xs := by
  induction xs generalizing s with
  | nil => trivial
  | cons x xs ih => exact ⟨h s x hall.1, ih hall.2⟩

/-- An invariant that the condition preserves holds at the end, and may be used at every step. -/
theorem Along.invariant {P : σ → Prop} {s : σ} {xs : List α} (hall : Along step cond s xs)
    (hs : P s) (h : ∀ s x, P s → cond s x → P (step s x) ∧ cond' s x) :
    P (xs.foldl step s) ∧ Along step cond' s xs := by
  induction xs generalizing s with
  | nil => exact ⟨hs, trivial⟩
  | cons x xs ih =>
    obtain ⟨hx, hxs⟩ := hall
    obtain ⟨hnext, hcond⟩ := h s x hs hx
    obtain ⟨hend, hrest⟩ := ih hxs hnext
    exact ⟨hend, hcond, hrest⟩

section Last

variable {sel : α → Prop} [DecidablePred sel] {view : σ → β} {val : α → β}

/-- What a selected element shows is seen afterwards, and nothing else changes the view. -/
def Shows (step : σ → α → σ) (sel : α → Prop) (view : σ → β) (val : α → β) (s : σ) (x : α) :
    Prop :=
  (sel x → view (step s x) = val x) ∧ (¬ sel x → view (step s x) = view s)

/-- The last selected element of a list, and what there was before. -/
theorem foldl_last {s : σ} {xs : List α} (h : Along step (Shows step sel view val) s xs) :
    view (xs.foldl step s) = ((xs.filter (sel ·)).getLast?.map val).getD (view s) := by
  induction xs generalizing s with
  | nil => rfl
  | cons x xs ih =>
    obtain ⟨⟨hset, hkeep⟩, hxs⟩ := h
    rw [List.foldl_cons, ih hxs]
    by_cases hx : sel x
    · rw [List.filter_cons_of_pos (by simpa using hx), List.getLast?_cons, hset hx]
      cases (xs.filter (sel ·)).getLast? <;> rfl
    · rw [List.filter_cons_of_neg (by simpa using hx), hkeep hx]

end Last

theorem queue_foldl {ι α σ : Type*} [DecidableEq ι] {step : σ → ι → σ} {queue : σ → ι → List α}
    (h : ∀ s i, queue (step s i) = Function.update (queue s) i (queue s i).tail)
    (schedule : List ι) (s : σ) (i : ι) :
    queue (schedule.foldl step s) i = (queue s i).drop (schedule.count i) := by
  induction schedule generalizing s with
  | nil => rfl
  | cons j schedule ih =>
    rw [List.foldl_cons, ih, h]
    rcases eq_or_ne i j with rfl | hij
    · rw [Function.update_self, List.count_cons_self, List.drop_tail]
    · rw [Function.update_of_ne hij, List.count_cons_of_ne hij.symm]

end Lists

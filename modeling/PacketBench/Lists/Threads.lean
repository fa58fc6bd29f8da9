import Mathlib.Algebra.BigOperators.Group.Finset.Basic
import Mathlib.Data.Fintype.Basic

/-! # What belongs to a thread

In a list of entries that are tagged with a thread, the entries of one thread
keep their order, and what is summed over the threads is summed over the list.
-/

namespace Lists

open Finset

variable {ι γ : Type*} [DecidableEq ι]

def ofThread (i : ι) (l : List (ι × γ)) : List γ := (l.filter (·.1 = i)).map Prod.snd

@[simp] theorem ofThread_nil (i : ι) : ofThread i ([] : List (ι × γ)) = [] := rfl

@[simp] theorem ofThread_cons_self (i : ι) (c : γ) (l : List (ι × γ)) :
    ofThread i ((i, c) :: l) = c :: ofThread i l := by simp [ofThread]

theorem ofThread_cons_of_ne {i j : ι} (h : j ≠ i) (c : γ) (l : List (ι × γ)) :
    ofThread i ((j, c) :: l) = ofThread i l := by simp [ofThread, h]

@[simp] theorem ofThread_append (i : ι) (l l' : List (ι × γ)) :
    ofThread i (l ++ l') = ofThread i l ++ ofThread i l' := by simp [ofThread]

theorem ofThread_singleton_of_ne {i j : ι} (h : j ≠ i) (c : γ) : ofThread i [(j, c)] = [] :=
  ofThread_cons_of_ne h c []

theorem ofThread_concat_of_ne {i j : ι} (h : j ≠ i) (c : γ) (l : List (ι × γ)) :
    ofThread i (l ++ [(j, c)]) = ofThread i l := by
  rw [ofThread_append, ofThread_singleton_of_ne h, List.append_nil]

theorem sum_ofThread [Fintype ι] {N : Type*} [AddCommMonoid N] (f : γ → N) (l : List (ι × γ)) :
    ∑ i, ((ofThread i l).map f).sum = (l.map (f ·.2)).sum := by
  induction l with
  | nil => exact sum_eq_zero fun i _ => rfl
  | cons x l ih =>
    obtain ⟨j, c⟩ := x
    rw [List.map_cons, List.sum_cons, ← ih, ← add_sum_erase univ _ (mem_univ j),
      ← add_sum_erase univ (fun i => ((ofThread i l).map f).sum) (mem_univ j), ← add_assoc]
    congr 1
    · simp
    · exact sum_congr rfl fun i hi => by rw [ofThread_cons_of_ne (ne_of_mem_erase hi).symm]

end Lists

import PacketBench.Lists.Folds
import Mathlib.Data.Finset.Card
import Mathlib.Data.Finset.Dedup
import Mathlib.Data.Fintype.Basic
import Mathlib.Logic.Function.Basic

/-! # Threads with atomic stores

Threads work off lists of stores to shared cells, and a schedule names the
thread of each step. When all threads are done a cell holds the value of one of
the stores to it. Threads that each store a whole array, cell by cell in the
same order, can leave any mixture of the arrays; a thread that starts after all
others are done leaves its own.
-/

namespace Stores

variable {ι C M : Type*}

structure System (ι C M : Type*) where
  mem : C → M
  todo : ι → List (C × M)

variable [DecidableEq ι] [DecidableEq C]

namespace System

def step (s : System ι C M) (i : ι) : System ι C M :=
  match s.todo i with
  | [] => s
  | (c, v) :: rest =>
    { mem := Function.update s.mem c v, todo := Function.update s.todo i rest }

def run (s : System ι C M) (schedule : List ι) : System ι C M := schedule.foldl step s

def Finished (s : System ι C M) : Prop := ∀ i, s.todo i = []

variable {s : System ι C M} {i : ι} {c : C} {v : M} {rest : List (C × M)}

@[simp] theorem run_nil (s : System ι C M) : s.run [] = s := rfl

@[simp] theorem run_cons (s : System ι C M) (i : ι) (schedule : List ι) :
    s.run (i :: schedule) = (s.step i).run schedule := rfl

theorem run_append (s : System ι C M) (schedule schedule' : List ι) :
    s.run (schedule ++ schedule') = (s.run schedule).run schedule' := List.foldl_append

theorem step_nil (h : s.todo i = []) : s.step i = s := by
  unfold step
  rw [h]

theorem step_cons (h : s.todo i = (c, v) :: rest) : s.step i =
    { mem := Function.update s.mem c v, todo := Function.update s.todo i rest } := by
  unfold step
  rw [h]

theorem mem_step_cons (h : s.todo i = (c, v) :: rest) :
    (s.step i).mem = Function.update s.mem c v := by rw [step_cons h]

theorem todo_step (s : System ι C M) (i : ι) :
    (s.step i).todo = Function.update s.todo i (s.todo i).tail := by
  rcases h : s.todo i with _ | ⟨⟨c, v⟩, rest⟩
  · rw [step_nil h, List.tail_nil, ← h, Function.update_eq_self]
  · rw [step_cons h, List.tail_cons]

theorem todo_run (s : System ι C M) (schedule : List ι) (i : ι) :
    (s.run schedule).todo i = (s.todo i).drop (schedule.count i) :=
  Lists.queue_foldl todo_step schedule s i

theorem todo_run_of_notMem (s : System ι C M) {schedule : List ι} (h : i ∉ schedule) :
    (s.run schedule).todo i = s.todo i := by
  rw [todo_run, List.count_eq_zero.mpr h, List.drop_zero]

theorem mem_todo_of_step {j : ι} {x : C × M} (h : x ∈ (s.step i).todo j) : x ∈ s.todo j := by
  rw [todo_step] at h
  rcases eq_or_ne j i with rfl | hne
  · rw [Function.update_self] at h
    exact List.mem_of_mem_tail h
  · rwa [Function.update_of_ne hne] at h

theorem mem_step (s : System ι C M) (i : ι) (c : C) :
    (s.step i).mem c = s.mem c ∨ (c, (s.step i).mem c) ∈ s.todo i := by
  rcases h : s.todo i with _ | ⟨⟨c', v⟩, rest⟩
  · left
    rw [step_nil h]
  · rcases eq_or_ne c c' with rfl | hne
    · right
      rw [mem_step_cons h, Function.update_self]
      exact List.mem_cons_self
    · left
      rw [mem_step_cons h, Function.update_of_ne hne]

theorem mem_run (s : System ι C M) (schedule : List ι) (c : C) :
    (s.run schedule).mem c = s.mem c ∨ ∃ i, (c, (s.run schedule).mem c) ∈ s.todo i := by
  induction schedule generalizing s with
  | nil => exact Or.inl rfl
  | cons i schedule ih =>
    rw [run_cons]
    rcases ih (s.step i) with hkept | ⟨j, hj⟩
    · rw [hkept]
      exact (mem_step s i c).imp_right fun h => ⟨i, h⟩
    · exact Or.inr ⟨j, mem_todo_of_step hj⟩

theorem mem_run_or_pending (schedule : List ι) (h : (c, v) ∈ s.todo i) :
    (∃ j, (c, (s.run schedule).mem c) ∈ s.todo j) ∨ (c, v) ∈ (s.run schedule).todo i := by
  induction schedule generalizing s with
  | nil => exact Or.inr h
  | cons k schedule ih =>
    rw [run_cons]
    by_cases hnext : (c, v) ∈ (s.step k).todo i
    · exact (ih hnext).imp_left fun ⟨j, hj⟩ => ⟨j, mem_todo_of_step hj⟩
    · have hstored : (c, (s.step k).mem c) ∈ s.todo k := by
        rw [todo_step] at hnext
        obtain rfl : i = k := by
          by_contra hne
          rw [Function.update_of_ne hne] at hnext
          exact hnext h
        rw [Function.update_self] at hnext
        rcases htodo : s.todo i with _ | ⟨x, rest⟩
        · rw [htodo] at h
          cases h
        · rw [htodo, List.tail_cons] at hnext
          rw [htodo] at h
          obtain rfl : (c, v) = x := (List.mem_cons.mp h).resolve_right hnext
          rw [mem_step_cons htodo, Function.update_self]
          exact List.mem_cons_self
      left
      rcases mem_run (s.step k) schedule c with hkept | ⟨j, hj⟩
      · rw [hkept]
        exact ⟨k, hstored⟩
      · exact ⟨j, mem_todo_of_step hj⟩

/-- When all threads are done, a cell holds the value of one of the stores to it. -/
theorem mem_of_finished {schedule : List ι} (hdone : (s.run schedule).Finished)
    (h : (c, v) ∈ s.todo i) : ∃ j, (c, (s.run schedule).mem c) ∈ s.todo j := by
  refine (mem_run_or_pending schedule h).resolve_right ?_
  rw [hdone i]
  exact List.not_mem_nil

theorem mem_of_last {before after : List ι} (hlast : i ∉ before)
    (hothers : ∀ j ≠ i, (s.run before).todo j = [])
    (hdone : (s.run (before ++ after)).Finished) (h : (c, v) ∈ s.todo i) :
    (c, (s.run (before ++ after)).mem c) ∈ s.todo i := by
  rw [← todo_run_of_notMem s hlast] at h ⊢
  rw [run_append] at hdone ⊢
  obtain ⟨j, hj⟩ := mem_of_finished hdone h
  rcases eq_or_ne j i with rfl | hne
  · exact hj
  · rw [hothers j hne] at hj
    cases hj

theorem mem_run_of_heads {threads : List ι} (hnodup : threads.Nodup)
    (h : ∀ i ∈ threads, ∃ v rest, s.todo i = (c, v) :: rest) {c' : C} (hne : c' ≠ c) :
    (s.run threads).mem c' = s.mem c' := by
  induction threads generalizing s with
  | nil => rfl
  | cons i threads ih =>
    obtain ⟨hi, hnodup⟩ := List.nodup_cons.mp hnodup
    obtain ⟨v, rest, htodo⟩ := h i List.mem_cons_self
    have hnext : ∀ j ∈ threads, ∃ v rest, (s.step i).todo j = (c, v) :: rest := by
      intro j hj
      rw [todo_step, Function.update_of_ne (ne_of_mem_of_not_mem hj hi)]
      exact h j (List.mem_cons_of_mem _ hj)
    rw [run_cons, ih hnodup hnext, mem_step_cons htodo, Function.update_of_ne hne]

end System

section Arrays

def storesFrom (k n : ℕ) (a : ℕ → M) : List (ℕ × M) := (List.range' k n).map fun c => (c, a c)

/-- Each thread is going to store the first `n` entries of its array. -/
def start (mem : ℕ → M) (n : ℕ) (a : ι → ℕ → M) : System ι ℕ M :=
  ⟨mem, fun i => storesFrom 0 n (a i)⟩

theorem mem_storesFrom {k n c : ℕ} {a : ℕ → M} {v : M} :
    (c, v) ∈ storesFrom k n a ↔ (k ≤ c ∧ c < k + n) ∧ v = a c := by
  unfold storesFrom
  rw [List.mem_map, ← List.mem_range'_1]
  constructor
  · rintro ⟨c', hc', heq⟩
    obtain ⟨rfl, rfl⟩ := Prod.mk.inj heq
    exact ⟨hc', rfl⟩
  · rintro ⟨hc, rfl⟩
    exact ⟨c, hc, rfl⟩

variable {a : ι → ℕ → M}

/-- All threads store the same cell in turn, the chosen one last, and so on for the next cell. -/
theorem exists_run_storesFrom [Fintype ι] (choice : ℕ → ι) {k n : ℕ} {s : System ι ℕ M}
    (h : ∀ i, s.todo i = storesFrom k n (a i)) : ∃ schedule, (s.run schedule).Finished ∧
      ∀ c, (s.run schedule).mem c = if k ≤ c ∧ c < k + n then a (choice c) c else s.mem c := by
  induction n generalizing k s with
  | zero =>
    refine ⟨[], h, fun c => ?_⟩
    rw [if_neg (by omega), System.run_nil]
  | succ n ih =>
    classical
    let others := (Finset.univ : Finset ι).toList.erase (choice k)
    have hnodup : (Finset.univ : Finset ι).toList.Nodup := Finset.nodup_toList _
    have hlast : choice k ∉ others := hnodup.not_mem_erase
    have hheads : ∀ i, s.todo i = (k, a i k) :: storesFrom (k + 1) n (a i) := by
      intro i
      rw [h, storesFrom, List.range'_succ, List.map_cons, storesFrom]
    have hround : ∀ i, (s.run (others ++ [choice k])).todo i = storesFrom (k + 1) n (a i) := by
      intro i
      have hperm : (others ++ [choice k]).Perm (Finset.univ : Finset ι).toList :=
        (List.perm_append_singleton _ _).trans
          (List.perm_cons_erase (Finset.mem_toList.mpr (Finset.mem_univ _))).symm
      rw [System.todo_run, hperm.count_eq,
        List.count_eq_one_of_mem hnodup (Finset.mem_toList.mpr (Finset.mem_univ i)), hheads]
      rfl
    have hmem : (s.run (others ++ [choice k])).mem =
        Function.update (s.run others).mem k (a (choice k) k) := by
      rw [System.run_append]
      exact System.mem_step_cons ((System.todo_run_of_notMem s hlast).trans (hheads _))
    obtain ⟨schedule, hdone, hrest⟩ := ih hround
    refine ⟨(others ++ [choice k]) ++ schedule, by rwa [System.run_append], fun c => ?_⟩
    rw [System.run_append, hrest, hmem]
    rcases eq_or_ne c k with rfl | hne
    · rw [if_neg (by omega), if_pos (by omega), Function.update_self]
    · rw [Function.update_of_ne hne, System.mem_run_of_heads (hnodup.erase _)
        (fun i _ => ⟨_, _, hheads i⟩) hne]
      by_cases hc : k + 1 ≤ c ∧ c < k + 1 + n
      · rw [if_pos hc, if_pos (by omega)]
      · rw [if_neg hc, if_neg (by omega)]

/-- The memories that the interleavings leave are the mixtures of the arrays. -/
theorem exists_run_start_iff [Fintype ι] [Nonempty ι] (mem mem' : ℕ → M) (n : ℕ) :
    (∃ schedule, ((start mem n a).run schedule).Finished ∧
        ((start mem n a).run schedule).mem = mem') ↔
      (∀ c < n, ∃ i, mem' c = a i c) ∧ ∀ c, n ≤ c → mem' c = mem c := by
  constructor
  · rintro ⟨schedule, hdone, rfl⟩
    constructor
    · intro c hc
      obtain ⟨i⟩ := ‹Nonempty ι›
      obtain ⟨j, hj⟩ := System.mem_of_finished hdone
        (mem_storesFrom.mpr ⟨⟨Nat.zero_le c, by omega⟩, rfl⟩ : (c, a i c) ∈ (start mem n a).todo i)
      exact ⟨j, (mem_storesFrom.mp hj).2⟩
    · intro c hc
      refine (System.mem_run (start mem n a) schedule c).resolve_right ?_
      rintro ⟨i, hi⟩
      have hlt := (mem_storesFrom.mp hi).1.2
      omega
  · rintro ⟨hmixed, hkept⟩
    have hchoice : ∀ c, ∃ i, c < n → mem' c = a i c := by
      intro c
      by_cases hc : c < n
      · obtain ⟨i, hi⟩ := hmixed c hc
        exact ⟨i, fun _ => hi⟩
      · exact ⟨Classical.arbitrary ι, fun h => absurd h hc⟩
    choose choice hchoice using hchoice
    obtain ⟨schedule, hdone, hrun⟩ := exists_run_storesFrom choice
      (fun i => rfl : ∀ i, (start mem n a).todo i = storesFrom 0 n (a i))
    refine ⟨schedule, hdone, funext fun c => ?_⟩
    rw [hrun]
    by_cases hc : c < n
    · rw [if_pos (by omega), hchoice c hc]
    · rw [if_neg (by omega), hkept c (Nat.le_of_not_lt hc)]
      rfl

theorem mem_start_of_last {mem : ℕ → M} {n c : ℕ} {before after : List ι} {i : ι}
    (hlast : i ∉ before) (hothers : ∀ j ≠ i, ((start mem n a).run before).todo j = [])
    (hdone : ((start mem n a).run (before ++ after)).Finished) (hc : c < n) :
    ((start mem n a).run (before ++ after)).mem c = a i c := by
  have hstore : (c, a i c) ∈ (start mem n a).todo i :=
    mem_storesFrom.mpr ⟨⟨Nat.zero_le c, by omega⟩, rfl⟩
  exact (mem_storesFrom.mp (System.mem_of_last hlast hothers hdone hstore)).2

end Arrays

end Stores

import PacketBench.Concurrency.Atomics
import Mathlib.Algebra.GroupWithZero.Nat
import Mathlib.Data.Nat.Cast.Defs

/-! # Counting and reading back

Threads add one to a common counter and read the counter back later on. The
value that a thread's own addition leaves is its ticket, and the tickets are
the numbers from one on, each taken once. A test on the value read back is a
test on the ticket as long as the additions in between do not change its
outcome. In such a run the test succeeds once for each ticket that passes it.
-/

namespace Atomics

open Finset

variable {ι C M α : Type*}

section Operations

variable [One M] {c : C} {ops : List (Op C M)}

/-- Operations that read a cell back after each ticket they take there, and only then. -/
inductive TakesTickets (c : C) : List (Op C M) → Prop
  | nil : TakesTickets c []
  | other {c' : C} {v : M} {ops : List (Op C M)} :
      c' ≠ c → TakesTickets c ops → TakesTickets c (.add c' v :: ops)
  | ticket {ops : List (Op C M)} : TakesTickets c ops → TakesTickets c (.add c 1 :: .read c :: ops)

theorem TakesTickets.append {ops' : List (Op C M)} (h : TakesTickets c ops)
    (h' : TakesTickets c ops') : TakesTickets c (ops ++ ops') := by
  induction h with
  | nil => exact h'
  | other hc _ ih => exact .other hc ih
  | ticket _ ih => exact .ticket ih

theorem takesTickets_flatMap {ops : α → List (Op C M)} (h : ∀ a, TakesTickets c (ops a))
    (l : List α) : TakesTickets c (l.flatMap ops) := by
  induction l with
  | nil => exact .nil
  | cons a l ih =>
    rw [List.flatMap_cons]
    exact (h a).append ih

/-- Between two tickets, or about to read the cell back. -/
def InTurn (c : C) (ops : List (Op C M)) : Prop :=
  TakesTickets c ops ∨ ∃ ops', ops = .read c :: ops' ∧ TakesTickets c ops'

def Reads (c : C) (ops : List (Op C M)) : Prop := ops.head? = some (.read c)

theorem TakesTickets.not_reads (h : TakesTickets c ops) : ¬ Reads c ops := by
  rw [Reads]
  cases h <;> simp

variable [DecidableEq C] [DecidableEq M]

instance (c : C) : DecidablePred (Reads (M := M) c) := fun ops =>
  inferInstanceAs (Decidable (ops.head? = some (.read c)))

/-- How many tickets a list of operations takes. -/
def ticketsIn (c : C) (ops : List (Op C M)) : ℕ := ops.count (.add c 1)

@[simp] theorem ticketsIn_nil (c : C) : ticketsIn c ([] : List (Op C M)) = 0 := rfl

theorem ticketsIn_append (c : C) (ops ops' : List (Op C M)) :
    ticketsIn c (ops ++ ops') = ticketsIn c ops + ticketsIn c ops' := List.count_append

@[simp] theorem ticketsIn_read (c c' : C) (ops : List (Op C M)) :
    ticketsIn c (.read c' :: ops) = ticketsIn c ops := List.count_cons_of_ne (by simp)

@[simp] theorem ticketsIn_add (c : C) (ops : List (Op C M)) :
    ticketsIn c (.add c 1 :: ops) = ticketsIn c ops + 1 := List.count_cons_self

theorem ticketsIn_add_of_ne {c' : C} (h : c' ≠ c) (v : M) (ops : List (Op C M)) :
    ticketsIn c (.add c' v :: ops) = ticketsIn c ops := List.count_cons_of_ne (by simp [h])

end Operations

section Hits

variable (p : M → Prop) [DecidablePred p]

/-- How many of the values read pass the test. -/
def hits (log : List (ι × M)) : ℕ := log.countP (p ·.2)

theorem hits_cons (x : ι × M) (log : List (ι × M)) :
    hits p (x :: log) = hits p log + if p x.2 then 1 else 0 := by
  unfold hits
  rw [List.countP_cons]
  simp only [decide_eq_true_eq]

/-- How many of the first `k` tickets pass the test. -/
def passing [AddMonoidWithOne M] (k : ℕ) : ℕ := (List.range k).countP fun t => p (t + 1 : ℕ)

theorem passing_succ [AddMonoidWithOne M] (k : ℕ) :
    passing p (k + 1) = passing p k + if p (k + 1 : ℕ) then 1 else 0 := by
  unfold passing
  rw [List.range_succ, List.countP_append, List.countP_singleton]
  simp only [decide_eq_true_eq]

variable [DecidableEq C] [DecidableEq M] [One M]

/-- A thread whose ticket passes the test is about to read the cell. -/
def owed (c : C) (s : System ι C M) (i : ι) : ℕ :=
  if Reads c (s.todo i) ∧ p (s.last i) then 1 else 0

theorem owed_of_takesTickets {c : C} {s : System ι C M} {i : ι} (h : TakesTickets c (s.todo i)) :
    owed p c s i = 0 := if_neg fun hr => h.not_reads hr.1

end Hits

section Steady

variable [DecidableEq ι] [DecidableEq C] [AddCommMonoidWithOne M] [DecidableEq M]
  (p : M → Prop) [DecidablePred p]

/-- Whenever a thread of the schedule reads the cell, the test has the same outcome as on the
ticket of the thread. -/
def Steady (c : C) (s : System ι C M) : List ι → Prop
  | [] => True
  | i :: schedule => (Reads c (s.todo i) → (p (s.mem c) ↔ p (s.last i))) ∧
      Steady c (s.step i) schedule

omit [DecidableEq M] [DecidablePred p] in
variable {p} in
theorem steady_append {c : C} {s : System ι C M} {schedule schedule' : List ι} :
    Steady p c s (schedule ++ schedule') ↔
      Steady p c s schedule ∧ Steady p c (s.run schedule) schedule' := by
  induction schedule generalizing s with
  | nil => exact (iff_of_eq (true_and _)).symm
  | cons i schedule ih =>
    rw [List.cons_append, Steady, Steady, ih, and_assoc, System.run_cons]

variable [Fintype ι]

/-- After `k` of `N` tickets: each ticket that passes the test has had its hit or still waits for
it. -/
structure Balanced (c : C) (N : ℕ) (s : System ι C M) (k : ℕ) : Prop where
  turns : ∀ i, InTurn c (s.todo i)
  count : s.mem c = k
  left : k + ∑ i, ticketsIn c (s.todo i) = N
  paid : hits p s.log + ∑ i, owed p c s i = passing p k

variable {p} {c : C} {s : System ι C M} {i : ι} {N k : ℕ}

theorem sum_exchange {f g : ι → ℕ} (h : ∀ j ≠ i, f j = g j) :
    f i + ∑ j, g j = g i + ∑ j, f j := by
  rw [← add_sum_erase univ f (mem_univ i), ← add_sum_erase univ g (mem_univ i),
    sum_congr rfl fun j hj => h j (ne_of_mem_erase hj), Nat.add_left_comm]

theorem Balanced.of_step (h : Balanced p c N s k) {k' : ℕ}
    (hturn : InTurn c ((s.step i).todo i))
    (hcount : (s.step i).mem c = k')
    (hleft : k' + ticketsIn c ((s.step i).todo i) = k + ticketsIn c (s.todo i))
    (hpaid : hits p (s.step i).log + owed p c (s.step i) i + passing p k =
      hits p s.log + owed p c s i + passing p k') : Balanced p c N (s.step i) k' := by
  have htickets := sum_exchange (i := i) (f := fun j => ticketsIn c ((s.step i).todo j))
    (g := fun j => ticketsIn c (s.todo j)) fun j hj => by rw [System.todo_step_of_ne s hj]
  have howed := sum_exchange (i := i) (f := owed p c (s.step i)) (g := owed p c s)
    fun j hj => by rw [owed, System.todo_step_of_ne s hj, System.last_step_of_ne s hj, owed]
  have hN := h.left
  have hpassing := h.paid
  refine ⟨fun j => ?_, hcount, by omega, by omega⟩
  rcases eq_or_ne j i with rfl | hj
  · exact hturn
  · rw [System.todo_step_of_ne s hj]
    exact h.turns j

theorem Balanced.step_other (h : Balanced p c N s k) {c' : C} {v : M} {ops : List (Op C M)}
    (htodo : s.todo i = .add c' v :: ops) (hc : c' ≠ c) (hops : TakesTickets c ops) :
    Balanced p c N (s.step i) k := by
  have hself := System.todo_step_self htodo
  have hnext : TakesTickets c ((s.step i).todo i) := hself.symm ▸ hops
  refine h.of_step (.inl hnext) ?_ ?_ ?_
  · rw [System.mem_step_add htodo, Function.update_of_ne hc.symm, h.count]
  · rw [hself, htodo, ticketsIn_add_of_ne hc]
  · have hthis : TakesTickets c (s.todo i) := htodo.symm ▸ .other hc hops
    rw [System.log_step_add htodo, owed_of_takesTickets p hnext, owed_of_takesTickets p hthis]

theorem Balanced.step_ticket (h : Balanced p c N s k) {ops : List (Op C M)}
    (htodo : s.todo i = .add c 1 :: .read c :: ops) (hops : TakesTickets c ops) :
    Balanced p c N (s.step i) (k + 1) := by
  have hself := System.todo_step_self htodo
  have hvalue : s.mem c + 1 = (k + 1 : ℕ) := by rw [h.count, Nat.cast_succ]
  refine h.of_step (.inr ⟨ops, hself, hops⟩) ?_ ?_ ?_
  · rw [System.mem_step_add htodo, Function.update_self, hvalue]
  · rw [hself, htodo, ticketsIn_add, ticketsIn_read]
    omega
  · have hthis : TakesTickets c (s.todo i) := htodo.symm ▸ .ticket hops
    have hreads : Reads c ((s.step i).todo i) := by rw [hself]; rfl
    have hlast : (s.step i).last i = (k + 1 : ℕ) := by
      rw [System.last_step_add htodo, Function.update_self, hvalue]
    rw [System.log_step_add htodo, owed_of_takesTickets p hthis, passing_succ, owed, hlast]
    simp only [hreads, true_and]
    omega

theorem Balanced.step_read (h : Balanced p c N s k) {ops : List (Op C M)}
    (htodo : s.todo i = .read c :: ops) (hops : TakesTickets c ops)
    (hsteady : p (s.mem c) ↔ p (s.last i)) : Balanced p c N (s.step i) k := by
  have hself := System.todo_step_self htodo
  have hnext : TakesTickets c ((s.step i).todo i) := hself.symm ▸ hops
  have hreads : Reads c (s.todo i) := by rw [htodo]; rfl
  refine h.of_step (.inl hnext) ?_ ?_ ?_
  · rw [System.mem_step_read htodo, h.count]
  · rw [hself, htodo, ticketsIn_read]
  · rw [System.log_step_read htodo, hits_cons, owed_of_takesTickets p hnext, owed]
    simp only [hreads, hsteady, true_and, add_zero]

theorem Balanced.step (h : Balanced p c N s k) (i : ι)
    (hsteady : Reads c (s.todo i) → (p (s.mem c) ↔ p (s.last i))) :
    ∃ k', Balanced p c N (s.step i) k' := by
  rcases h.turns i with hturns | ⟨ops, htodo, hops⟩
  · generalize htodo : s.todo i = todo at hturns
    cases hturns with
    | nil =>
      rw [System.step_nil htodo]
      exact ⟨k, h⟩
    | other hc hops => exact ⟨k, h.step_other htodo hc hops⟩
    | ticket hops => exact ⟨k + 1, h.step_ticket htodo hops⟩
  · have hreads : Reads c (s.todo i) := by rw [htodo]; rfl
    exact ⟨k, h.step_read htodo hops (hsteady hreads)⟩

theorem Balanced.run {schedule : List ι} (h : Balanced p c N s k)
    (hsteady : Steady p c s schedule) : ∃ k', Balanced p c N (s.run schedule) k' := by
  induction schedule generalizing s k with
  | nil => exact ⟨k, h⟩
  | cons i schedule ih =>
    obtain ⟨k', hstep⟩ := h.step i hsteady.1
    exact ih hstep hsteady.2

omit [DecidableEq ι] in
/-- In the end each ticket that passes the test has had its hit. -/
theorem Balanced.hits_of_finished (h : Balanced p c N s k) (hdone : s.Finished) :
    hits p s.log = passing p N := by
  have htickets : ∑ i, ticketsIn c (s.todo i) = 0 :=
    sum_eq_zero fun i _ => by rw [hdone i, ticketsIn_nil]
  have howed : ∑ i, owed p c s i = 0 := by
    refine sum_eq_zero fun i _ => owed_of_takesTickets p ?_
    rw [hdone i]
    exact .nil
  have hN := h.left
  have hpaid := h.paid
  rw [htickets, Nat.add_zero] at hN
  rw [howed, Nat.add_zero, hN] at hpaid
  exact hpaid

theorem balanced_start {ops : α → List (Op C M)} (h : ∀ a, TakesTickets c (ops a))
    (arrivals : List (ι × α)) : Balanced p c (arrivals.map fun a => ticketsIn c (ops a.2)).sum
      (start ops arrivals) 0 := by
  have hturns : ∀ i, TakesTickets c ((start ops arrivals).todo i) :=
    fun i => takesTickets_flatMap (fun a : ι × α => h a.2) _
  refine ⟨fun i => .inl (hturns i), Nat.cast_zero.symm, ?_, ?_⟩
  · rw [Nat.zero_add]
    exact sum_program ops arrivals (ticketsIn_nil c) (ticketsIn_append c)
  · rw [sum_eq_zero fun i _ => owed_of_takesTickets p (hturns i)]
    rfl

end Steady

section Replicate

variable [DecidableEq ι] [DecidableEq C] [AddCommMonoidWithOne M] {p : M → Prop} {c : C}
  {s : System ι C M} {i : ι}

theorem steady_replicate (hturn : InTurn c (s.todo i))
    (hlast : Reads c (s.todo i) → s.last i = s.mem c) (m : ℕ) :
    Steady p c s (List.replicate m i) := by
  induction m generalizing s with
  | zero => trivial
  | succ m ih =>
    refine ⟨fun hreads => by rw [hlast hreads], ?_⟩
    rcases hturn with hturns | ⟨ops, htodo, hops⟩
    · generalize htodo : s.todo i = todo at hturns
      cases hturns with
      | nil =>
        rw [System.step_nil htodo]
        exact ih (.inl (htodo.symm ▸ .nil)) hlast
      | other hc hops =>
        have hnext : TakesTickets c ((s.step i).todo i) :=
          (System.todo_step_self htodo).symm ▸ hops
        exact ih (.inl hnext) fun hreads => (hnext.not_reads hreads).elim
      | @ticket ops hops =>
        refine ih (.inr ⟨ops, System.todo_step_self htodo, hops⟩) fun _ => ?_
        rw [System.last_step_add htodo, System.mem_step_add htodo, Function.update_self,
          Function.update_self]
    · have hnext : TakesTickets c ((s.step i).todo i) :=
        (System.todo_step_self htodo).symm ▸ hops
      exact ih (.inl hnext) fun hreads => (hnext.not_reads hreads).elim

theorem steady_start_replicate {ops : α → List (Op C M)} (h : ∀ a, TakesTickets c (ops a))
    (arrivals : List (ι × α)) (i : ι) (m : ℕ) :
    Steady p c (start ops arrivals) (List.replicate m i) := by
  have hturns : TakesTickets c ((start ops arrivals).todo i) :=
    takesTickets_flatMap (fun a : ι × α => h a.2) _
  exact steady_replicate (.inl hturns) (fun hreads => (hturns.not_reads hreads).elim) m

end Replicate

end Atomics

import PacketBench.Lists.Folds
import Mathlib.Algebra.BigOperators.Group.Finset.Basic
import Mathlib.Data.Fintype.Basic
import Mathlib.Data.List.FinRange

/-! # Threads with atomic additions

Threads work off lists of atomic operations on shared cells. A schedule names
the thread of each step, so the schedules are the interleavings. What a cell
holds together with what the threads are still going to add to it is constant
along every schedule. Hence all interleavings end with the same memory.
-/

namespace Atomics

open Finset

variable {ι C M α : Type*}

inductive Op (C M : Type*) where
  | add (cell : C) (v : M)
  | read (cell : C)
  deriving DecidableEq

/-- The cells, what each thread has to do, the value each thread's last addition left in its cell
and the values read, the latest first. -/
structure System (ι C M : Type*) where
  mem : C → M
  todo : ι → List (Op C M)
  last : ι → M
  log : List (ι × M)

namespace System

section Step

variable [DecidableEq ι] [DecidableEq C] [Add M]

/-- The next operation of a thread; a thread that has finished does nothing. -/
def step (s : System ι C M) (i : ι) : System ι C M :=
  match s.todo i with
  | [] => s
  | .add c v :: ops =>
    { s with
      mem := Function.update s.mem c (s.mem c + v)
      todo := Function.update s.todo i ops
      last := Function.update s.last i (s.mem c + v) }
  | .read c :: ops => { s with todo := Function.update s.todo i ops, log := (i, s.mem c) :: s.log }

def run (s : System ι C M) (schedule : List ι) : System ι C M := schedule.foldl step s

def Finished (s : System ι C M) : Prop := ∀ i, s.todo i = []

variable {s : System ι C M} {i : ι} {c : C} {v : M} {ops : List (Op C M)}

theorem step_nil (h : s.todo i = []) : s.step i = s := by
  unfold step
  rw [h]

theorem step_add (h : s.todo i = .add c v :: ops) : s.step i =
    { s with
      mem := Function.update s.mem c (s.mem c + v)
      todo := Function.update s.todo i ops
      last := Function.update s.last i (s.mem c + v) } := by
  unfold step
  rw [h]

theorem step_read (h : s.todo i = .read c :: ops) : s.step i =
    { s with todo := Function.update s.todo i ops, log := (i, s.mem c) :: s.log } := by
  unfold step
  rw [h]

theorem mem_step_add (h : s.todo i = .add c v :: ops) :
    (s.step i).mem = Function.update s.mem c (s.mem c + v) := by rw [step_add h]

theorem mem_step_read (h : s.todo i = .read c :: ops) : (s.step i).mem = s.mem := by
  rw [step_read h]

theorem last_step_add (h : s.todo i = .add c v :: ops) :
    (s.step i).last = Function.update s.last i (s.mem c + v) := by rw [step_add h]

theorem last_step_read (h : s.todo i = .read c :: ops) : (s.step i).last = s.last := by
  rw [step_read h]

theorem log_step_add (h : s.todo i = .add c v :: ops) : (s.step i).log = s.log := by
  rw [step_add h]

theorem log_step_read (h : s.todo i = .read c :: ops) :
    (s.step i).log = (i, s.mem c) :: s.log := by rw [step_read h]

@[simp] theorem run_nil (s : System ι C M) : s.run [] = s := rfl

@[simp] theorem run_cons (s : System ι C M) (i : ι) (schedule : List ι) :
    s.run (i :: schedule) = (s.step i).run schedule := rfl

theorem run_append (s : System ι C M) (schedule schedule' : List ι) :
    s.run (schedule ++ schedule') = (s.run schedule).run schedule' := List.foldl_append

theorem todo_step (s : System ι C M) (i : ι) :
    (s.step i).todo = Function.update s.todo i (s.todo i).tail := by
  rcases h : s.todo i with _ | ⟨c | c, ops⟩
  · rw [step_nil h, List.tail_nil, ← h, Function.update_eq_self]
  · rw [step_add h, List.tail_cons]
  · rw [step_read h, List.tail_cons]

theorem todo_step_self {op : Op C M} (h : s.todo i = op :: ops) : (s.step i).todo i = ops := by
  rw [todo_step, Function.update_self, h, List.tail_cons]

theorem todo_step_of_ne (s : System ι C M) {j : ι} (hj : j ≠ i) :
    (s.step i).todo j = s.todo j := by
  rw [todo_step, Function.update_of_ne hj]

theorem last_step_of_ne (s : System ι C M) {j : ι} (hj : j ≠ i) :
    (s.step i).last j = s.last j := by
  rcases h : s.todo i with _ | ⟨c | c, ops⟩
  · rw [step_nil h]
  · rw [last_step_add h, Function.update_of_ne hj]
  · rw [last_step_read h]

/-- How far a thread is depends only on how often it was scheduled. -/
theorem todo_run (s : System ι C M) (schedule : List ι) (i : ι) :
    (s.run schedule).todo i = (s.todo i).drop (schedule.count i) :=
  Lists.queue_foldl todo_step schedule s i

end Step

end System

theorem sum_eq_add_of_eq_add [Fintype ι] [DecidableEq ι] [AddCommMonoid M] {f g : ι → M} {i : ι}
    {x : M} (hi : f i = x + g i) (h : ∀ j ≠ i, f j = g j) : ∑ j, f j = x + ∑ j, g j := by
  rw [← add_sum_erase univ f (mem_univ i), ← add_sum_erase univ g (mem_univ i), hi, add_assoc,
    sum_congr rfl fun j hj => h j (ne_of_mem_erase hj)]

section Conservation

variable [DecidableEq C] [AddCommMonoid M]

def Op.adds (c : C) : Op C M → M
  | .add c' v => if c' = c then v else 0
  | .read _ => 0

def added (c : C) (ops : List (Op C M)) : M := (ops.map (Op.adds c)).sum

@[simp] theorem added_nil (c : C) : added c ([] : List (Op C M)) = 0 := rfl

@[simp] theorem added_cons (c : C) (op : Op C M) (ops : List (Op C M)) :
    added c (op :: ops) = op.adds c + added c ops := List.sum_cons

@[simp] theorem added_append (c : C) (ops ops' : List (Op C M)) :
    added c (ops ++ ops') = added c ops + added c ops' := by
  unfold added
  rw [List.map_append, List.sum_append]

theorem added_flatMap (c : C) (ops : α → List (Op C M)) (l : List α) :
    added c (l.flatMap ops) = (l.map fun a => added c (ops a)).sum := by
  induction l with
  | nil => rfl
  | cons a l ih => rw [List.flatMap_cons, added_append, ih, List.map_cons, List.sum_cons]

variable [Fintype ι] [DecidableEq ι]

theorem sum_added_step (s : System ι C M) {i : ι} {op : Op C M} {ops : List (Op C M)}
    (h : s.todo i = op :: ops) (c : C) :
    ∑ j, added c (s.todo j) = op.adds c + ∑ j, added c ((s.step i).todo j) := by
  refine sum_eq_add_of_eq_add (i := i) ?_ fun j hj => ?_
  · rw [System.todo_step_self h, h, added_cons]
  · rw [System.todo_step_of_ne s hj]

theorem mem_add_pending_step (s : System ι C M) (i : ι) (c : C) :
    (s.step i).mem c + ∑ j, added c ((s.step i).todo j) = s.mem c + ∑ j, added c (s.todo j) := by
  rcases h : s.todo i with _ | ⟨⟨c', v⟩ | c', ops⟩
  · rw [System.step_nil h]
  · rw [sum_added_step s h, ← add_assoc, System.mem_step_add h]
    congr 1
    rcases eq_or_ne c' c with rfl | hc
    · rw [Function.update_self, Op.adds, if_pos rfl]
    · rw [Function.update_of_ne hc.symm, Op.adds, if_neg hc, add_zero]
  · rw [sum_added_step s h, Op.adds, zero_add, System.mem_step_read h]

/-- What a cell holds and what is still to be added to it is constant along every schedule. -/
theorem mem_add_pending_run (s : System ι C M) (schedule : List ι) (c : C) :
    (s.run schedule).mem c + ∑ j, added c ((s.run schedule).todo j) =
      s.mem c + ∑ j, added c (s.todo j) := by
  induction schedule generalizing s with
  | nil => rfl
  | cons i schedule ih => rw [System.run_cons, ih, mem_add_pending_step]

theorem mem_of_finished {s : System ι C M} {schedule : List ι} (h : (s.run schedule).Finished)
    (c : C) : (s.run schedule).mem c = s.mem c + ∑ j, added c (s.todo j) := by
  rw [← mem_add_pending_run s schedule, sum_eq_zero fun j _ => by rw [h j, added_nil], add_zero]

end Conservation

section Alone

variable [DecidableEq C] [AddCommMonoid M] {ops : List (Op C M)}

def alone (mem : C → M) (ops : List (Op C M)) : System Unit C M :=
  (⟨mem, fun _ => ops, fun _ => 0, []⟩ : System Unit C M).run (List.replicate ops.length ())

theorem mem_alone (mem : C → M) (ops : List (Op C M)) (c : C) :
    (alone mem ops).mem c = mem c + added c ops := by
  have hdone : (alone mem ops).Finished := by
    intro i
    rw [alone, System.todo_run, List.count_replicate_self]
    exact List.drop_length
  exact (mem_of_finished hdone c).trans (congrArg (mem c + ·) (Fintype.sum_unique _))

def Op.IsAdd : Op C M → Prop
  | .add _ _ => True
  | .read _ => False

theorem log_run_replicate [DecidableEq ι] {s : System ι C M} {i : ι} {rest : List (Op C M)}
    (h : s.todo i = ops ++ rest) (hadd : ∀ op ∈ ops, op.IsAdd) :
    (s.run (List.replicate ops.length i)).log = s.log := by
  induction ops generalizing s with
  | nil => rfl
  | cons op ops ih =>
    cases op with
    | add c v =>
      rw [List.length_cons, List.replicate_succ, System.run_cons]
      have htodo : (s.step i).todo i = ops ++ rest := System.todo_step_self h
      rw [ih htodo fun op hop => hadd op (List.mem_cons_of_mem _ hop), System.log_step_add h]
    | read c => exact (hadd (.read c) List.mem_cons_self).elim

@[simp] theorem log_alone_nil (mem : C → M) : (alone mem []).log = [] := rfl

theorem log_alone_read (mem : C → M) (hadd : ∀ op ∈ ops, op.IsAdd) (c : C) :
    (alone mem (ops ++ [.read c])).log = [((), (alone mem (ops ++ [.read c])).mem c)] := by
  let s : System Unit C M :=
    (⟨mem, fun _ => ops ++ [.read c], fun _ => 0, []⟩ : System Unit C M).run
      (List.replicate ops.length ())
  have htodo : s.todo () = [.read c] := by
    rw [System.todo_run, List.count_replicate_self]
    exact List.drop_left
  have hlog : s.log = [] := log_run_replicate rfl hadd
  have hlast : alone mem (ops ++ [.read c]) = s.step () := by
    rw [alone, List.length_append, List.length_singleton, List.replicate_succ', System.run_append]
    rfl
  rw [hlast, System.log_step_read htodo, System.mem_step_read htodo, hlog]

end Alone

section Arrivals

variable [DecidableEq ι] (ops : α → List (Op C M)) (arrivals : List (ι × α))

/-- The operations of a thread for the work that arrives at it, in the order of arrival. -/
def program (i : ι) : List (Op C M) := (arrivals.filter (·.1 = i)).flatMap (ops ·.2)

def start [Zero M] : System ι C M := ⟨fun _ => 0, program ops arrivals, fun _ => 0, []⟩

theorem program_cons (a : ι × α) (i : ι) : program ops (a :: arrivals) i =
    (if a.1 = i then ops a.2 else []) ++ program ops arrivals i := by
  unfold program
  rw [List.filter_cons]
  by_cases h : a.1 = i
  · rw [if_pos (decide_eq_true h), if_pos h, List.flatMap_cons]
  · rw [if_neg (by simpa using h), if_neg h, List.nil_append]

theorem program_append (arrivals' : List (ι × α)) (i : ι) :
    program ops (arrivals ++ arrivals') i = program ops arrivals i ++ program ops arrivals' i := by
  unfold program
  rw [List.filter_append, List.flatMap_append]

theorem length_program_replicate (m : ℕ) (i : ι) (a : α) :
    (program ops (List.replicate m (i, a)) i).length = m * (ops a).length := by
  induction m with
  | zero => exact (Nat.zero_mul _).symm
  | succ m ih =>
    rw [List.replicate_succ, program_cons, if_pos rfl, List.length_append, ih, Nat.succ_mul,
      Nat.add_comm]

theorem program_replicate_of_ne (m : ℕ) {i j : ι} (h : i ≠ j) (a : α) :
    program ops (List.replicate m (i, a)) j = [] := by
  induction m with
  | zero => rfl
  | succ m ih => rw [List.replicate_succ, program_cons, if_neg h, ih, List.nil_append]

theorem sum_program [Fintype ι] {N : Type*} [AddCommMonoid N] {w : List (Op C M) → N}
    (hnil : w [] = 0) (happend : ∀ ops ops', w (ops ++ ops') = w ops + w ops') :
    ∑ i, w (program ops arrivals i) = (arrivals.map fun a => w (ops a.2)).sum := by
  induction arrivals with
  | nil => exact sum_eq_zero fun i _ => hnil
  | cons a arrivals ih =>
    rw [List.map_cons, List.sum_cons, ← ih]
    refine sum_eq_add_of_eq_add (i := a.1) ?_ fun j hj => ?_
    · rw [program_cons, if_pos rfl, happend]
    · rw [program_cons, if_neg hj.symm, List.nil_append]

variable [DecidableEq C] [AddCommMonoid M]

/-- Every interleaving leaves in a cell what the pieces of work add to it. -/
theorem mem_of_finished_start [Fintype ι] {schedule : List ι}
    (h : ((start ops arrivals).run schedule).Finished) (c : C) :
    ((start ops arrivals).run schedule).mem c =
      (arrivals.map fun a => added c (ops a.2)).sum := by
  rw [mem_of_finished h, ← sum_program ops arrivals (added_nil c) (added_append c)]
  exact zero_add _

end Arrivals

/-- Some number of threads, among whom the work is divided, can end with these cells. -/
def EndsWith [DecidableEq C] [AddCommMonoid M] (ops : α → List (Op C M)) (work : List α)
    (mem : C → M) : Prop :=
  ∃ (n : ℕ) (arrivals : List (Fin n × α)) (schedule : List (Fin n)),
    (arrivals.map Prod.snd).Perm work ∧ ((start ops arrivals).run schedule).Finished ∧
      ((start ops arrivals).run schedule).mem = mem

section EndsWith

variable [DecidableEq C] [AddCommMonoid M] {ops : α → List (Op C M)} {work : List α} {mem : C → M}

theorem EndsWith.mem_eq (h : EndsWith ops work mem) (c : C) :
    mem c = (work.map fun a => added c (ops a)).sum := by
  obtain ⟨n, arrivals, schedule, hperm, hdone, rfl⟩ := h
  rw [mem_of_finished_start ops arrivals hdone, ← (hperm.map _).sum_eq, List.map_map]
  rfl

theorem endsWith_run {n : ℕ} {arrivals : List (Fin n × α)} {schedule : List (Fin n)}
    (h : ((start ops arrivals).run schedule).Finished) :
    EndsWith ops (arrivals.map Prod.snd) ((start ops arrivals).run schedule).mem :=
  ⟨n, arrivals, schedule, List.Perm.refl _, h, rfl⟩

end EndsWith

section RoundRobin

/-- The threads take turns, one operation each. -/
def roundRobin (n rounds : ℕ) : List (Fin n) := (List.replicate rounds (List.finRange n)).flatten

theorem count_roundRobin {n : ℕ} (rounds : ℕ) (i : Fin n) :
    (roundRobin n rounds).count i = rounds := by
  rw [roundRobin, List.count_flatten, List.map_replicate, List.count_finRange,
    List.sum_replicate_nat, Nat.mul_one]

theorem length_program_le [DecidableEq ι] (ops : α → List (Op C M)) (arrivals : List (ι × α))
    (i : ι) : (program ops arrivals i).length ≤ (arrivals.flatMap (ops ·.2)).length :=
  (List.filter_sublist.flatMap _).length_le

/-- The pieces of work go to one after another of `n + 1` threads. -/
def deal (n : ℕ) (work : List α) : List (Fin (n + 1) × α) :=
  work.zipIdx.map fun x => (Fin.ofNat (n + 1) x.2, x.1)

theorem map_snd_deal (n : ℕ) (work : List α) : (deal n work).map Prod.snd = work := by
  rw [deal, List.map_map]
  exact List.zipIdx_map_fst 0 work

variable [DecidableEq C] [AddCommMonoid M] {n : ℕ} (ops : α → List (Op C M))
  (arrivals : List (Fin n × α))

/-- The cells after the threads have taken turns until all work is done. -/
def inTurns : C → M :=
  ((start ops arrivals).run (roundRobin n (arrivals.flatMap (ops ·.2)).length)).mem

theorem endsWith_inTurns : EndsWith ops (arrivals.map Prod.snd) (inTurns ops arrivals) := by
  apply endsWith_run
  intro i
  rw [System.todo_run, count_roundRobin, List.drop_eq_nil_iff]
  exact length_program_le ops arrivals i

theorem endsWith_deal (n : ℕ) (work : List α) : EndsWith ops work (inTurns ops (deal n work)) := by
  have h := endsWith_inTurns ops (deal n work)
  rwa [map_snd_deal] at h

end RoundRobin

end Atomics

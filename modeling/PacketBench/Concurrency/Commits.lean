import PacketBench.Lists.Threads
import Mathlib.Data.List.Basic
import Mathlib.Logic.Function.Basic

/-! # Threads that commit each piece of work at once

A thread takes up a piece of work, accesses the shared state once, atomically,
and finishes the rest on its own. A schedule names the thread of each step.
Whatever the schedule, every result is the one of a serial run over the work in
the order of the accesses, and that order only ever grows at its end.
-/

namespace Commits

open Lists

variable {ι σ α ρ β : Type*}

/-- The access to the shared state and what is done with its result. -/
structure Service (σ α ρ β : Type*) where
  access : σ → α → ρ × σ
  finish : α → ρ → β

/-- How far a thread is with a piece of work. -/
inductive Phase (α ρ : Type*) where
  | idle
  | begun (a : α)
  | committed (a : α) (r : ρ)

/-- The shared state, and for each thread the work it has not begun, its phase and its results;
`commits` records the work in the order of the accesses. -/
structure System (ι σ α ρ β : Type*) where
  shared : σ
  todo : ι → List α
  phase : ι → Phase α ρ
  out : ι → List β
  commits : List (ι × α)

section Serial

variable (S : Service σ α ρ β)

def serialState (s : σ) (work : List α) : σ := work.foldl (fun s a => (S.access s a).2) s

def serialOut : σ → List (ι × α) → List (ι × β)
  | _, [] => []
  | s, (i, a) :: work => (i, S.finish a (S.access s a).1) :: serialOut (S.access s a).2 work

theorem serialState_append (s : σ) (work : List α) (a : α) :
    serialState S s (work ++ [a]) = (S.access (serialState S s work) a).2 := by
  unfold serialState
  rw [List.foldl_append]
  rfl

theorem serialOut_append (s : σ) (work : List (ι × α)) (i : ι) (a : α) :
    serialOut S s (work ++ [(i, a)]) = serialOut S s work ++
      [(i, S.finish a (S.access (serialState S s (work.map Prod.snd)) a).1)] := by
  induction work generalizing s with
  | nil => rfl
  | cons x work ih => exact congrArg ((x.1, S.finish x.2 (S.access s x.2).1) :: ·) (ih _)

variable [DecidableEq ι]

theorem length_ofThread_serialOut (s : σ) (work : List (ι × α)) (i : ι) :
    (ofThread i (serialOut S s work)).length = (ofThread i work).length := by
  induction work generalizing s with
  | nil => rfl
  | cons x work ih =>
    obtain ⟨j, a⟩ := x
    rw [serialOut]
    rcases eq_or_ne j i with rfl | hj
    · rw [ofThread_cons_self, ofThread_cons_self, List.length_cons, ih, List.length_cons]
    · rw [ofThread_cons_of_ne hj, ofThread_cons_of_ne hj, ih]

theorem exists_of_serialOut {s : σ} {work : List (ι × α)} {i : ι} {n : ℕ} {b : β}
    (h : (ofThread i (serialOut S s work))[n]? = some b) :
    ∃ a before after, work = before ++ (i, a) :: after ∧ (ofThread i before).length = n ∧
      b = S.finish a (S.access (serialState S s (before.map Prod.snd)) a).1 := by
  induction work generalizing s n with
  | nil => cases h
  | cons x work ih =>
    obtain ⟨j, a⟩ := x
    rw [serialOut] at h
    rcases eq_or_ne j i with rfl | hj
    · rw [ofThread_cons_self] at h
      cases n with
      | zero => exact ⟨a, [], work, rfl, rfl, (Option.some.inj h).symm⟩
      | succ n =>
        obtain ⟨a', before, after, rfl, hlen, hb⟩ := ih h
        exact ⟨a', (j, a) :: before, after, rfl, by rw [ofThread_cons_self, List.length_cons, hlen],
          hb⟩
    · rw [ofThread_cons_of_ne hj] at h
      obtain ⟨a', before, after, rfl, hlen, hb⟩ := ih h
      exact ⟨a', (j, a) :: before, after, rfl, by rw [ofThread_cons_of_ne hj, hlen], hb⟩

end Serial

variable [DecidableEq ι] (S : Service σ α ρ β)

namespace System

def step (s : System ι σ α ρ β) (i : ι) : System ι σ α ρ β :=
  match s.phase i, s.todo i with
  | .idle, [] => s
  | .idle, a :: rest =>
    { s with
      todo := Function.update s.todo i rest
      phase := Function.update s.phase i (.begun a) }
  | .begun a, _ =>
    { s with
      shared := (S.access s.shared a).2
      phase := Function.update s.phase i (.committed a (S.access s.shared a).1)
      commits := s.commits ++ [(i, a)] }
  | .committed a r, _ =>
    { s with
      phase := Function.update s.phase i .idle
      out := Function.update s.out i (s.out i ++ [S.finish a r]) }

def run (s : System ι σ α ρ β) (schedule : List ι) : System ι σ α ρ β :=
  schedule.foldl (step S) s

/-- No work is begun and no result is there. -/
def start (shared : σ) (work : ι → List α) : System ι σ α ρ β :=
  ⟨shared, work, fun _ => .idle, fun _ => [], []⟩

def Finished (s : System ι σ α ρ β) : Prop := ∀ i, s.todo i = [] ∧ s.phase i = .idle

end System

namespace Phase

def uncommitted : Phase α ρ → List α
  | .begun a => [a]
  | .idle | .committed _ _ => []

/-- The result that is still to come of committed work. -/
def pending (S : Service σ α ρ β) : Phase α ρ → List β
  | .committed a r => [S.finish a r]
  | .idle | .begun _ => []

end Phase

/-- The state and the results are those of the serial run over the commits, which are the work
begun so far. -/
structure Linear (shared : σ) (work : ι → List α) (s : System ι σ α ρ β) : Prop where
  shared_eq : s.shared = serialState S shared (s.commits.map Prod.snd)
  out_eq : ∀ i, s.out i ++ (s.phase i).pending S = ofThread i (serialOut S shared s.commits)
  work_eq : ∀ i, ofThread i s.commits ++ (s.phase i).uncommitted ++ s.todo i = work i

section Run

variable {S} {shared : σ} {work : ι → List α} {s : System ι σ α ρ β}

theorem linear_start : Linear S shared work (System.start shared work) where
  shared_eq := rfl
  out_eq _ := rfl
  work_eq _ := rfl

theorem Linear.of_thread {t : System ι σ α ρ β} {i : ι} (h : Linear S shared work s)
    (hother : ∀ j ≠ i, t.phase j = s.phase j ∧ t.todo j = s.todo j ∧ t.out j = s.out j ∧
      ofThread j t.commits = ofThread j s.commits ∧
      ofThread j (serialOut S shared t.commits) = ofThread j (serialOut S shared s.commits))
    (hshared : t.shared = serialState S shared (t.commits.map Prod.snd))
    (hout : t.out i ++ (t.phase i).pending S = ofThread i (serialOut S shared t.commits))
    (hwork : ofThread i t.commits ++ (t.phase i).uncommitted ++ t.todo i = work i) :
    Linear S shared work t := by
  refine ⟨hshared, fun j => ?_, fun j => ?_⟩
  · rcases eq_or_ne j i with rfl | hj
    · exact hout
    · obtain ⟨hphase, -, hres, -, hserial⟩ := hother j hj
      rw [hphase, hres, hserial]
      exact h.out_eq j
  · rcases eq_or_ne j i with rfl | hj
    · exact hwork
    · obtain ⟨hphase, htodo, -, hcommits, -⟩ := hother j hj
      rw [hphase, htodo, hcommits]
      exact h.work_eq j

theorem Linear.step (h : Linear S shared work s) (i : ι) : Linear S shared work (s.step S i) := by
  have hout := h.out_eq i
  have hwork := h.work_eq i
  unfold System.step
  split
  · exact h
  · rename_i a rest hphase htodo
    rw [hphase] at hout hwork
    rw [htodo] at hwork
    refine h.of_thread (i := i) (fun j hj => ?_) h.shared_eq ?_ ?_
    · simp [hj]
    · simpa [Phase.pending] using hout
    · simpa [Phase.uncommitted] using hwork
  · rename_i a hphase
    rw [hphase] at hout hwork
    refine h.of_thread (i := i) (fun j hj => ?_) ?_ ?_ ?_
    · simp [hj, ofThread_concat_of_ne hj.symm, serialOut_append]
    · simp only [List.map_append, List.map_singleton, serialState_append, h.shared_eq]
    · simpa [Phase.pending, serialOut_append, h.shared_eq] using hout
    · simpa [Phase.uncommitted] using hwork
  · rename_i a r hphase
    rw [hphase] at hout hwork
    refine h.of_thread (i := i) (fun j hj => ?_) h.shared_eq ?_ ?_
    · simp [hj]
    · simpa [Phase.pending] using hout
    · simpa [Phase.uncommitted] using hwork

theorem Linear.run (h : Linear S shared work s) (schedule : List ι) :
    Linear S shared work (s.run S schedule) := by
  induction schedule generalizing s with
  | nil => exact h
  | cons i schedule ih => exact ih (h.step i)

theorem prefix_commits_step (s : System ι σ α ρ β) (i : ι) :
    s.commits <+: (s.step S i).commits := by
  unfold System.step
  split
  · exact List.prefix_refl _
  · exact List.prefix_refl _
  · exact List.prefix_append _ _
  · exact List.prefix_refl _

theorem prefix_commits_run (s : System ι σ α ρ β) (schedule : List ι) :
    s.commits <+: (s.run S schedule).commits := by
  induction schedule generalizing s with
  | nil => exact List.prefix_refl _
  | cons i schedule ih => exact (prefix_commits_step s i).trans (ih _)

/-- A result is the one of the serial run at the commit of its piece of work, which comes behind
the commits of all earlier pieces of the thread. -/
theorem Linear.exists_commit (h : Linear S shared work s) {i : ι} {n : ℕ} {b : β}
    (hb : (s.out i)[n]? = some b) :
    ∃ a before after, (work i)[n]? = some a ∧ s.commits = before ++ (i, a) :: after ∧
      ofThread i before = (work i).take n ∧
      b = S.finish a (S.access (serialState S shared (before.map Prod.snd)) a).1 := by
  have hserial : (ofThread i (serialOut S shared s.commits))[n]? = some b := by
    rw [← h.out_eq i, List.getElem?_append_left (List.getElem?_eq_some_iff.mp hb).1, hb]
  obtain ⟨a, before, after, hcommits, hlen, hfinish⟩ := exists_of_serialOut S hserial
  have hwork := h.work_eq i
  rw [hcommits, ofThread_append, ofThread_cons_self, List.append_assoc, List.append_assoc,
    List.cons_append] at hwork
  refine ⟨a, before, after, ?_, hcommits, ?_, hfinish⟩
  · rw [← hwork, ← hlen, List.getElem?_append_right (Nat.le_refl _), Nat.sub_self]
    rfl
  · rw [← hwork, ← hlen, List.take_left]

/-- When all threads are done all work is committed and has its result. -/
theorem Linear.of_finished (h : Linear S shared work s) (hdone : s.Finished) (i : ι) :
    ofThread i s.commits = work i ∧ s.out i = ofThread i (serialOut S shared s.commits) := by
  obtain ⟨htodo, hphase⟩ := hdone i
  have hout := h.out_eq i
  have hwork := h.work_eq i
  rw [hphase] at hout hwork
  rw [htodo] at hwork
  simp only [Phase.pending, Phase.uncommitted, List.append_nil] at hout hwork
  exact ⟨hwork, hout⟩

end Run

end Commits

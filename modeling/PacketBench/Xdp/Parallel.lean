import PacketBench.Frame.Shared
import PacketBench.Xdp.Period

/-! # The XDP programs on several CPUs

The CPUs that run `aggregate` or `reduce` meet in the maps only. For each frame
that it takes a CPU folds the words by atomic additions, adds one to `rxpkt` and
then reads `rxpkt` back to decide about the reply. On one CPU these operations
leave the maps as the program does and lead to its verdict.
-/

namespace PacketBench.Xdp

open Atomics PktM

variable {σ : Type} {tot : ℕ}

/-- The atomic operations of a CPU for a frame; `work` folds the words. -/
def takenOps (tot : ℕ) (work : Frame → ℕ → List SharedOp) (f : Frame) : List SharedOp :=
  if Takes tot f then work f (tot / dataSizeB) ++ countOps 1 else []

def aggregateOps (tot : ℕ) : Frame → List SharedOp := takenOps tot Frame.sumOps

def reduceOps (tot : ℕ) : Frame → List SharedOp := takenOps tot Frame.eachOps

/-- A CPU that is not interrupted performs the given operations: they lead to the maps and to the
verdict of the program. -/
structure Performs (tot : ℕ) (prog : PktM (Counted σ) Verdict) (slots : σ → ℕ → BitVec 32)
    (ops : Frame → List SharedOp) : Prop where
  maps : ∀ s f, cells (handle prog s f).2.store.rxpkt (slots (handle prog s f).2.store.data) =
    (alone (cells s.rxpkt (slots s.data)) (ops f)).mem
  verdict : ∀ s f, (handle prog s f).1 = .tx ↔
    ∃ x ∈ (alone (cells s.rxpkt (slots s.data)) (ops f)).log, Completes tot x.2

theorem performs_of_countsWith {prog : PktM (Counted σ) Verdict} {slots : σ → ℕ → BitVec 32}
    {work : Frame → ℕ → List SharedOp} {g : ℕ → σ → Frame → σ} (hfolds : Folds work slots g)
    (h : CountsWith tot prog (g (tot / dataSizeB))) :
    Performs tot prog slots (takenOps tot work) := by
  constructor
  · intro s f
    by_cases hf : Takes tot f
    · rw [h.taken s f hf, takenOps, if_pos hf, mem_alone_countOps (hfolds.packets f _)]
      exact congrArg (cells _) (funext (hfolds.slots f _ s.data))
    · rw [h.rejected s f hf, takenOps, if_neg hf]
      rfl
  · intro s f
    rw [h.verdict]
    by_cases hf : Takes tot f
    · rw [takenOps, if_pos hf, log_alone_countOps (hfolds.isAdd f _) (hfolds.packets f _)]
      simp only [hf, true_and, List.mem_singleton, exists_eq_left]
    · rw [takenOps, if_neg hf, log_alone_nil]
      simp [hf]

section Programs

variable (htot : tot < 2 ^ 31) (arrival processed : Instant)

include htot

theorem performs_aggregate :
    Performs tot (aggregate tot arrival processed) firstSlot (aggregateOps tot) :=
  performs_of_countsWith folds_sumOps (countsWith_aggregate htot arrival processed)

theorem performs_aggregateNoT : Performs tot (aggregateNoT tot) firstSlot (aggregateOps tot) :=
  performs_of_countsWith folds_sumOps (countsWith_aggregateNoT htot)

theorem performs_reduce : Performs tot (reduce tot arrival processed) id (reduceOps tot) :=
  performs_of_countsWith folds_eachOps (countsWith_reduce htot arrival processed)

theorem performs_reduceNoT : Performs tot (reduceNoT tot) id (reduceOps tot) :=
  performs_of_countsWith folds_eachOps (countsWith_reduceNoT htot)

end Programs

theorem added_takenOps (work : Frame → ℕ → List SharedOp) (f : Frame) (i : ℕ) :
    added (.slot i) (takenOps tot work f) =
      if Takes tot f then added (.slot i) (work f (tot / dataSizeB)) else 0 := by
  unfold takenOps
  split_ifs
  · rw [added_append, added_countOps, add_zero]
  · rfl

variable {frames : List Frame} {mem : Cell → BitVec 32}

/-- However the CPUs interleave, a slot ends as the sum of what the taken frames add to it. -/
theorem slot_of_endsWith {work : Frame → ℕ → List SharedOp}
    (h : EndsWith (takenOps tot work) frames mem) (i : ℕ) : mem (.slot i) =
      ((frames.filter (Takes tot ·)).map fun f =>
        added (.slot i) (work f (tot / dataSizeB))).sum := by
  rw [h.mem_eq, sum_map_filter]
  simp only [added_takenOps]

theorem aggregate_of_endsWith (h : EndsWith (aggregateOps tot) frames mem) : mem (.slot 0) =
    ((frames.filter (Takes tot ·)).map (Frame.wordsSum · (tot / dataSizeB))).sum := by
  rw [slot_of_endsWith h]
  simp only [added_sumOps]

theorem reduce_of_endsWith (h : EndsWith (reduceOps tot) frames mem) {i : ℕ}
    (hi : i < tot / dataSizeB) :
    mem (.slot i) = ((frames.filter (Takes tot ·)).map fun f => f.word i).sum := by
  rw [slot_of_endsWith h]
  simp only [added_eachOps, if_pos hi]

end PacketBench.Xdp

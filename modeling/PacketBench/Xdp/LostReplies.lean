import PacketBench.Concurrency.Tickets
import PacketBench.Frame.Requests
import PacketBench.Xdp.Parallel
import Mathlib.Algebra.BigOperators.Fin

/-! # Lost replies

`aggregate` does not use the result of its atomic addition to `rxpkt` but reads
the counter again. When other CPUs count in between, the CPU whose addition
completes a period can miss it, and no other CPU replies in its place.
-/

namespace PacketBench.Xdp

open Atomics

variable {tot : ℕ}

/-- One reply for each time `rxpkt` is read at a multiple of `MiB / TOT_SIZE_B`. -/
def replies {ι : Type} (tot : ℕ) (s : System ι Cell (BitVec 32)) : ℕ := hits (Completes tot) s.log

theorem takesTickets_aggregateOps (f : Frame) :
    TakesTickets Cell.packets (aggregateOps tot f) := by
  unfold aggregateOps takenOps
  split_ifs
  · exact .other (by decide) (.ticket .nil)
  · exact .nil

theorem ticketsIn_aggregateOps (f : Frame) :
    ticketsIn Cell.packets (aggregateOps tot f) = if Takes tot f then 1 else 0 := by
  unfold aggregateOps takenOps
  split_ifs
  · exact ticketsIn_add_of_ne (by decide) _ _
  · rfl

theorem sum_ticketsIn {ι : Type} (arrivals : List (ι × Frame)) :
    (arrivals.map fun a => ticketsIn Cell.packets (aggregateOps tot a.2)).sum =
      arrivals.countP (Takes tot ·.2) := by
  induction arrivals with
  | nil => rfl
  | cons a arrivals ih =>
    rw [List.map_cons, List.sum_cons, ih, ticketsIn_aggregateOps, List.countP_cons, add_comm]
    simp only [decide_eq_true_eq]

/-- One ticket in `MiB / TOT_SIZE_B` completes a period. -/
theorem passing_completes (htot : tot ∣ miB) (k : ℕ) :
    passing (Completes tot) k = k / (miB / tot) := by
  induction k with
  | zero => exact (Nat.zero_div _).symm
  | succ k ih =>
    rw [passing_succ, ih, Nat.succ_div, BitVec.natCast_eq_ofNat]
    simp only [completes_ofNat htot]

theorem balanced_aggregate {n : ℕ} (arrivals : List (Fin n × Frame)) :
    Balanced (Completes tot) Cell.packets (arrivals.countP (Takes tot ·.2))
      (start (aggregateOps tot) arrivals) 0 := by
  rw [← sum_ticketsIn]
  exact balanced_start takesTickets_aggregateOps arrivals

theorem aggregateOps_requestFrame : aggregateOps totSizeB (requestFrame 1 7 42) =
    [.add (.slot 0) ((requestFrame 1 7 42).wordsSum dataNr), .add .packets 1, .read .packets] := by
  rw [aggregateOps, takenOps, if_pos (takes_requestFrame 1 7 42)]
  rfl

section Late

variable (m : ℕ)

/-- CPU 0 takes `m + 1` frames and CPU 1 takes one. -/
def lateArrivals : List (Fin 2 × Frame) :=
  List.replicate m (0, requestFrame 1 7 42) ++
    [(0, requestFrame 1 7 42), (1, requestFrame 1 7 42)]

/-- Each CPU has one frame left. -/
def beforeLast : System (Fin 2) Cell (BitVec 32) :=
  (start (aggregateOps totSizeB) (lateArrivals m)).run (List.replicate (m * 3) 0)

/-- CPU 1 counts between the last addition and the last read of CPU 0. -/
def beforeReads : System (Fin 2) Cell (BitVec 32) :=
  ((beforeLast m).run (List.replicate 2 0)).run (List.replicate 2 1)

theorem program_lateArrivals : ∀ i, program (aggregateOps totSizeB) (lateArrivals m) i =
    program (aggregateOps totSizeB) (List.replicate m (0, requestFrame 1 7 42)) i ++
      aggregateOps totSizeB (requestFrame 1 7 42) := by
  intro i
  refine (program_append _ _ _ i).trans (congrArg _ ?_)
  revert i
  rw [Fin.forall_fin_two]
  exact ⟨List.append_nil _, List.append_nil _⟩

theorem todo_beforeLast : ∀ i,
    (beforeLast m).todo i = aggregateOps totSizeB (requestFrame 1 7 42) := by
  intro i
  rw [beforeLast, System.todo_run, List.count_replicate]
  refine (congrArg _ (program_lateArrivals m i)).trans ?_
  revert i
  rw [Fin.forall_fin_two]
  constructor
  · refine List.drop_left' ((length_program_replicate _ m 0 _).trans ?_)
    rw [aggregateOps_requestFrame]
    rfl
  · rw [program_replicate_of_ne _ _ (by decide)]
    rfl

theorem countP_lateArrivals : (lateArrivals m).countP (Takes totSizeB ·.2) = m + 2 := by
  rw [lateArrivals, List.countP_append, List.countP_replicate,
    if_pos (decide_eq_true (takes_requestFrame 1 7 42))]
  exact congrArg (m + ·) (by decide)

theorem balanced_beforeLast :
    Balanced (Completes totSizeB) Cell.packets (m + 2) (beforeLast m) m := by
  obtain ⟨k, hk⟩ : ∃ k, Balanced (Completes totSizeB) Cell.packets
      ((lateArrivals m).countP (Takes totSizeB ·.2)) (beforeLast m) k :=
    (balanced_aggregate (lateArrivals m)).run
      (steady_start_replicate takesTickets_aggregateOps (lateArrivals m) 0 (m * 3))
  rw [countP_lateArrivals] at hk
  have hleft := hk.left
  rw [Fin.sum_univ_two, todo_beforeLast, todo_beforeLast, ticketsIn_aggregateOps,
    if_pos (takes_requestFrame 1 7 42)] at hleft
  obtain rfl : k = m := by omega
  exact hk

theorem replies_beforeLast : replies totSizeB (beforeLast m) = m / (miB / totSizeB) := by
  have hpaid := (balanced_beforeLast m).paid
  have hturns : ∀ i, TakesTickets Cell.packets ((beforeLast m).todo i) := by
    intro i
    rw [todo_beforeLast]
    exact takesTickets_aggregateOps _
  rw [passing_completes (by decide), Fin.sum_univ_two, owed_of_takesTickets _ (hturns 0),
    owed_of_takesTickets _ (hturns 1)] at hpaid
  exact hpaid

theorem todo_beforeReads : ∀ i, (beforeReads m).todo i = [.read .packets] := by
  intro i
  rw [beforeReads, System.todo_run, System.todo_run, todo_beforeLast, aggregateOps_requestFrame]
  revert i
  rw [Fin.forall_fin_two]
  exact ⟨rfl, rfl⟩

theorem todo_one_beforeReads : ((beforeLast m).run (List.replicate 2 0)).todo 1 =
    aggregateOps totSizeB (requestFrame 1 7 42) := by
  rw [System.todo_run, todo_beforeLast]
  rfl

theorem log_beforeReads : (beforeReads m).log = (beforeLast m).log := by
  have hadd : ∀ op ∈ ([.add (.slot 0) ((requestFrame 1 7 42).wordsSum dataNr),
      .add .packets 1] : List SharedOp), op.IsAdd := by
    simp [Op.IsAdd]
  have hfirst : ((beforeLast m).run (List.replicate 2 0)).log = (beforeLast m).log :=
    log_run_replicate ((todo_beforeLast m 0).trans aggregateOps_requestFrame) hadd
  rw [← hfirst]
  exact log_run_replicate ((todo_one_beforeReads m).trans aggregateOps_requestFrame) hadd

omit m in
theorem count_once {s : System (Fin 2) Cell (BitVec 32)} {i : Fin 2}
    (h : s.todo i = aggregateOps totSizeB (requestFrame 1 7 42)) :
    (s.run (List.replicate 2 i)).mem .packets = s.mem .packets + 1 ∧
      (s.run (List.replicate 2 i)).last i = s.mem .packets + 1 := by
  have hfirst := h.trans aggregateOps_requestFrame
  have hsecond : (s.step i).todo i = [.add .packets 1, .read .packets] :=
    System.todo_step_self hfirst
  have hkept : (s.step i).mem .packets = s.mem .packets := by
    rw [System.mem_step_add hfirst, Function.update_of_ne (by decide)]
  have hrun : s.run (List.replicate 2 i) = (s.step i).step i := rfl
  rw [hrun, System.mem_step_add hsecond, System.last_step_add hsecond, Function.update_self,
    Function.update_self, hkept]
  exact ⟨rfl, rfl⟩

theorem count_beforeReads : (beforeReads m).mem .packets = BitVec.ofNat 32 (m + 2) ∧
    (beforeReads m).last 0 = BitVec.ofNat 32 (m + 1) ∧
    (beforeReads m).last 1 = BitVec.ofNat 32 (m + 2) := by
  have hstart : (beforeLast m).mem .packets = BitVec.ofNat 32 m := (balanced_beforeLast m).count
  obtain ⟨hmem, hlast⟩ := count_once (todo_beforeLast m 0)
  obtain ⟨hmem', hlast'⟩ := count_once (todo_one_beforeReads m)
  have hother : (beforeReads m).last 0 = ((beforeLast m).run (List.replicate 2 0)).last 0 :=
    (System.last_step_of_ne _ (by decide)).trans (System.last_step_of_ne _ (by decide))
  rw [hmem, hstart] at hmem' hlast'
  rw [hstart] at hlast
  refine ⟨hmem'.trans ?_, hother.trans (hlast.trans ?_), hlast'.trans ?_⟩
  · rw [BitVec.ofNat_add, add_assoc]
    rfl
  · exact (BitVec.ofNat_add m 1).symm
  · rw [BitVec.ofNat_add, add_assoc]
    rfl

theorem steady_late (h : ¬ miB / totSizeB ∣ m + 1) (h' : ¬ miB / totSizeB ∣ m + 2) :
    Steady (Completes totSizeB) Cell.packets (beforeLast m)
      (List.replicate 2 0 ++ (List.replicate 2 1 ++ [0, 1])) := by
  have hturn : TakesTickets Cell.packets (aggregateOps totSizeB (requestFrame 1 7 42)) :=
    takesTickets_aggregateOps _
  have hfirst := (todo_beforeLast m 0).symm ▸ hturn
  have hsecond := (todo_one_beforeReads m).symm ▸ hturn
  obtain ⟨hmem, hzero, hone⟩ := count_beforeReads m
  rw [steady_append, steady_append, ← beforeReads]
  refine ⟨steady_replicate (.inl hfirst) (fun hreads => (hfirst.not_reads hreads).elim) 2,
    steady_replicate (.inl hsecond) (fun hreads => (hsecond.not_reads hreads).elim) 2,
    fun _ => ?_, fun _ => ?_, trivial⟩
  · rw [hmem, hzero, completes_ofNat (by decide), completes_ofNat (by decide)]
    exact iff_of_false h' h
  · rw [System.mem_step_read (todo_beforeReads m 0), System.last_step_read (todo_beforeReads m 0),
      hmem, hone]

theorem replies_late : replies totSizeB ((beforeReads m).run [0, 1]) =
    m / (miB / totSizeB) + 2 * if miB / totSizeB ∣ m + 2 then 1 else 0 := by
  have hfirst : ((beforeReads m).step 0).todo 1 = [.read .packets] := by
    rw [System.todo_step_of_ne _ (by decide), todo_beforeReads]
  have hlog := System.log_step_read hfirst
  rw [System.log_step_read (todo_beforeReads m 0), System.mem_step_read (todo_beforeReads m 0),
    (count_beforeReads m).1, log_beforeReads] at hlog
  have hbefore := replies_beforeLast m
  rw [replies] at hbefore ⊢
  rw [System.run_cons, System.run_cons, System.run_nil, hlog, hits_cons, hits_cons, hbefore]
  simp only [completes_ofNat (by decide : totSizeB ∣ miB)]
  omega

theorem finished_late : ((beforeReads m).run [0, 1]).Finished := by
  intro i
  rw [System.todo_run, todo_beforeReads]
  revert i
  rw [Fin.forall_fin_two]
  exact ⟨rfl, rfl⟩

end Late

/-- CPU 0 does its part of `m` frames and counts one more, CPU 1 counts its frame, and then both
read the counter. -/
def lateSchedule (m : ℕ) : List (Fin 2) :=
  List.replicate (m * 3) 0 ++ (List.replicate 2 0 ++ (List.replicate 2 1 ++ [0, 1]))

theorem run_lateSchedule (m : ℕ) :
    (start (aggregateOps totSizeB) (lateArrivals m)).run (lateSchedule m) =
      (beforeReads m).run [0, 1] := by
  rw [lateSchedule, System.run_append, System.run_append, System.run_append, ← beforeLast,
    ← beforeReads]

/-- When no CPU sees the counter enter or leave a multiple of `MiB / TOT_SIZE_B` between its
addition and its read, there is one reply for each multiple. -/
theorem replies_of_steady (n : ℕ) (arrivals : List (Fin n × Frame)) (schedule : List (Fin n))
    (hsteady : Steady (Completes totSizeB) .packets (start (aggregateOps totSizeB) arrivals)
      schedule)
    (hdone : ((start (aggregateOps totSizeB) arrivals).run schedule).Finished) :
    (∀ arrival processed, Performs totSizeB (aggregate totSizeB arrival processed) firstSlot
      (aggregateOps totSizeB)) ∧
    replies totSizeB ((start (aggregateOps totSizeB) arrivals).run schedule) =
      arrivals.countP (Takes totSizeB ·.2) / (miB / totSizeB) := by
  refine ⟨performs_aggregate (by decide), ?_⟩
  obtain ⟨k, hk⟩ := (balanced_aggregate arrivals).run hsteady
  rw [replies, hk.hits_of_finished hdone, passing_completes (by decide)]

/-- Two CPUs take 1026 frames, and the last counts of both come before their last reads. -/
theorem replies_of_steady_late : replies totSizeB
    ((start (aggregateOps totSizeB) (lateArrivals 1024)).run (lateSchedule 1024)) = 1 := by
  have hsteady : Steady (Completes totSizeB) Cell.packets
      (start (aggregateOps totSizeB) (lateArrivals 1024)) (lateSchedule 1024) := by
    rw [lateSchedule, steady_append]
    exact ⟨steady_start_replicate takesTickets_aggregateOps _ 0 _,
      steady_late 1024 (by decide) (by decide)⟩
  have hdone : ((start (aggregateOps totSizeB) (lateArrivals 1024)).run
      (lateSchedule 1024)).Finished := by
    rw [run_lateSchedule]
    exact finished_late 1024
  rw [(replies_of_steady 2 _ _ hsteady hdone).2, countP_lateArrivals]
  decide

/-- The thousand and twenty-fourth frame is handled without a reply. -/
theorem not_replies_late :
    ((start (aggregateOps totSizeB) (lateArrivals 1023)).run (lateSchedule 1023)).Finished ∧
    replies totSizeB
        ((start (aggregateOps totSizeB) (lateArrivals 1023)).run (lateSchedule 1023)) ≠
      (lateArrivals 1023).countP (Takes totSizeB ·.2) / (miB / totSizeB) := by
  rw [run_lateSchedule, replies_late, countP_lateArrivals]
  exact ⟨finished_late 1023, by decide⟩

end PacketBench.Xdp

import PacketBench.Dpdk.Runs
import PacketBench.Frame.Shared

/-! # The DPDK programs on several lcores

The lcores that run `aggregate` or `reduce` meet in atomic counters only. For
each burst an lcore folds the words of the accepted frames by atomic additions,
then adds the number of these frames to `pkt_rec` and reads `pkt_rec` back.
-/

namespace PacketBench.Dpdk

open Atomics PktM

variable {σ : Type}

/-- The atomic operations of an lcore for a frame; `work` folds the words. -/
def acceptedOps (work : Frame → ℕ → List SharedOp) (f : Frame) : List SharedOp :=
  if Accepted f then work f dataNr else []

/-- The atomic operations of an lcore for a burst; it polls again when the burst is empty. -/
def burstOps (work : Frame → ℕ → List SharedOp) (b : Burst) : List SharedOp :=
  if b.bufs = [] then []
  else b.bufs.flatMap (fun m => acceptedOps work m.frame) ++
    countOps (BitVec.ofNat 32 (acceptedIn b))

def aggregateOps : Burst → List SharedOp := burstOps Frame.sumOps

def reduceOps : Burst → List SharedOp := burstOps Frame.eachOps

/-- An lcore that is not interrupted performs the given operations: they lead to the counters and
to the notification of the turn. -/
structure Performs (process : PktM σ (Option Bool)) (slots : σ → ℕ → BitVec 32)
    (ops : Burst → List SharedOp) : Prop where
  counters : ∀ {notify tx s b step}, sinkBurst process notify tx s b = some step →
    cells step.state.pktRec (slots step.state.store) =
      (alone (cells s.pktRec (slots s.store)) (ops b)).mem
  notified : ∀ {notify tx s b step}, sinkBurst process notify tx s b = some step →
    (step.notified = true ↔
      ∃ x ∈ (alone (cells s.pktRec (slots s.store)) (ops b)).log, Completes x.2)

section Work

variable {work : Frame → ℕ → List SharedOp} {slots : σ → ℕ → BitVec 32} {g : ℕ → σ → Frame → σ}

theorem isAdd_acceptedOps (h : Folds work slots g) (f : Frame) :
    ∀ op ∈ acceptedOps work f, op.IsAdd := by
  intro op hop
  unfold acceptedOps at hop
  split_ifs at hop
  · exact h.isAdd f _ op hop
  · cases hop

theorem added_acceptedOps_packets (h : Folds work slots g) (f : Frame) :
    added .packets (acceptedOps work f) = 0 := by
  unfold acceptedOps
  split_ifs
  · exact h.packets f _
  · rfl

theorem slots_exec (h : Folds work slots g) {process : PktM σ (Option Bool)}
    (hadds : Adds process (g dataNr)) (s : σ) (f : Frame) (i : ℕ) :
    slots (process.exec (Run.start f s)).2.store i =
      slots s i + added (.slot i) (acceptedOps work f) := by
  by_cases hf : Accepted f
  · rw [(hadds.accepted s f hf).2, h.slots, acceptedOps, if_pos hf]
  · rw [(hadds.rejected s f hf).2, acceptedOps, if_neg hf, added_nil, add_zero]

theorem slots_storeAfter {process : PktM σ (Option Bool)}
    (hexec : ∀ s f i, slots (process.exec (Run.start f s)).2.store i =
      slots s i + added (.slot i) (acceptedOps work f)) (s : σ) (bufs : List Mbuf) (i : ℕ) :
    slots (storeAfter process s (bufs.map Mbuf.frame)) i =
      slots s i + added (.slot i) (bufs.flatMap fun m => acceptedOps work m.frame) := by
  induction bufs generalizing s with
  | nil => exact (add_zero _).symm
  | cons m bufs ih =>
    rw [List.map_cons, storeAfter, List.foldl_cons, ← storeAfter, ih, hexec,
      List.flatMap_cons, added_append, add_assoc]

theorem isAdd_flatMap_acceptedOps (h : Folds work slots g) (bufs : List Mbuf) :
    ∀ op ∈ bufs.flatMap fun m => acceptedOps work m.frame, op.IsAdd := by
  intro op hop
  obtain ⟨m, -, hop⟩ := List.mem_flatMap.mp hop
  exact isAdd_acceptedOps h m.frame op hop

theorem added_flatMap_acceptedOps_packets (h : Folds work slots g) (bufs : List Mbuf) :
    added .packets (bufs.flatMap fun m => acceptedOps work m.frame) = 0 := by
  rw [added_flatMap]
  refine List.sum_eq_zero fun v hv => ?_
  obtain ⟨m, -, rfl⟩ := List.mem_map.mp hv
  exact added_acceptedOps_packets h m.frame

/-- A program performs the operations of its work when it leaves each slot as they do. -/
theorem performs_of_slots (h : Folds work slots g) {process : PktM σ (Option Bool)}
    (hcounts : Counts process) (hexec : ∀ s f i, slots (process.exec (Run.start f s)).2.store i =
      slots s i + added (.slot i) (acceptedOps work f)) :
    Performs process slots (burstOps work) := by
  constructor
  · intro notify tx s b step hstep
    have hcount := (turn_of_sinkBurst hcounts hstep).count
    have hslots := slots_storeAfter hexec s.store b.bufs
    rw [store_of_sinkBurst hstep, hcount]
    by_cases hnil : b.bufs = []
    · rw [burstOps, if_pos hnil, acceptedIn_of_nil hnil, hnil]
      exact congrArg (cells · _) (add_zero _)
    · rw [burstOps, if_neg hnil, mem_alone_countOps (added_flatMap_acceptedOps_packets h b.bufs)]
      exact congrArg (cells _) (funext hslots)
  · intro notify tx s b step hstep
    have hturn := turn_of_sinkBurst hcounts hstep
    rw [notified_iff_completes hturn, hturn.count]
    by_cases hnil : b.bufs = []
    · rw [burstOps, if_pos hnil, log_alone_nil]
      simp [hnil]
    · rw [burstOps, if_neg hnil, log_alone_countOps (isAdd_flatMap_acceptedOps h b.bufs)
        (added_flatMap_acceptedOps_packets h b.bufs)]
      simp only [ne_eq, hnil, not_false_eq_true, true_and, List.mem_singleton, exists_eq_left]

theorem performs_of_adds (h : Folds work slots g) {process : PktM σ (Option Bool)}
    (hcounts : Counts process) (hadds : Adds process (g dataNr)) :
    Performs process slots (burstOps work) :=
  performs_of_slots h hcounts (slots_exec h hadds)

end Work

theorem performs_aggregate : Performs aggregate firstSlot aggregateOps :=
  performs_of_adds folds_sumOps counts_aggregate.1 adds_aggregate

theorem performs_reduce : Performs reduce id reduceOps :=
  performs_of_adds folds_eachOps counts_reduce.1 adds_reduce

def receivedIn (bursts : List Burst) : List Frame := bursts.flatMap (·.bufs.map Mbuf.frame)

theorem added_burstOps (work : Frame → ℕ → List SharedOp) (b : Burst) (i : ℕ) :
    added (.slot i) (burstOps work b) =
      ((b.bufs.map Mbuf.frame).map fun f => added (.slot i) (acceptedOps work f)).sum := by
  unfold burstOps
  split_ifs with hnil
  · rw [hnil]
    rfl
  · rw [added_append, added_countOps, add_zero, added_flatMap, List.map_map]
    rfl

theorem sum_added_burstOps (work : Frame → ℕ → List SharedOp) (bursts : List Burst) (i : ℕ) :
    (bursts.map fun b => added (.slot i) (burstOps work b)).sum =
      ((receivedIn bursts).map fun f => added (.slot i) (acceptedOps work f)).sum := by
  induction bursts with
  | nil => rfl
  | cons b bursts ih =>
    have hcons : receivedIn (b :: bursts) = b.bufs.map Mbuf.frame ++ receivedIn bursts :=
      List.flatMap_cons
    rw [List.map_cons, List.sum_cons, ih, added_burstOps, hcons, List.map_append, List.sum_append]

variable {bursts : List Burst} {mem : Cell → BitVec 32}

/-- However the lcores interleave, a slot ends as the sum of what the accepted frames add to it. -/
theorem slot_of_endsWith {work : Frame → ℕ → List SharedOp}
    (h : EndsWith (burstOps work) bursts mem) {frames : List Frame}
    (hcut : (receivedIn bursts).Perm frames) (i : ℕ) : mem (.slot i) =
      ((frames.filter (Accepted ·)).map fun f => added (.slot i) (work f dataNr)).sum := by
  have hframe : ∀ f, (if Accepted f then added (.slot i) (work f dataNr) else 0) =
      added (.slot i) (acceptedOps work f) := by
    intro f
    unfold acceptedOps
    split_ifs <;> rfl
  rw [h.mem_eq, sum_added_burstOps, (hcut.map _).sum_eq, sum_map_filter]
  simp only [hframe]

theorem aggregate_of_endsWith (h : EndsWith aggregateOps bursts mem) {frames : List Frame}
    (hcut : (receivedIn bursts).Perm frames) : mem (.slot 0) =
      ((frames.filter (Accepted ·)).map (Frame.wordsSum · dataNr)).sum := by
  rw [slot_of_endsWith h hcut]
  simp only [added_sumOps]

theorem reduce_of_endsWith (h : EndsWith reduceOps bursts mem) {frames : List Frame}
    (hcut : (receivedIn bursts).Perm frames) {i : ℕ} (hi : i < dataNr) :
    mem (.slot i) = ((frames.filter (Accepted ·)).map fun f => f.word i).sum := by
  rw [slot_of_endsWith h hcut]
  simp only [added_eachOps, if_pos hi]

end PacketBench.Dpdk

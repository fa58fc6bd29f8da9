import PacketBench.Concurrency.Guarded
import PacketBench.Dpdk.Echo
import PacketBench.Dpdk.Notification
import Mathlib.Algebra.Order.BigOperators.Group.List

/-! # The file of latencies

The timed DPDK programs read the time stamp counter when a burst comes in and
again in `calc_latency`, which writes the latency per packet to a file, once for
each packet, under a lock that all lcores share. So the file has one line for
every accepted frame, the lines of a turn stand together, and their sum is the
measured time up to the rounding.
-/

namespace PacketBench.Dpdk

open Finset Lists PktM

variable {σ : Type}

/-- A turn of an lcore, with the store it finds and the two readings of the counter. -/
structure Measured (σ : Type) where
  burst : Burst
  store : σ
  cycles : BitVec 64
  now : BitVec 64

-- The conversion of cycles to nanoseconds goes through floating point.
variable (toNs : BitVec 64 → BitVec 64)

/-- The lines that `calc_latency` writes. -/
def calcLatency (cycles now : BitVec 64) (nbPkts : BitVec 16) : List (BitVec 64) :=
  let latency := toNs (now - cycles)
  List.replicate nbPkts.toNat (latency / nbPkts.setWidth 64)

/-- The meaningful packets of a turn of a program that consumes its frames. -/
def nbMngRx (process : PktM σ (Option Bool)) (t : Measured σ) : BitVec 16 :=
  BitVec.ofNat 16 ((processAll process t.store t.burst.bufs).1.countP (·.2 = some true))

def sinkLines (process : PktM σ (Option Bool)) (t : Measured σ) : List (BitVec 64) :=
  calcLatency toNs t.cycles t.now (nbMngRx process t)

/-- The packets that a program that sends its frames back offers to the driver, which calls
`calc_latency` on them. -/
def nbTx (process : PktM σ Bool) (t : Measured σ) : BitVec 16 :=
  BitVec.ofNat 16 ((processAll process t.store t.burst.bufs).1.countP Prod.snd)

def echoLines (process : PktM σ Bool) (t : Measured σ) : List (BitVec 64) :=
  calcLatency toNs t.cycles t.now (nbTx process t)

namespace Measured

variable (t : Measured σ)

def latency : BitVec 64 := toNs (t.now - t.cycles)

def perFrame : ℕ := (t.latency toNs).toNat / acceptedIn t.burst

end Measured

theorem toNat_ofNat_acceptedIn (b : Burst) :
    (BitVec.ofNat 16 (acceptedIn b)).toNat = acceptedIn b := by
  have hle := acceptedIn_le b
  rw [burstSize] at hle
  exact Nat.mod_eq_of_lt (by omega)

theorem calcLatency_acceptedIn (t : Measured σ) :
    (calcLatency toNs t.cycles t.now (BitVec.ofNat 16 (acceptedIn t.burst))).map BitVec.toNat =
      List.replicate (acceptedIn t.burst) (t.perFrame toNs) := by
  have hcount := toNat_ofNat_acceptedIn t.burst
  have hwide : ((BitVec.ofNat 16 (acceptedIn t.burst)).setWidth 64).toNat = acceptedIn t.burst := by
    rw [BitVec.toNat_setWidth_of_le (by decide), hcount]
  unfold calcLatency
  rw [List.map_replicate, hcount, BitVec.toNat_udiv, hwide]
  rfl

theorem nbTx_eq {process : PktM σ Bool} (h : Echoes process) (t : Measured σ) :
    nbTx process t = BitVec.ofNat 16 (acceptedIn t.burst) := by
  unfold nbTx acceptedIn
  rw [countP_of_handled (forall₂_processAll h t.store t.burst.bufs)]

/-- The program does not exit on the burst of the turn. -/
def Stays (process : PktM σ (Option Bool)) (t : Measured σ) : Prop :=
  ∀ out ∈ (processAll process t.store t.burst.bufs).1, out.2.isSome

theorem stays_of_finishes {process : PktM σ (Option Bool)} (h : Finishes process)
    (t : Measured σ) : Stays process t := isSome_of_processAll h t.store t.burst.bufs

theorem nbMngRx_eq {process : PktM σ (Option Bool)} (h : Counts process) {t : Measured σ}
    (hstays : Stays process t) : nbMngRx process t = BitVec.ofNat 16 (acceptedIn t.burst) := by
  have hexit : ¬ (processAll process t.store t.burst.bufs).1.any (·.2.isNone) := by
    rw [List.any_eq_true]
    rintro ⟨out, hout, hnone⟩
    have hsome := hstays out hout
    rw [Option.isNone_iff_eq_none.mp hnone] at hsome
    cases hsome
  unfold nbMngRx acceptedIn
  rw [countP_of_counted (forall₂_processAll h t.store t.burst.bufs) hexit]

theorem sum_map_filter_pos (f : Measured σ → ℕ) (l : List (Measured σ)) :
    ((l.filter (0 < f ·)).map f).sum = (l.map f).sum := by
  induction l with
  | nil => rfl
  | cons t l ih =>
    rw [List.map_cons, List.sum_cons, ← ih]
    rcases Nat.eq_zero_or_pos (f t) with hzero | hpos
    · rw [List.filter_cons_of_neg (by simp [hzero]), hzero, Nat.zero_add]
    · rw [List.filter_cons_of_pos (by simpa using hpos), List.map_cons, List.sum_cons]

section File

variable {ι : Type} [DecidableEq ι]

theorem ofThread_filter (p : Measured σ → Prop) [DecidablePred p] (i : ι)
    (l : List (ι × Measured σ)) :
    ofThread i (l.filter (p ·.2)) = (ofThread i l).filter (p ·) := by
  unfold ofThread
  rw [List.filter_map, List.filter_filter, List.filter_filter]
  congr 1
  refine List.filter_congr fun x _ => ?_
  rw [Bool.and_comm]
  rfl

def linesOf (order : List (ι × Measured σ)) : List ℕ :=
  order.flatMap fun x => List.replicate (acceptedIn x.2.burst) (x.2.perFrame toNs)

omit [DecidableEq ι] in
theorem length_linesOf (order : List (ι × Measured σ)) :
    (linesOf toNs order).length = (order.map (acceptedIn ·.2.burst)).sum := by
  unfold linesOf
  simp [List.length_flatMap]

omit [DecidableEq ι] in
theorem sum_linesOf (order : List (ι × Measured σ)) : (linesOf toNs order).sum =
    (order.map fun x => acceptedIn x.2.burst * x.2.perFrame toNs).sum := by
  unfold linesOf
  induction order with
  | nil => rfl
  | cons x order ih =>
    rw [List.flatMap_cons, List.sum_append_nat, ih, List.sum_replicate_nat, List.map_cons,
      List.sum_cons]

omit [DecidableEq ι] in
theorem linesOf_filter_pos (order : List (ι × Measured σ)) :
    linesOf toNs (order.filter (0 < acceptedIn ·.2.burst)) = linesOf toNs order := by
  unfold linesOf
  induction order with
  | nil => rfl
  | cons x order ih =>
    rcases Nat.eq_zero_or_pos (acceptedIn x.2.burst) with hzero | hpos
    · rw [List.filter_cons_of_neg (by simp [hzero]), ih, List.flatMap_cons, hzero,
        List.replicate_zero, List.nil_append]
    · rw [List.filter_cons_of_pos (by simpa using hpos), List.flatMap_cons, ih, List.flatMap_cons]

variable [Fintype ι]

/-- The numbers in the file, given the turns of the lcores: one block for each turn with accepted
frames, the blocks of an lcore in the order of its turns, one line for each accepted frame, and
the measured time as the sum, up to less than a nanosecond for each line. -/
structure LatencyFile (turns : ι → List (Measured σ)) (file : List ℕ) : Prop where
  blocks : ∃ order : List (ι × Measured σ),
    (∀ i, ofThread i order = (turns i).filter (0 < acceptedIn ·.burst)) ∧
      file = linesOf toNs order
  length : file.length = ∑ i, ((turns i).map (acceptedIn ·.burst)).sum
  sum_le : file.sum ≤
    ∑ i, (((turns i).filter (0 < acceptedIn ·.burst)).map fun t => (t.latency toNs).toNat).sum
  le_sum : ∑ i, (((turns i).filter (0 < acceptedIn ·.burst)).map
    fun t => (t.latency toNs).toNat + 1).sum ≤ file.sum + file.length

variable {toNs} {turns : ι → List (Measured σ)}

theorem latencyFile_linesOf {order : List (ι × Measured σ)}
    (h : ∀ i, ofThread i order = (turns i).filter (0 < acceptedIn ·.burst)) :
    LatencyFile toNs turns (linesOf toNs order) := by
  have hpos : ∀ x ∈ order, 0 < acceptedIn x.2.burst := by
    intro x hx
    have hmem : x.2 ∈ ofThread x.1 order :=
      List.mem_map.mpr ⟨x, List.mem_filter.mpr ⟨hx, by simp⟩, rfl⟩
    rw [h] at hmem
    exact of_decide_eq_true (List.mem_filter.mp hmem).2
  have htotal : ∀ f : Measured σ → ℕ,
      ∑ i, (((turns i).filter (0 < acceptedIn ·.burst)).map f).sum =
        (order.map fun x => f x.2).sum := by
    intro f
    rw [← sum_ofThread f]
    exact sum_congr rfl fun i _ => by rw [h]
  refine ⟨⟨order, h, rfl⟩, ?_, ?_, ?_⟩
  · rw [length_linesOf, ← sum_ofThread fun t : Measured σ => acceptedIn t.burst]
    refine sum_congr rfl fun i _ => ?_
    rw [h]
    exact sum_map_filter_pos (fun t => acceptedIn t.burst) (turns i)
  · rw [htotal, sum_linesOf]
    exact List.sum_le_sum fun x _ => Nat.mul_div_le _ _
  · rw [htotal, sum_linesOf, length_linesOf, ← List.sum_map_add]
    refine List.sum_le_sum fun x hx => ?_
    have hdiv := Nat.lt_mul_div_succ (x.2.latency toNs).toNat (hpos x hx)
    rw [Nat.mul_succ] at hdiv
    exact hdiv

theorem latencyFile_of_finished {lines : Measured σ → List (BitVec 64)}
    {measured : Measured σ → Bool} {schedule : List ι}
    (hlines : ∀ i, ∀ t ∈ turns i, lines t =
      calcLatency toNs t.cycles t.now (BitVec.ofNat 16 (acceptedIn t.burst)))
    (hmeasured : ∀ i, ∀ t ∈ turns i, 0 < acceptedIn t.burst → measured t)
    (hdone : ((Guarded.System.start fun i => (turns i).filter measured).run lines
      schedule).Finished) :
    LatencyFile toNs turns (((Guarded.System.start fun i => (turns i).filter measured).run lines
      schedule).file.map BitVec.toNat) := by
  obtain ⟨hfile, hwork⟩ := (Guarded.orderly_start.run schedule).of_finished hdone
  generalize (Guarded.System.start fun i => (turns i).filter measured).run lines schedule = s
    at hfile hwork
  have hmem : ∀ x ∈ s.taken, x.2 ∈ turns x.1 := by
    intro x hx
    have hx' : x.2 ∈ ofThread x.1 s.taken :=
      List.mem_map.mpr ⟨x, List.mem_filter.mpr ⟨hx, by simp⟩, rfl⟩
    rw [hwork] at hx'
    exact (List.mem_filter.mp hx').1
  have hnumbers : s.file.map BitVec.toNat =
      linesOf toNs (s.taken.filter (0 < acceptedIn ·.2.burst)) := by
    rw [linesOf_filter_pos, hfile, List.map_flatMap]
    refine List.flatMap_congr fun x hx => ?_
    rw [hlines x.1 x.2 (hmem x hx)]
    exact calcLatency_acceptedIn toNs x.2
  rw [hnumbers]
  refine latencyFile_linesOf fun i => ?_
  rw [ofThread_filter (fun t => 0 < acceptedIn t.burst), hwork, List.filter_filter]
  refine List.filter_congr fun t ht => ?_
  by_cases hpos : 0 < acceptedIn t.burst
  · simp [hpos, hmeasured i t ht hpos]
  · simp [hpos]

end File

section Programs

variable {ι : Type} [DecidableEq ι]

/-- The file after some steps of the lcores, which log every turn with meaningful packets. -/
def sinkLog (app : SinkApp) (turns : ι → List (Measured app.Store)) (schedule : List ι) :
    Guarded.System ι (Measured app.Store) (BitVec 64) :=
  (Guarded.System.start fun i => (turns i).filter (nbMngRx app.process · ≠ 0)).run
    (sinkLines toNs app.process) schedule

/-- The file after some steps of the lcores, which log every turn that offers mbufs to the driver,
be it none at all. -/
def echoLog (H : RteHash) (rteIpv4UdptcpCksum : Cksum) (app : EchoApp)
    (turns : ι → List (Measured (app.Store H))) (schedule : List ι) :
    Guarded.System ι (Measured (app.Store H)) (BitVec 64) :=
  (Guarded.System.start fun i => (turns i).filter (!·.burst.bufs.isEmpty)).run
    (echoLines toNs (app.process H rteIpv4UdptcpCksum)) schedule

variable [Fintype ι]

theorem latencyFile_sinkLog {app : SinkApp} {turns : ι → List (Measured app.Store)}
    (hstays : ∀ i, ∀ t ∈ turns i, Stays app.process t) {schedule : List ι}
    (hdone : (sinkLog toNs app turns schedule).Finished) :
    LatencyFile toNs turns ((sinkLog toNs app turns schedule).file.map BitVec.toNat) := by
  refine latencyFile_of_finished (fun i t ht => ?_) (fun i t ht hpos => ?_) hdone
  · rw [sinkLines, nbMngRx_eq (counts_process app) (hstays i t ht)]
  · rw [nbMngRx_eq (counts_process app) (hstays i t ht), decide_eq_true_eq, ne_eq,
      ← BitVec.toNat_inj, toNat_ofNat_acceptedIn]
    exact hpos.ne'

theorem latencyFile_echoLog {H : RteHash} {rteIpv4UdptcpCksum : Cksum} {app : EchoApp}
    {turns : ι → List (Measured (app.Store H))} {schedule : List ι}
    (hdone : (echoLog toNs H rteIpv4UdptcpCksum app turns schedule).Finished) :
    LatencyFile toNs turns
      ((echoLog toNs H rteIpv4UdptcpCksum app turns schedule).file.map BitVec.toNat) := by
  refine latencyFile_of_finished (fun i t ht => ?_) (fun i t ht hpos => ?_) hdone
  · rw [echoLines, nbTx_eq (echoes_process H rteIpv4UdptcpCksum app)]
  · rcases hbufs : t.burst.bufs with _ | ⟨m, ms⟩
    · rw [acceptedIn_of_nil hbufs] at hpos
      cases hpos
    · rfl

theorem exists_finished_sinkLog (app : SinkApp) (turns : ι → List (Measured app.Store))
    (schedule : List ι) :
    ∃ schedule', (sinkLog toNs app turns (schedule ++ schedule')).Finished :=
  Guarded.exists_finished_start _ _ schedule

/-- Whatever the order in which the lcores get the lock, they can finish, and then the file holds
the latencies of their turns. -/
theorem sinkLog_latencyFile (app : SinkApp) (turns : ι → List (Measured app.Store))
    (hstays : ∀ i, ∀ t ∈ turns i, Stays app.process t) (schedule : List ι) :
    (∃ schedule', (sinkLog toNs app turns (schedule ++ schedule')).Finished) ∧
    ((sinkLog toNs app turns schedule).Finished →
      LatencyFile toNs turns ((sinkLog toNs app turns schedule).file.map BitVec.toNat)) := by
  constructor
  · exact exists_finished_sinkLog toNs app turns schedule
  · exact latencyFile_sinkLog toNs hstays

/-- The same of the programs that send their frames back: the lines count the frames offered to
the driver, whether it takes them or not. -/
theorem echoLog_latencyFile (H : RteHash) (rteIpv4UdptcpCksum : Cksum) (app : EchoApp)
    (turns : ι → List (Measured (app.Store H))) (schedule : List ι) :
    (∃ schedule', (echoLog toNs H rteIpv4UdptcpCksum app turns (schedule ++ schedule')).Finished) ∧
    ((echoLog toNs H rteIpv4UdptcpCksum app turns schedule).Finished → LatencyFile toNs turns
      ((echoLog toNs H rteIpv4UdptcpCksum app turns schedule).file.map BitVec.toNat)) := by
  constructor
  · exact Guarded.exists_finished_start _ _ schedule
  · exact latencyFile_echoLog toNs

end Programs

/-- Two lcores that log one frame each. -/
theorem sinkLog_latencyFile_singles : ∃ schedule : List (Fin 2),
    (sinkLog id .aggregate (fun _ => [⟨singleBurst, (0 : BitVec 32), 5, 25⟩])
      schedule).Finished ∧
    (sinkLog id .aggregate (fun _ => [⟨singleBurst, (0 : BitVec 32), 5, 25⟩])
      schedule).file.length = 2 := by
  have hboth := sinkLog_latencyFile id .aggregate
    (fun _ : Fin 2 => [⟨singleBurst, (0 : BitVec 32), 5, 25⟩])
    fun i t _ => stays_of_finishes counts_aggregate.2 t
  obtain ⟨schedule, hdone⟩ := (hboth []).1
  refine ⟨schedule, hdone, ?_⟩
  have hlength := ((hboth schedule).2 hdone).length
  simpa [acceptedIn_singleBurst] using hlength

end PacketBench.Dpdk

import PacketBench.DataAnalysis.Calculate
import PacketBench.Dpdk.Latency
import PacketBench.Lists.Decimals

/-! # From the turns to the plot

`gener_ben.py` runs a program for one size after another, and the program
appends its latencies to one file. The plot then takes for each size as many
lines as the sender has messages and divides by their sum. So it shows the
throughput of the right run exactly when the program has accepted every message
once.
-/

namespace PacketBench.DataAnalysis

open Decimals Dpdk Finset

/-- The sum of the next lines, and the text left; `int` fails at the end of the file. -/
def readTime : ℕ → ℕ → List Char → Option (ℕ × List Char)
  | 0, time, text => some (time, text)
  | n + 1, time, text => do
    let (line, text) := readline text
    readTime n (time + (← int line)) text

-- `throughput time` is `round((FILE_SIZE*8)/(time), 2)` in floating point.
variable {F : Type} (throughput : ℕ → F)

/-- The bar for each size; the division fails when the lines of a size sum up to 0. -/
def dataLoc : List ℕ → List Char → Option (List F)
  | [], _ => some []
  | size :: sizes, text => do
    let (time, text) ← readTime (fileSize / size) 0 text
    if time = 0 then none
    else
      let bars ← dataLoc sizes text
      return throughput time :: bars

def timesOf : List ℕ → List ℕ → List ℕ
  | [], _ => []
  | size :: sizes, lines =>
    (lines.take (fileSize / size)).sum :: timesOf sizes (lines.drop (fileSize / size))

theorem readTime_printLines (n time : ℕ) (lines : List ℕ) : readTime n time (printLines lines) =
    if n ≤ lines.length then some (time + (lines.take n).sum, printLines (lines.drop n))
    else none := by
  induction n generalizing time lines with
  | zero => rfl
  | succ n ih =>
    cases lines with
    | nil => rfl
    | cons line lines =>
      have hstep : readTime (n + 1) time (printLines (line :: lines)) =
          readTime n (time + line) (printLines lines) := by
        rw [readTime, printLines_cons, readline_printLine_append]
        simp only [int_printLine, Option.bind_eq_bind, Option.bind_some]
      rw [hstep, ih, List.length_cons, List.take_succ_cons, List.sum_cons, List.drop_succ_cons,
        Nat.add_assoc]
      simp only [Nat.add_le_add_iff_right]

theorem le_length_of_readTime {text : List Char} {lines : List ℕ} (h : text <+: printLines lines)
    {n time : ℕ} (hsome : (readTime n time text).isSome) : n ≤ lines.length := by
  induction lines generalizing n time text with
  | nil =>
    obtain rfl := List.prefix_nil.mp h
    cases n with
    | zero => exact le_rfl
    | succ n => cases hsome
  | cons line lines ih =>
    cases n with
    | zero => exact Nat.zero_le _
    | succ n =>
      rw [List.length_cons, Nat.succ_le_succ_iff]
      rcases prefix_printLines_cons h with hcut | ⟨rest, rfl, hrest⟩
      · rw [readTime, readline_of_notMem hcut] at hsome
        cases n with
        | zero => exact Nat.zero_le _
        | succ n =>
          cases hint : int text with
          | none => simp [hint] at hsome
          | some value => simp [hint, readTime, readline] at hsome
      · rw [readTime, readline_printLine_append] at hsome
        simp only [int_printLine, Option.bind_eq_bind, Option.bind_some] at hsome
        exact ih hrest hsome

theorem dataLoc_cons_printLines (size : ℕ) (sizes lines : List ℕ) :
    dataLoc throughput (size :: sizes) (printLines lines) =
      if fileSize / size ≤ lines.length ∧ (lines.take (fileSize / size)).sum ≠ 0 then
        (dataLoc throughput sizes (printLines (lines.drop (fileSize / size)))).map
          (throughput (lines.take (fileSize / size)).sum :: ·)
      else none := by
  rw [dataLoc, readTime_printLines]
  by_cases hle : fileSize / size ≤ lines.length
  · rw [if_pos hle, Nat.zero_add]
    by_cases hzero : (lines.take (fileSize / size)).sum = 0
    · simp [hzero]
    · simp [hle, hzero, Option.map_eq_bind]
  · simp [hle]

/-- There are lines for all sizes, and those of no size sum up to 0. -/
def Readable (sizes lines : List ℕ) : Prop :=
  (sizes.map (fileSize / ·)).sum ≤ lines.length ∧ 0 ∉ timesOf sizes lines

theorem readable_cons (size : ℕ) (sizes lines : List ℕ) : Readable (size :: sizes) lines ↔
    (fileSize / size ≤ lines.length ∧ (lines.take (fileSize / size)).sum ≠ 0) ∧
      Readable sizes (lines.drop (fileSize / size)) := by
  unfold Readable
  rw [timesOf, List.map_cons, List.sum_cons, List.length_drop, List.mem_cons, not_or]
  have hzero : ¬ 0 = (lines.take (fileSize / size)).sum ↔ (lines.take (fileSize / size)).sum ≠ 0 :=
    ne_comm
  have hlen : fileSize / size + (sizes.map (fileSize / ·)).sum ≤ lines.length ↔
      fileSize / size ≤ lines.length ∧
        (sizes.map (fileSize / ·)).sum ≤ lines.length - fileSize / size := by omega
  rw [hzero, hlen, and_and_and_comm]

theorem dataLoc_of_readable {sizes lines : List ℕ} (h : Readable sizes lines) :
    dataLoc throughput sizes (printLines lines) = some ((timesOf sizes lines).map throughput) := by
  induction sizes generalizing lines with
  | nil => rfl
  | cons size sizes ih =>
    obtain ⟨hfirst, hrest⟩ := (readable_cons size sizes lines).mp h
    rw [dataLoc_cons_printLines, if_pos hfirst, ih hrest]
    rfl

theorem dataLoc_of_not_readable {sizes lines : List ℕ} (h : ¬ Readable sizes lines) :
    dataLoc throughput sizes (printLines lines) = none := by
  induction sizes generalizing lines with
  | nil => exact absurd ⟨Nat.zero_le _, List.not_mem_nil⟩ h
  | cons size sizes ih =>
    rw [readable_cons, not_and] at h
    rw [dataLoc_cons_printLines]
    split_ifs with hfirst
    · rw [ih (h hfirst)]
      rfl
    · rfl

/-- The plot fails when there are too few lines for all sizes or when the lines of a size sum up
to 0. -/
theorem dataLoc_eq_none_iff (sizes lines : List ℕ) :
    dataLoc throughput sizes (printLines lines) = none ↔ ¬ Readable sizes lines := by
  constructor
  · intro hnone h
    rw [dataLoc_of_readable throughput h] at hnone
    cases hnone
  · exact dataLoc_of_not_readable throughput

/-- The plot takes the lines of a run, and no others, for its size. -/
theorem drop_append_iff (n : ℕ) (run later : List ℕ) :
    (readTime n 0 (printLines (run ++ later))).map Prod.snd = some (printLines later) ↔
      run.length = n := by
  rw [readTime_printLines]
  constructor
  · intro h
    split_ifs at h with hle
    · have hlen := congrArg (List.count newline) (Option.some.inj h)
      rw [count_newline_printLines, count_newline_printLines, List.length_drop] at hlen
      rw [List.length_append] at hle hlen
      omega
    · cases h
  · rintro rfl
    rw [if_pos (by simp), List.drop_left]
    rfl

section Run

variable {σ ι : Type} [Fintype ι] (toNs : BitVec 64 → BitVec 64) (turns : ι → List (Measured σ))

def acceptedMsgs : ℕ := ∑ i, ((turns i).map (acceptedIn ·.burst)).sum

def measuredNs : ℕ :=
  ∑ i, (((turns i).filter (0 < acceptedIn ·.burst)).map fun t => (t.latency toNs).toNat).sum

/-- What the plot makes of a run whose lines stand in front of those of the other sizes: it takes
its lines exactly when the run accepted as many frames as there are messages, and then it divides
by the measured time up to less than a nanosecond for each message. -/
structure Plotted (run later : List ℕ) : Prop where
  own : (readTime (fileSize / totSizeB) 0 (printLines (run ++ later))).map Prod.snd =
    some (printLines later) ↔ acceptedMsgs turns = nrMsgs
  bars : acceptedMsgs turns = nrMsgs → ∃ time,
    time ≤ measuredNs toNs turns ∧ measuredNs toNs turns < time + nrMsgs ∧
    dataLoc throughput sizes (printLines (run ++ later)) =
      if time = 0 then none
      else (dataLoc throughput [512, 64] (printLines later)).map (throughput time :: ·)
  fails : dataLoc throughput sizes (printLines (run ++ later)) = none ↔
    acceptedMsgs turns + later.length < (sizes.map (fileSize / ·)).sum ∨
      0 ∈ timesOf sizes (run ++ later)

variable {toNs turns}

theorem measuredNs_lt [DecidableEq ι] {run : List ℕ} (h : LatencyFile toNs turns run)
    (hpos : 0 < acceptedMsgs turns) : measuredNs toNs turns < run.sum + run.length := by
  have hturns : 0 < ∑ i, (((turns i).filter (0 < acceptedIn ·.burst)).map fun _ => 1).sum := by
    obtain ⟨i, hi, hsum⟩ := Finset.sum_pos_iff.mp hpos
    refine Finset.sum_pos_iff.mpr ⟨i, hi, ?_⟩
    rw [← sum_map_filter_pos (fun t : Measured σ => acceptedIn t.burst)] at hsum
    rw [List.map_const', List.sum_replicate_nat, Nat.mul_one, List.length_pos_iff]
    intro hnil
    rw [hnil] at hsum
    cases hsum
  have hle := h.le_sum
  simp only [List.sum_map_add] at hle
  rw [sum_add_distrib] at hle
  unfold measuredNs
  omega

theorem plotted_of_latencyFile [DecidableEq ι] {run : List ℕ} (h : LatencyFile toNs turns run)
    (later : List ℕ) : Plotted throughput toNs turns run later := by
  have hlen : run.length = acceptedMsgs turns := h.length
  constructor
  · rw [drop_append_iff, hlen]
    rfl
  · intro hall
    have hfull : run.length = fileSize / totSizeB := hlen.trans hall
    refine ⟨run.sum, h.sum_le, ?_, ?_⟩
    · have hpos : 0 < acceptedMsgs turns := hall.symm ▸ (by decide : 0 < nrMsgs)
      have hlt := measuredNs_lt h hpos
      rwa [hlen, hall] at hlt
    · have hsizes : sizes = totSizeB :: [512, 64] := rfl
      rw [hsizes, dataLoc_cons_printLines, ← hfull, List.take_left, List.drop_left]
      by_cases hzero : run.sum = 0
      · rw [if_neg fun hf => hf.2 hzero, if_pos hzero]
      · rw [if_pos ⟨by simp, hzero⟩, if_neg hzero]
  · rw [dataLoc_eq_none_iff, Readable, not_and_or, not_not, List.length_append, hlen, Nat.not_le]

end Run

/-- The plot shows the right throughput exactly when each message was accepted once. -/
theorem plot_of_runs {ι : Type} [Fintype ι] [DecidableEq ι] (toNs : BitVec 64 → BitVec 64)
    (schedule : List ι) (later : List ℕ) :
    (∀ (app : SinkApp) (turns : ι → List (Measured app.Store)),
      (∀ i, ∀ t ∈ turns i, Stays app.process t) → (sinkLog toNs app turns schedule).Finished →
        Plotted throughput toNs turns ((sinkLog toNs app turns schedule).file.map BitVec.toNat)
          later) ∧
    (∀ (H : RteHash) (rteIpv4UdptcpCksum : Cksum) (app : EchoApp)
      (turns : ι → List (Measured (app.Store H))),
      (echoLog toNs H rteIpv4UdptcpCksum app turns schedule).Finished →
        Plotted throughput toNs turns ((echoLog toNs H rteIpv4UdptcpCksum app turns
          schedule).file.map BitVec.toNat) later) := by
  constructor
  · intro app turns hstays hdone
    exact plotted_of_latencyFile throughput (latencyFile_sinkLog toNs hstays hdone) later
  · intro H rteIpv4UdptcpCksum app turns hdone
    exact plotted_of_latencyFile throughput (latencyFile_echoLog toNs hdone) later

theorem timesOf_replicate {sizes : List ℕ} {n : ℕ} (h : (sizes.map (fileSize / ·)).sum ≤ n)
    (v : ℕ) : timesOf sizes (List.replicate n v) = sizes.map (fileSize / · * v) := by
  induction sizes generalizing n with
  | nil => rfl
  | cons size sizes ih =>
    rw [List.map_cons, List.sum_cons] at h
    rw [timesOf, List.take_replicate, List.sum_replicate_nat, List.drop_replicate, List.map_cons,
      min_eq_left (by omega), ih (by omega)]

/-- Lines of 5 for the sizes 512 and 64. -/
def otherLines : List ℕ := List.replicate 18432 5

theorem dataLoc_otherLines : dataLoc throughput [512, 64] (printLines otherLines) =
    some [throughput 10240, throughput 81920] := by
  have htimes : timesOf [512, 64] otherLines = [10240, 81920] := timesOf_replicate (by decide) 5
  have hreadable : Readable [512, 64] otherLines := by
    constructor
    · rw [otherLines, List.length_replicate]
      decide
    · rw [htimes]
      decide
  rw [dataLoc_of_readable throughput hreadable, htimes]
  rfl

/-- One message in 20 nanoseconds. -/
def quickTurn : Measured (SinkApp.Store .aggregate) := ⟨singleBurst, (0 : BitVec 32), 5, 25⟩

theorem acceptedMsgs_quickTurn : acceptedMsgs (fun _ : Fin 2 => List.replicate 512 quickTurn) =
    nrMsgs := by
  have hone : acceptedIn quickTurn.burst = 1 := acceptedIn_singleBurst
  rw [acceptedMsgs, Finset.sum_const, List.map_replicate, List.sum_replicate_nat, hone]
  rfl

theorem measuredNs_quickTurn : measuredNs id (fun _ : Fin 2 => List.replicate 512 quickTurn) =
    20480 := by
  have hone : acceptedIn quickTurn.burst = 1 := acceptedIn_singleBurst
  rw [measuredNs, Finset.sum_const, List.filter_replicate_of_pos (by simp [hone]),
    List.map_replicate, List.sum_replicate_nat]
  rfl

/-- Two lcores that log 512 messages each, one in a turn, with the lines of the other sizes behind
theirs. -/
theorem plot_of_runs_quick : ∃ (schedule : List (Fin 2)) (time : ℕ),
    19456 < time ∧ time ≤ 20480 ∧ dataLoc id sizes (printLines
      ((sinkLog id .aggregate (fun _ => List.replicate 512 quickTurn) schedule).file.map
        BitVec.toNat ++ otherLines)) = some [time, 10240, 81920] := by
  obtain ⟨schedule, hdone⟩ := exists_finished_sinkLog id .aggregate
    (fun _ : Fin 2 => List.replicate 512 quickTurn) []
  have hstays := stays_of_finishes (finishes_process .aggregate (by decide))
  have hplotted := (plot_of_runs id id schedule otherLines).1 .aggregate _
    (fun i t _ => hstays t) hdone
  obtain ⟨time, hle, hlt, hbars⟩ := hplotted.bars acceptedMsgs_quickTurn
  have hmsgs : nrMsgs = 1024 := rfl
  rw [measuredNs_quickTurn] at hle hlt
  refine ⟨schedule, time, by omega, hle, hbars.trans ?_⟩
  rw [if_neg (by omega), dataLoc_otherLines]
  rfl

end PacketBench.DataAnalysis

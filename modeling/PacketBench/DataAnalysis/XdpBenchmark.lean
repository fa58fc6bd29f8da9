import PacketBench.DataAnalysis.Benchmark
import PacketBench.Xdp.ResultFile

/-! # The plot of the XDP programs

`gener_ben.py` sends the file to a program once and kills the loader, and the
plot takes as many lines as there are messages. The program replies to the last
message of a period and passes on the others, so the loader has printed a line
too few, whatever the kill leaves of its output.
-/

namespace PacketBench.DataAnalysis

open Decimals PktM Xdp

variable {σ : Type} {prog : Instant → Instant → PktM (Counted σ) Verdict}
  {counts : Frame → Prop} {line : Arrival → BitVec 64}

/-- `SIZES` of the XDP benchmark. -/
def xdpSizes : List ℕ := [1024]

section Plot

variable {F : Type} {throughput : ℕ → F}

theorem isSome_dataLoc_output (received : List Frame) :
    (dataLoc throughput xdpSizes (output received)).isSome ↔
      Readable xdpSizes ((printed received).map BitVec.toNat) := by
  rw [Option.isSome_iff_ne_none, output, ne_eq, dataLoc_eq_none_iff, not_not]

theorem period_le_of_isSome {received : List Frame} {text : List Char}
    (h : IsResultFile received text) (hsome : (dataLoc throughput xdpSizes text).isSome) :
    period ≤ (printed received).length := by
  have hread : (readTime period 0 text).isSome := by
    have hperiod : fileSize / 1024 = period := rfl
    rw [xdpSizes, dataLoc, hperiod] at hsome
    cases htime : readTime period 0 text with
    | none => simp [htime] at hsome
    | some out => rfl
  have hle := le_length_of_readTime h hread
  rwa [List.length_map] at hle

end Plot

variable (prog counts line) in
/-- The lines of a run from an empty counter on: one for each counted message but the last one of
each period, at most as many when datagrams get lost or others come. Whatever part of the output
is in the file, the plot fails unless the messages go beyond a period; when all of it is there,
they have to, and the lines must not sum up to 0. -/
structure FileOfRun [DecidablePred counts] : Prop where
  lines : ∀ data arrivals, (∀ a ∈ arrivals, counts a.frame) →
    printed (passedOn prog ⟨0, data⟩ arrivals) =
      ((arrivals.zipIdx 1).filter fun x => ¬ period ∣ x.2).map fun x => line x.1
  length_le : ∀ data arrivals received, List.Sublist received (passedOn prog ⟨0, data⟩ arrivals) →
    (printed received).length + arrivals.countP (counts ·.frame) / period ≤
      arrivals.countP (counts ·.frame) +
        arrivals.countP fun a => ¬ counts a.frame ∧ (pollStats a.frame).isSome
  killed : ∀ {F : Type} (throughput : ℕ → F) data arrivals, (∀ a ∈ arrivals, counts a.frame) →
    ∀ received, List.Sublist received (passedOn prog ⟨0, data⟩ arrivals) →
      ∀ text, IsResultFile received text →
        (dataLoc throughput xdpSizes text).isSome → period < arrivals.length
  complete : ∀ {F : Type} (throughput : ℕ → F) data arrivals, (∀ a ∈ arrivals, counts a.frame) →
    ((dataLoc throughput xdpSizes (output (passedOn prog ⟨0, data⟩ arrivals))).isSome ↔
      period < arrivals.length ∧
        0 ∉ timesOf xdpSizes ((printed (passedOn prog ⟨0, data⟩ arrivals)).map BitVec.toNat))

theorem le_sub_div_iff (n : ℕ) : period ≤ n - n / period ↔ period < n := by
  have hperiod : period = 1024 := rfl
  rw [hperiod]
  omega

theorem fileOfRun [DecidablePred counts] (h : Logs prog counts line) :
    FileOfRun prog counts line := by
  have hlength := fun data arrivals =>
    h.length_printed arrivals (s := ⟨0, data⟩) (k := 0) rfl
  simp only [Nat.zero_add, Nat.zero_div, Nat.add_zero] at hlength
  have hle : ∀ data arrivals received, List.Sublist received (passedOn prog ⟨0, data⟩ arrivals) →
      (printed received).length ≤ (printed (passedOn prog ⟨0, data⟩ arrivals)).length :=
    fun data arrivals received hsub => (hsub.filterMap _).length_le
  have hall : ∀ data arrivals, (∀ a ∈ arrivals, counts a.frame) →
      (printed (passedOn prog ⟨0, data⟩ arrivals)).length =
        arrivals.length - arrivals.length / period := by
    intro data arrivals hcounts
    have hcount : arrivals.countP (counts ·.frame) = arrivals.length :=
      List.countP_eq_length.mpr fun a ha => decide_eq_true (hcounts a ha)
    have hstray : (arrivals.countP fun a => ¬ counts a.frame ∧ (pollStats a.frame).isSome) =
        0 := List.countP_eq_zero.mpr fun a ha => by simp [hcounts a ha]
    have htotal := hlength data arrivals
    rw [hcount, hstray] at htotal
    omega
  constructor
  · intro data arrivals hcounts
    exact h.printed_eq hcounts (k := 0) rfl
  · intro data arrivals received hsub
    have htotal := hlength data arrivals
    have hlost := hle data arrivals received hsub
    omega
  · intro F throughput data arrivals hcounts received hsub text htext hsome
    apply (le_sub_div_iff arrivals.length).mp
    rw [← hall data arrivals hcounts]
    exact (period_le_of_isSome htext hsome).trans (hle data arrivals received hsub)
  · intro F throughput data arrivals hcounts
    have hperiod : (xdpSizes.map (fileSize / ·)).sum = period := rfl
    rw [isSome_dataLoc_output, Readable, hperiod, List.length_map, hall data arrivals hcounts,
      le_sub_div_iff]

/-- A timed program that replies once in a period leaves one line too few for the plot when the
file is sent once, whatever else gets lost. -/
theorem plot_of_xdp_run (H : FilterHash) :
    FileOfRun (aggregate totSizeB) (Takes totSizeB)
      (elapsed Instant.ktimeBootNs Instant.ktimeBootNs) ∧
    FileOfRun (reduce totSizeB) (Takes totSizeB)
      (elapsed Instant.ktimeNs Instant.ktimeNs) ∧
    FileOfRun (histogram totSizeB) CountsBins
      (elapsed Instant.ktimeNs Instant.ktimeBootNs) ∧
    FileOfRun (filter totSizeB · · H) (Takes totSizeB)
      (elapsed Instant.ktimeNs Instant.ktimeBootNs) ∧
    FileOfRun (copyToHost totSizeB) (Takes totSizeB)
      (elapsed Instant.ktimeNs Instant.ktimeNs) ∧
    FileOfRun (copyFromHost totSizeB) (Takes totSizeB)
      (elapsed Instant.ktimeNs Instant.ktimeNs) :=
  ⟨fileOfRun logs_aggregate, fileOfRun logs_reduce, fileOfRun logs_histogram,
    fileOfRun (logs_filter H), fileOfRun logs_copyToHost,
    fileOfRun logs_copyFromHost⟩

end PacketBench.DataAnalysis

import PacketBench.Dpdk.Parallel
import PacketBench.Frame.Requests
import PacketBench.Xdp.Parallel

/-! # The same sums on any number of cores

However the frames are spread over the cores, cut into bursts and interleaved,
`aggregate` ends with the sum of all payload words of the accepted frames and
`reduce` with their sums position by position. Therefore the array of `reduce`
sums up to the accumulator of `aggregate`.
-/

namespace PacketBench.Compare

open Atomics PktM

/-- A core that is not interrupted performs the operations, in both architectures and whether the
XDP program reads its clocks or not. -/
structure BothPerform {σ : Type}
    (timed : Xdp.Instant → Xdp.Instant → PktM (Xdp.Counted σ) Xdp.Verdict)
    (untimed : PktM (Xdp.Counted σ) Xdp.Verdict) (process : PktM σ (Option Bool))
    (slots : σ → ℕ → BitVec 32) (xdpOps : Frame → List SharedOp)
    (dpdkOps : Dpdk.Burst → List SharedOp) : Prop where
  xdp : ∀ arrival processed, Xdp.Performs totSizeB (timed arrival processed) slots xdpOps
  xdpNoT : Xdp.Performs totSizeB untimed slots xdpOps
  dpdk : Dpdk.Performs process slots dpdkOps

theorem bothPerform_aggregate :
    BothPerform (Xdp.aggregate totSizeB) (Xdp.aggregateNoT totSizeB) Dpdk.aggregate firstSlot
      (Xdp.aggregateOps totSizeB) Dpdk.aggregateOps :=
  ⟨Xdp.performs_aggregate (by decide), Xdp.performs_aggregateNoT (by decide),
    Dpdk.performs_aggregate⟩

theorem bothPerform_reduce :
    BothPerform (Xdp.reduce totSizeB) (Xdp.reduceNoT totSizeB) Dpdk.reduce id
      (Xdp.reduceOps totSizeB) Dpdk.reduceOps :=
  ⟨Xdp.performs_reduce (by decide), Xdp.performs_reduceNoT (by decide), Dpdk.performs_reduce⟩

variable {frames : List Frame} {mem mem' : Cell → BitVec 32}

def HoldsTotal (mem : Cell → BitVec 32) (frames : List Frame) : Prop :=
  (mem (.slot 0)).toNat = ((allWords frames).map BitVec.toNat).sum % 2 ^ 32

def HoldsColumns (mem : Cell → BitVec 32) (frames : List Frame) : Prop :=
  ∀ i < dataNr, (mem (.slot i)).toNat = (frames.map fun f => (f.word i).toNat).sum % 2 ^ 32

/-- The array of the first memory sums up to the accumulator of the second one. -/
def SumsUpTo (mem mem' : Cell → BitVec 32) : Prop :=
  ((List.range dataNr).map fun i => (mem (.slot i)).toNat).sum % 2 ^ 32 = (mem' (.slot 0)).toNat

theorem holdsTotal_of_eq (h : mem (.slot 0) = (frames.map (Frame.wordsSum · dataNr)).sum) :
    HoldsTotal mem frames := by
  rw [HoldsTotal, h, ← sum_allWords, Wrapping.toNat_sum]

theorem holdsColumns_of_eq
    (h : ∀ i < dataNr, mem (.slot i) = (frames.map fun f => f.word i).sum) :
    HoldsColumns mem frames := by
  intro i hi
  rw [h i hi, Wrapping.toNat_sum, List.map_map]
  rfl

theorem sumsUpTo_of_eq (h : ∀ i < dataNr, mem (.slot i) = (frames.map fun f => f.word i).sum)
    (h' : mem' (.slot 0) = (frames.map (Frame.wordsSum · dataNr)).sum) : SumsUpTo mem mem' := by
  have hslots : (List.range dataNr).map (fun i => mem (.slot i)) =
      (List.range dataNr).map fun i => (frames.map fun f => f.word i).sum :=
    List.map_congr_left fun i hi => h i (List.mem_range.mp hi)
  rw [SumsUpTo, h', ← sum_words_comm, ← hslots, Wrapping.toNat_sum, List.map_map]
  rfl

def spreadFrames : List (Fin 2 × Frame) :=
  deal 1 [requestFrame 1 7 42, requestFrame 1 8 43, requestFrame 0 7 0]

def spreadBursts : List (Fin 2 × Dpdk.Burst) :=
  deal 1 [Dpdk.mixedBurst, Dpdk.singleBurst, Dpdk.mixedBurst]

end PacketBench.Compare

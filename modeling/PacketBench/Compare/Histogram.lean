import PacketBench.Compare.Parallel
import PacketBench.Dpdk.SharedBins
import PacketBench.Xdp.SharedBins

/-! # The same bins on any number of cores

However the frames are spread over the cores, cut into bursts and interleaved,
each bin of `histogram` ends with the number of its words. A word out of range
divides the architectures: in XDP its frame is cut there, in DPDK the program
exits. Where there is none they count the same words.
-/

namespace PacketBench.Compare

open Atomics

variable {frames : List Frame} {mem mem' : Cell → BitVec 32} {words : List (BitVec 32)}

/-- Each bin holds the number of the words that are equal to its index. -/
def HoldsBins (mem : Cell → BitVec 32) (words : List (BitVec 32)) : Prop :=
  ∀ v : BitVec 32, v.toNat < Xdp.histogNr →
    (mem (.slot v.toNat)).toNat = words.count v % 2 ^ 32

/-- The words that the XDP program counts: of each frame those before the first one out of
range. -/
def countedWords (frames : List Frame) : List (BitVec 32) :=
  (frames.filter (Xdp.Takes totSizeB ·)).flatMap fun f =>
    (Xdp.payloadWords totSizeB f).takeWhile (Xdp.Admits ·)

theorem count_binsOf {v : BitVec 32} (hv : v.toNat < Xdp.histogNr) (f : Frame) :
    (Xdp.binsOf totSizeB f).count v.toNat =
      ((Xdp.payloadWords totSizeB f).takeWhile (Xdp.Admits ·)).count v := by
  unfold Xdp.binsOf
  have hfilter : ((Xdp.admittedKeys (Xdp.payloadWords totSizeB f)).filter
      (· < Xdp.histogNr)).count v.toNat =
        (Xdp.admittedKeys (Xdp.payloadWords totSizeB f)).count v.toNat := by
    apply List.count_filter
    exact decide_eq_true hv
  rw [hfilter]
  exact Xdp.count_map_toNat _ v

theorem holdsBins_xdp (h : EndsWith (Xdp.histogramOps totSizeB) frames mem) :
    HoldsBins mem (countedWords frames) := by
  intro v hv
  rw [Xdp.bins_of_endsWith h, BitVec.toNat_ofNat, countedWords, List.count_flatMap,
    List.count_flatMap]
  have hcounts : List.count v.toNat ∘ Xdp.binsOf totSizeB = List.count v ∘ fun f =>
      (Xdp.payloadWords totSizeB f).takeWhile (Xdp.Admits ·) := by
    ext f
    exact count_binsOf hv f
  rw [hcounts]

theorem holdsBins_dpdk {bursts : List Dpdk.Burst} (h : EndsWith Dpdk.histogramOps bursts mem)
    (hcut : (Dpdk.receivedIn bursts).Perm frames) (hgo : ∀ f ∈ frames, ¬ Dpdk.ExitsAt f) :
    HoldsBins mem ((frames.filter (Dpdk.Accepted ·)).flatMap Dpdk.dataWords) := by
  intro v _
  rw [Dpdk.bins_of_endsWith h hcut hgo, Xdp.count_map_toNat, BitVec.toNat_ofNat]

theorem countedWords_eq (hboth : ∀ f ∈ frames, Xdp.Takes totSizeB f ↔ Dpdk.Accepted f)
    (hgo : ∀ f ∈ frames, ¬ Dpdk.ExitsAt f) : countedWords frames =
      (frames.filter (Dpdk.Accepted ·)).flatMap Dpdk.dataWords := by
  unfold countedWords
  rw [List.filter_congr fun f hf => decide_eq_decide.mpr (hboth f hf)]
  apply List.flatMap_congr
  intro f hf
  obtain ⟨hmem, hacc⟩ := List.mem_filter.mp hf
  apply List.takeWhile_eq_self_iff.mpr
  intro w hw
  by_contra hbad
  exact hgo f hmem ⟨of_decide_eq_true hacc, w, hw, fun h => hbad (decide_eq_true h)⟩

def spreadBins : List (Fin 2 × Frame) :=
  deal 1 (Dpdk.receivedIn (spreadBursts.map Prod.snd))

theorem forall_spreadBins {P : Frame → Prop} (harp : P Dpdk.arpFrame)
    (hrequest : P (requestFrame 1 7 42)) : ∀ f ∈ spreadBins.map Prod.snd, P f := by
  intro f hf
  have hcases : f = Dpdk.arpFrame ∨ f = requestFrame 1 7 42 := by
    rw [spreadBins, map_snd_deal, spreadBursts, map_snd_deal] at hf
    simpa [Dpdk.receivedIn, Dpdk.mixedBurst, Dpdk.mixedBufs, Dpdk.singleBurst, or_left_comm]
      using hf
  rcases hcases with rfl | rfl
  · exact harp
  · exact hrequest

theorem inside_requestFrame :
    ¬ Dpdk.ExitsAt (requestFrame 1 7 42) ∧ ¬ Dpdk.Overruns (requestFrame 1 7 42) := by
  have hwords : Dpdk.dataWords (requestFrame 1 7 42) = 1 :: 7 :: 42 :: List.replicate 253 0 :=
    Xdp.payloadWords_requestFrame 1 7 42
  apply Dpdk.inside_of_lt
  rw [hwords]
  rintro w (_ | ⟨_, _ | ⟨_, _ | ⟨_, hw⟩⟩⟩)
  · decide
  · decide
  · decide
  · obtain rfl := List.eq_of_mem_replicate hw
    decide

end PacketBench.Compare

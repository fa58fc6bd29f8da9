import PacketBench.Clients.Payloads
import PacketBench.Compare.Parallel
import PacketBench.Dpdk.Session

/-! # From the file to the sums

The sender reads a file of one MiB in payloads and sends them one by one. When
no datagram is lost and no other one is accepted, `aggregate` ends with the sum
of the words of the file and `reduce` with the sums over each position of a
payload, in both architectures and for every interleaving of the cores.
-/

namespace PacketBench.Compare

open Atomics Clients

variable {mem : Cell → BitVec 32} {file : List (BitVec 8)}

def HoldsFileSum (mem : Cell → BitVec 32) (file : List (BitVec 8)) : Prop :=
  (mem (.slot 0)).toNat = ((fileWords file).map BitVec.toNat).sum % 2 ^ 32

def column (file : List (BitVec 8)) (i : ℕ) : List (BitVec 32) :=
  (List.range (miB / totSizeB)).map fun m => (fileWords file).getD (m * dataNr + i) 0

def HoldsFileColumns (mem : Cell → BitVec 32) (file : List (BitVec 8)) : Prop :=
  ∀ i < dataNr, (mem (.slot i)).toNat = ((column file i).map BitVec.toNat).sum % 2 ^ 32

section Arrived

variable {sendto : ℕ → List (BitVec 8) → Frame} (hkeeps : KeepsBytes sendto) {port : ℕ → ℕ}
  (hfile : file.length = miB) {frames : List Frame}
  (harrived : frames.Perm (sentFrames sendto port totSizeB file))

include hkeeps hfile harrived

theorem holdsFileSum_of_total (h : HoldsTotal mem frames) : HoldsFileSum mem file := by
  have hwords : (allWords frames).Perm (fileWords file) := by
    rw [← allWords_sentFrames hkeeps port hfile]
    exact harrived.flatMap_right _
  exact h.trans (congrArg (· % 2 ^ 32) (hwords.map _).sum_eq)

theorem holdsFileColumns_of_columns (h : HoldsColumns mem frames) : HoldsFileColumns mem file := by
  intro i hi
  have hwords : (frames.map fun f => f.word i).Perm (column file i) := by
    apply (harrived.map _).trans
    unfold sentFrames column
    rw [List.map_map]
    apply List.Perm.of_eq
    apply List.map_congr_left
    intro m hm
    exact word_sendto_eq_getD hkeeps _ hfile (List.mem_range.mp hm) hi
  have hsum := (hwords.map BitVec.toNat).sum_eq
  rw [List.map_map] at hsum
  exact (h i hi).trans (congrArg (· % 2 ^ 32) hsum)

end Arrived

theorem forall_sentFrames_udpFrame {P : Frame → Prop} (h : ∀ port p, P (udpFrame port p))
    (port : ℕ → ℕ) : ∀ f ∈ sentFrames udpFrame port totSizeB file, P f := by
  intro f hf
  obtain ⟨i, -, rfl⟩ := List.mem_map.mp hf
  exact h _ _

theorem takes_udpFrame (port : ℕ) (p : List (BitVec 8)) :
    Xdp.Takes totSizeB (udpFrame port p) := by
  have hlen : (udpFrame port p).len = 42 + totSizeB := rfl
  refine ⟨⟨?_, protocol_udpFrame port p⟩, announces_udpFrame port p, ?_⟩
  · exact hlen ▸ Nat.le_add_right 42 totSizeB
  · rw [hlen]
    decide

theorem accepted_udpFrame (port : ℕ) (p : List (BitVec 8)) : Dpdk.Accepted (udpFrame port p) :=
  ⟨etherType_udpFrame port p, announces_udpFrame port p⟩

theorem receivedIn_map_burstOf (frames : List Frame) :
    Dpdk.receivedIn (frames.map Dpdk.burstOf) = frames := by
  induction frames with
  | nil => rfl
  | cons f frames ih => exact congrArg (f :: ·) ih

end PacketBench.Compare

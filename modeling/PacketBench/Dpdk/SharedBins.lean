import PacketBench.Dpdk.Binning
import PacketBench.Dpdk.Parallel
import PacketBench.Frame.Bins

/-! # The DPDK histogram on several lcores

The lcores count the words of their frames into `final_histog` by atomic
additions. As long as no word makes the program exit, each bin ends with the
number of its words, however the lcores interleave, and as long as none makes it
overrun, nothing is counted behind the last bin.
-/

namespace PacketBench.Dpdk

open Atomics PktM

def keyOps (f : Frame) (_ : ℕ) : List SharedOp := binOps (binKeys (dataWords f))

def histogramOps : Burst → List SharedOp := burstOps keyOps

theorem folds_keyOps :
    Folds keyOps id fun _ s f => Lists.incrementAll s (binKeys (dataWords f)) := by
  constructor
  · intro f _
    exact isAdd_binOps _
  · intro f _
    exact added_binOps_packets _
  · intro f _ s v
    apply (incrementAll_apply _ s v).trans
    rw [keyOps, added_binOps]
    rfl

theorem slots_exec_histogram (s : Counters) (f : Frame) (v : ℕ) :
    (histogram.exec (Run.start f s)).2.store v =
      s v + added (.slot v) (acceptedOps keyOps f) := by
  unfold acceptedOps
  by_cases hf : Accepted f
  · rw [(exec_histogram hf s).2, if_pos hf]
    exact folds_keyOps.slots f dataNr s v
  · rw [(exec_histogram_of_not hf s).2, if_neg hf, added_nil, add_zero]

theorem performs_histogram : Performs histogram id histogramOps :=
  performs_of_slots folds_keyOps counts_histogram slots_exec_histogram

theorem bins_of_endsWith {bursts : List Burst} {mem : Cell → BitVec 32} {frames : List Frame}
    (h : EndsWith histogramOps bursts mem) (hcut : (receivedIn bursts).Perm frames)
    (hgo : ∀ f ∈ frames, ¬ ExitsAt f) (v : ℕ) : mem (.slot v) =
      BitVec.ofNat 32
        ((((frames.filter (Accepted ·)).flatMap dataWords).map BitVec.toNat).count v) := by
  rw [slot_of_endsWith h hcut]
  clear h hcut
  induction frames with
  | nil => rfl
  | cons f frames ih =>
    obtain ⟨hf, hframes⟩ := List.forall_mem_cons.mp hgo
    have ih := ih hframes
    rw [List.filter_cons]
    by_cases hacc : Accepted f
    · rw [if_pos (decide_eq_true hacc), List.map_cons, List.sum_cons, ih, keyOps, added_binOps,
        binKeys_of_not_exitsAt hacc hf, List.flatMap_cons, List.map_append, List.count_append,
        BitVec.ofNat_add]
    · rw [if_neg (by simpa using hacc)]
      exact ih

theorem inside_of_lt {f : Frame} (h : ∀ w ∈ dataWords f, w.toNat < finalHistogLength) :
    ¬ ExitsAt f ∧ ¬ Overruns f := by
  constructor
  · rintro ⟨-, w, hw, hbad⟩
    exact hbad (inRange_iff.mpr (h w hw).le)
  · rintro ⟨hacc, i, hi, -, hlast⟩
    have hw : f.word i ∈ dataWords f := List.mem_map_of_mem (List.mem_range.mpr hi)
    exact (h _ hw).ne ((toInt_eq_histogNr_iff _).mp hlast)

theorem bins_end_of_endsWith {bursts : List Burst} {mem : Cell → BitVec 32} {frames : List Frame}
    (h : EndsWith histogramOps bursts mem) (hcut : (receivedIn bursts).Perm frames)
    (hgo : ∀ f ∈ frames, ¬ ExitsAt f ∧ ¬ Overruns f) {v : ℕ} (hv : finalHistogLength ≤ v) :
    mem (.slot v) = 0 := by
  have hcount : (((frames.filter (Accepted ·)).flatMap dataWords).map BitVec.toNat).count v =
      0 := by
    apply List.count_eq_zero.mpr
    rintro hmem
    obtain ⟨w, hw, rfl⟩ := List.mem_map.mp hmem
    obtain ⟨f, hf, hwf⟩ := List.mem_flatMap.mp hw
    obtain ⟨hf, hacc⟩ := List.mem_filter.mp hf
    obtain ⟨hstay, hover⟩ := hgo f hf
    have hacc := of_decide_eq_true hacc
    have hkeys := (forall_binKeys_lt_iff f).mpr hover
    rw [if_pos hacc, binKeys_of_not_exitsAt hacc hstay] at hkeys
    exact absurd (hkeys _ (List.mem_map_of_mem hwf)) (Nat.not_lt.mpr hv)
  rw [bins_of_endsWith h hcut (fun f hf => (hgo f hf).1) v, hcount]
  rfl

end PacketBench.Dpdk

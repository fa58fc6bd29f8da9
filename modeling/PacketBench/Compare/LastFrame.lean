import PacketBench.Dpdk.Runs
import PacketBench.Lists.Folds
import PacketBench.Xdp.Handling
import PacketBench.Xdp.Variants

/-! # The last copied frame

`copy_to_host` on both architectures and the DPDK filter overwrite their host
array with each frame they select. So the array ends with the payload of the
last selected frame, however the frames were cut into bursts, while the counter
counts all accepted frames.
-/

namespace PacketBench.Compare

open PktM

def lastWord (selected : List Frame) (i : ℕ) : BitVec 32 :=
  (selected.getLast?.map (Frame.word · i)).getD 0

/-- The array holds the last selected payload and the counter the number of accepted frames. -/
structure HoldsLast (selected accepted : List Frame) (array : ℕ → BitVec 32) (count : BitVec 32) :
    Prop where
  array : ∀ i < dataNr, array i = lastWord selected i
  count : count = BitVec.ofNat 32 accepted.length

section Folds

variable {σ : Type} {step : σ → Frame → σ} {sel : Frame → Prop} [DecidablePred sel]
  {P : σ → Prop} {s : σ}

theorem view_foldl (view : σ → ℕ → BitVec 32)
    (hstep : ∀ s f, P s → P (step s f) ∧ (sel f → ∀ i < dataNr, view (step s f) i = f.word i) ∧
      (¬ sel f → view (step s f) = view s))
    (hs : P s) (hzero : view s = fun _ => 0) (frames : List Frame) :
    ∀ i < dataNr, view (frames.foldl step s) i = lastWord (frames.filter (sel ·)) i := by
  intro i hi
  have hall : Lists.Along step (fun _ _ => True) s frames :=
    Lists.along_of_forall (fun _ _ => trivial) s frames
  have hshows : Lists.Along step (Lists.Shows step sel (view · i) (Frame.word · i)) s frames := by
    refine (hall.invariant hs fun s f hs _ => ?_).2
    obtain ⟨hnext, hset, hkeep⟩ := hstep s f hs
    exact ⟨hnext, fun hf => hset hf i hi, fun hf => congrFun (hkeep hf) i⟩
  have hlast := Lists.foldl_last hshows
  simp only [hzero] at hlast
  exact hlast

end Folds

section Dpdk

open Dpdk

theorem array_copyToHost (frames : List Frame) : ∀ i < dataNr,
    storeAfter copyToHost (fun _ => 0) frames i = lastWord (frames.filter (Accepted ·)) i := by
  refine view_foldl id (P := fun _ => True) (fun s f _ => ⟨trivial, ?_, ?_⟩) trivial rfl
    frames
  · intro hf i hi
    rw [(adds_copyToHost.accepted s f hf).2]
    exact if_pos hi
  · intro hf
    exact (adds_copyToHost.rejected s f hf).2

def Selected (table : BitVec 32 → Bool) (f : Frame) : Prop :=
  Accepted f ∧ table (ntohl (f.mem.load (ipDaddr 14) 32))

instance (table : BitVec 32 → Bool) : DecidablePred (Selected table) := fun f =>
  inferInstanceAs (Decidable (Accepted f ∧ table (ntohl (f.mem.load (ipDaddr 14) 32))))

theorem array_filter (table : BitVec 32 → Bool) (frames : List Frame) : ∀ i < dataNr,
    (storeAfter filter ⟨table, fun _ => 0⟩ frames).copyVal i =
      lastWord (frames.filter (Selected table ·)) i := by
  refine view_foldl FilterStore.copyVal (P := fun s => s.table = table)
    (fun s f hs => ?_) rfl rfl frames
  have hmatches : Matches s f ↔ table (ntohl (f.mem.load (ipDaddr 14) 32)) := by
    rw [Matches, hs]
  by_cases hf : Accepted f
  · rw [(adds_filter.accepted s f hf).2, copyMatching, Selected, ← hmatches, and_iff_right hf]
    by_cases hmatch : Matches s f
    · rw [if_pos hmatch]
      exact ⟨hs, fun _ i hi => if_pos hi, fun hn => absurd hmatch hn⟩
    · rw [if_neg hmatch]
      exact ⟨hs, fun h => absurd h hmatch, fun _ => rfl⟩
  · rw [(adds_filter.rejected s f hf).2]
    exact ⟨hs, fun hsel => absurd hsel.1 hf, fun _ => rfl⟩

theorem holdsLast_of_array {σ : Type} {process : PktM σ (Option Bool)} (hcounts : Counts process)
    (hfinishes : Finishes process) (notify : PktM σ Unit) (s : σ) (view : σ → ℕ → BitVec 32)
    {sel : Frame → Prop} [DecidablePred sel]
    (harray : ∀ frames, ∀ i < dataNr,
      view (storeAfter process s frames) i = lastWord (frames.filter (sel ·)) i)
    (run : List (TxBurst × Burst)) : ∃ steps, sinkRun process notify ⟨0, s⟩ run = some steps ∧
      HoldsLast ((framesOf run).filter (sel ·)) ((framesOf run).filter (Accepted ·))
        (view (finalState ⟨0, s⟩ steps).store) (finalState ⟨0, s⟩ steps).pktRec := by
  obtain ⟨steps, hsteps⟩ := exists_sinkRun hfinishes notify ⟨0, s⟩ run
  obtain ⟨hstore, hcount, -⟩ := completed_of_sinkRun hcounts hsteps
  refine ⟨steps, hsteps, fun i hi => ?_, ?_⟩
  · rw [hstore]
    exact harray _ i hi
  · rw [hcount, ← List.countP_eq_length_filter]
    exact BitVec.zero_add _

end Dpdk

section Xdp

open Xdp

theorem array_copyToHostNoT (frames : List Frame) : ∀ i < dataNr,
    (storeAfter (copyToHostNoT totSizeB) ⟨0, fun _ => 0⟩ frames).data i =
      lastWord (frames.filter (Takes totSizeB ·)) i := by
  have hcounts := countsWith_copyToHostNoT (by decide : totSizeB < 2 ^ 31)
  refine view_foldl Counted.data (P := fun _ => True) (fun s f _ => ⟨trivial, ?_, ?_⟩)
    trivial rfl frames
  · intro hf i hi
    rw [hcounts.taken s f hf]
    exact if_pos hi
  · intro hf
    rw [hcounts.rejected s f hf]

theorem rxpkt_storeAfter {σ : Type} {tot : ℕ} {prog : PktM (Counted σ) Verdict}
    {g : σ → Frame → σ} (hcounts : CountsWith tot prog g) (s : Counted σ) (frames : List Frame) :
    (storeAfter prog s frames).rxpkt =
      s.rxpkt + BitVec.ofNat 32 (frames.filter (Takes tot ·)).length := by
  induction frames generalizing s with
  | nil => exact (BitVec.add_zero _).symm
  | cons f frames ih =>
    rw [storeAfter, List.foldl_cons, ← storeAfter, ih]
    by_cases hf : Takes tot f
    · rw [hcounts.taken s f hf, List.filter_cons_of_pos (by simpa using hf), List.length_cons,
        BitVec.add_assoc, Nat.add_comm, BitVec.ofNat_add]
      rfl
    · rw [hcounts.rejected s f hf, List.filter_cons_of_neg (by simpa using hf)]

theorem holdsLast_copyToHostNoT (frames : List Frame) :
    HoldsLast (frames.filter (Takes totSizeB ·)) (frames.filter (Takes totSizeB ·))
      (storeAfter (copyToHostNoT totSizeB) ⟨0, fun _ => 0⟩ frames).data
      (storeAfter (copyToHostNoT totSizeB) ⟨0, fun _ => 0⟩ frames).rxpkt := by
  refine ⟨array_copyToHostNoT frames, ?_⟩
  rw [rxpkt_storeAfter (countsWith_copyToHostNoT (by decide))]
  exact BitVec.zero_add _

theorem alike_copyToHost (arrival processed : Instant) :
    Alike (copyToHost totSizeB arrival processed) (copyToHostNoT totSizeB) :=
  alike_countPackets _ _ (quiet_stampAndRefresh _ _) (quiet_leave (by decide))

end Xdp

/-- The host array ends with the last selected payload, and all accepted frames are counted. -/
theorem last_frame_held :
    (∀ rteIpv4UdptcpCksum run, ∃ steps,
      Dpdk.sinkRun Dpdk.copyToHost (Dpdk.SinkApp.notify rteIpv4UdptcpCksum .copyToHost)
        ⟨0, fun _ => 0⟩ run = some steps ∧
      HoldsLast ((Dpdk.framesOf run).filter (Dpdk.Accepted ·))
        ((Dpdk.framesOf run).filter (Dpdk.Accepted ·))
        (Dpdk.finalState ⟨0, fun _ => 0⟩ steps).store
        (Dpdk.finalState ⟨0, fun _ => 0⟩ steps).pktRec) ∧
    (∀ rteIpv4UdptcpCksum table run, ∃ steps,
      Dpdk.sinkRun Dpdk.filter (Dpdk.SinkApp.notify rteIpv4UdptcpCksum .filter)
        ⟨0, ⟨table, fun _ => 0⟩⟩ run = some steps ∧
      HoldsLast ((Dpdk.framesOf run).filter (Selected table ·))
        ((Dpdk.framesOf run).filter (Dpdk.Accepted ·))
        (Dpdk.finalState ⟨0, ⟨table, fun _ => 0⟩⟩ steps).store.copyVal
        (Dpdk.finalState ⟨0, ⟨table, fun _ => 0⟩⟩ steps).pktRec) ∧
    (∀ arrivals, let frames := arrivals.map Xdp.Arrival.frame
      let maps := Xdp.storeAfterTimed (Xdp.copyToHost totSizeB) ⟨0, fun _ => 0⟩ arrivals
      HoldsLast (frames.filter (Xdp.Takes totSizeB ·)) (frames.filter (Xdp.Takes totSizeB ·))
        maps.data maps.rxpkt) ∧
    (∀ frames, let maps := Xdp.storeAfter (Xdp.copyToHostNoT totSizeB) ⟨0, fun _ => 0⟩ frames
      HoldsLast (frames.filter (Xdp.Takes totSizeB ·)) (frames.filter (Xdp.Takes totSizeB ·))
        maps.data maps.rxpkt) := by
  refine ⟨fun rteIpv4UdptcpCksum run => ?_, fun rteIpv4UdptcpCksum table run => ?_,
    fun arrivals => ?_, holdsLast_copyToHostNoT⟩
  · exact holdsLast_of_array Dpdk.counts_copyToHost.1 Dpdk.counts_copyToHost.2 _ (fun _ => 0) id
      array_copyToHost run
  · exact holdsLast_of_array Dpdk.counts_filter.1 Dpdk.counts_filter.2 _ ⟨table, fun _ => 0⟩
      Dpdk.FilterStore.copyVal (array_filter table) run
  · rw [Xdp.storeAfterTimed_eq alike_copyToHost]
    exact holdsLast_copyToHostNoT _

end PacketBench.Compare

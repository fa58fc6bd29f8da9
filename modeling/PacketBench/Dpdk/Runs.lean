import PacketBench.Dpdk.Notification

/-! # What a run leaves behind

A run that does not exit handles the frames of its bursts one after another, so
its last state does not depend on how the frames were cut into bursts.
-/

namespace PacketBench.Dpdk

open PktM

variable {σ : Type} {process : PktM σ (Option Bool)} {notify : PktM σ Unit}

def framesOf (run : List (TxBurst × Burst)) : List Frame :=
  run.flatMap fun x => x.2.bufs.map Mbuf.frame

def finalState (s : SinkState σ) (steps : List (SinkStep σ)) : SinkState σ :=
  steps.foldl (fun _ step => step.state) s

theorem countP_frames (b : Burst) : (b.bufs.map Mbuf.frame).countP (Accepted ·) = acceptedIn b := by
  rw [List.countP_map]
  rfl

theorem store_of_sinkBurst {tx : TxBurst} {s : SinkState σ} {b : Burst} {step : SinkStep σ}
    (h : sinkBurst process notify tx s b = some step) :
    step.state.store = storeAfter process s.store (b.bufs.map Mbuf.frame) := by
  have hstore := store_processAll process s.store b.bufs
  rw [sinkBurst] at h
  generalize processAll process s.store b.bufs = result at h hstore
  obtain ⟨loop, store⟩ := result
  simp only at h hstore
  split_ifs at h with hnil hexit hdone
  · obtain rfl := Option.some.inj h
    rw [List.length_eq_zero_iff.mp hnil]
    rfl
  · obtain rfl := Option.some.inj h
    exact hstore
  · obtain rfl := Option.some.inj h
    exact hstore

theorem not_isNone_of_sinkBurst {tx : TxBurst} {s : SinkState σ} {b : Burst} {step : SinkStep σ}
    (h : sinkBurst process notify tx s b = some step) :
    ¬ (processAll process s.store b.bufs).1.any (·.2.isNone) := by
  rcases eq_or_ne b.bufs [] with hnil | hne
  · rw [hnil]
    exact Bool.false_ne_true
  · intro hexit
    rw [sinkBurst, if_neg (mt List.length_eq_zero_iff.mp hne)] at h
    simp only [if_pos hexit] at h
    cases h

theorem isSome_of_processAll_of_not {s : σ} {bufs : List Mbuf}
    (h : ¬ (processAll process s bufs).1.any (·.2.isNone)) :
    ∀ f ∈ bufs.map Mbuf.frame, ∃ s, (process.exec (Run.start f s)).1.isSome := by
  induction bufs generalizing s with
  | nil => exact fun f hf => absurd hf List.not_mem_nil
  | cons m bufs ih =>
    rw [processAll, List.any_cons, Bool.or_eq_true] at h
    obtain ⟨hm, hbufs⟩ := not_or.mp h
    refine List.forall_mem_cons.mpr ⟨⟨s, ?_⟩, ih hbufs⟩
    exact Option.isSome_iff_ne_none.mpr (mt Option.isNone_iff_eq_none.mpr hm)

/-- All that the results below use of a run that does not exit. -/
structure Completed (process : PktM σ (Option Bool)) (s t : SinkState σ) (frames : List Frame) :
    Prop where
  store : t.store = storeAfter process s.store frames
  count : t.pktRec = s.pktRec + BitVec.ofNat 32 (frames.countP (Accepted ·))
  goesOn : ∀ f ∈ frames, ∃ s, (process.exec (Run.start f s)).1.isSome

theorem completed_of_sinkRun (hcounts : Counts process) {run : List (TxBurst × Burst)}
    {s : SinkState σ} {steps : List (SinkStep σ)} (h : sinkRun process notify s run = some steps) :
    Completed process s (finalState s steps) (framesOf run) := by
  induction run generalizing s steps with
  | nil =>
    obtain rfl := Option.some.inj h
    exact ⟨rfl, (BitVec.add_zero _).symm, fun f hf => absurd hf List.not_mem_nil⟩
  | cons x run ih =>
    rw [sinkRun] at h
    obtain ⟨step, hstep, h⟩ := Option.bind_eq_some_iff.mp h
    obtain ⟨steps', hsteps, h⟩ := Option.bind_eq_some_iff.mp h
    obtain rfl := Option.some.inj h
    obtain ⟨hstore, hcount, hgo⟩ := ih hsteps
    have hframes : framesOf (x :: run) = x.2.bufs.map Mbuf.frame ++ framesOf run :=
      List.flatMap_cons
    have hend : finalState s (step :: steps') = finalState step.state steps' := rfl
    rw [hframes, hend]
    constructor
    · rw [hstore, store_of_sinkBurst hstep, storeAfter, storeAfter, storeAfter, List.foldl_append]
    · rw [hcount, (turn_of_sinkBurst hcounts hstep).count, List.countP_append, countP_frames,
        BitVec.ofNat_add, BitVec.add_assoc]
    · exact List.forall_mem_append.mpr
        ⟨isSome_of_processAll_of_not (not_isNone_of_sinkBurst hstep), hgo⟩

end PacketBench.Dpdk

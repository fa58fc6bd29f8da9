import PacketBench.Concurrency.StopAndWait
import PacketBench.Frame.Headers
import Mathlib.Algebra.Order.BigOperators.Group.List

/-! # The clients that measure round trips

`kvstore_stats.c`, `zuc_stats.c` and the `_stats.c` files of the XDP overhead
tests share one loop: send a chunk of the file, wait for a datagram, and note
the time in between. When all chunks of a repetition have had their replies the
noted times are appended to the result file.
-/

namespace PacketBench.Clients

open StopAndWait

structure Timespec where
  tvSec : BitVec 64
  tvNsec : BitVec 64

@[simp] def nsPerSec : ℕ := 1000000000

/-- `clock_gettime` when the monotonic clock stands at `now` nanoseconds. -/
def clockGettime (now : ℕ) : Timespec :=
  ⟨BitVec.ofNat 64 (now / nsPerSec), BitVec.ofNat 64 (now % nsPerSec)⟩

def Timespec.usrTime (t : Timespec) : BitVec 64 := t.tvNsec + t.tvSec * BitVec.ofNat 64 nsPerSec

/-- The time between the sending of a chunk and the reply. -/
def usrTimeDiff (trip : ℕ × ℕ) : BitVec 64 :=
  (clockGettime trip.2).usrTime - (clockGettime trip.1).usrTime

def chunks : ℕ := miB / totSizeB

/-- The lines of the result file: those of the repetitions that have come to their end. -/
def pollStats (trips : List (ℕ × ℕ)) : List (BitVec 64) :=
  (trips.take (chunks * (trips.length / chunks))).map usrTimeDiff

theorem usrTime_clockGettime (now : ℕ) : (clockGettime now).usrTime = BitVec.ofNat 64 now := by
  unfold clockGettime Timespec.usrTime
  rw [← BitVec.ofNat_mul, ← BitVec.ofNat_add, Nat.mod_add_div']

theorem usrTimeDiff_eq {trip : ℕ × ℕ} (h : trip.1 ≤ trip.2) :
    usrTimeDiff trip = BitVec.ofNat 64 (trip.2 - trip.1) := by
  obtain ⟨d, hd⟩ := Nat.exists_eq_add_of_le h
  unfold usrTimeDiff
  rw [usrTime_clockGettime, usrTime_clockGettime, hd, BitVec.ofNat_add, Nat.add_sub_cancel_left]
  exact add_sub_cancel_left _ _

theorem toNat_usrTimeDiff_le {trip : ℕ × ℕ} (h : trip.1 ≤ trip.2) :
    (usrTimeDiff trip).toNat ≤ trip.2 - trip.1 := by
  rw [usrTimeDiff_eq h, BitVec.toNat_ofNat]
  exact Nat.mod_le _ _

theorem length_pollStats (trips : List (ℕ × ℕ)) :
    (pollStats trips).length = chunks * (trips.length / chunks) := by
  unfold pollStats
  rw [List.length_map, List.length_take, min_eq_left (Nat.mul_div_le _ _)]

theorem sum_pollStats_le {trips : List (ℕ × ℕ)} (h : ∀ trip ∈ trips, trip.1 ≤ trip.2) :
    ((pollStats trips).map BitVec.toNat).sum ≤ (trips.map fun trip => trip.2 - trip.1).sum := by
  let done := trips.take (chunks * (trips.length / chunks))
  have hdone : done.Sublist trips := List.take_sublist _ _
  calc ((pollStats trips).map BitVec.toNat).sum
      = (done.map fun trip => (usrTimeDiff trip).toNat).sum := by
        unfold pollStats
        rw [List.map_map]
        rfl
    _ ≤ (done.map fun trip => trip.2 - trip.1).sum :=
        List.sum_le_sum fun trip htrip => toNat_usrTimeDiff_le (h trip (hdone.subset htrip))
    _ ≤ (trips.map fun trip => trip.2 - trip.1).sum :=
        (hdone.map _).sum_le_sum fun _ _ => Nat.zero_le _

section Session

variable {σ : Type} {S : Server σ Frame Frame} {accepts : Frame → Prop}

variable (S accepts) in
/-- What holds of a client, its server and the messages at any time of a session: the `n`-th reply
goes back to the client with what the server makes of the `n`-th chunk after the chunks before it,
the server can take just the chunk that the client waits for, one message is under way at most, and
the lines of the result file add up to no more than the time passed. -/
structure InSession (s₀ : σ) (frames : List Frame) (start : ℕ) (s : System σ Frame Frame) :
    Prop where
  replies : ∀ n g, s.received[n]? = some g → ∃ f, frames[n]? = some f ∧ accepts f ∧
    AddressesSwapped f g ∧ g = S.answer (S.after s₀ (frames.take n)) f
  bursts : ∀ burst rest, burst ≠ [] → s.requests.Perm (burst ++ rest) →
    ∃ f, burst = [f] ∧ frames[s.received.length]? = some f
  underWay : s.requests.length + s.replies.length ≤ if s.sent.isSome then 1 else 0
  lines : (pollStats s.trips).length = chunks * (s.received.length / chunks)
  elapsed : ((pollStats s.trips).map BitVec.toNat).sum + start ≤ s.now

theorem inSession (hignores : ∀ f, ¬ accepts f → S.Ignores f)
    (hswaps : ∀ s f, accepts f → AddressesSwapped f (S.answer s f)) {s₀ : σ} {frames : List Frame}
    {start : ℕ} {s : System σ Frame Frame} (hrun : Reaches S (System.start s₀ frames start) s) :
    InSession S accepts s₀ frames start s := by
  have hserial := (serial_start start).reaches hrun
  have htimed := (timed_start s₀ frames start).reaches hrun
  constructor
  · intro n g hg
    obtain ⟨f, hf, hreplied, hanswer⟩ := hserial.exists_answer hg
    have hacc : accepts f := by
      by_contra hnot
      exact hreplied (hignores f hnot)
    exact ⟨f, hf, hacc, hanswer ▸ hswaps _ f hacc, hanswer⟩
  · intro burst rest hburst hperm
    obtain ⟨f, hf, hnext, -⟩ := hserial.turn_eq hburst hperm
    exact ⟨f, hf, hnext⟩
  · exact hserial.length_le
  · rw [length_pollStats, htimed.length_eq]
  · have hsum := sum_pollStats_le htimed.ordered
    have htotal := htimed.sum_add_le
    omega

variable (S accepts) in
/-- The client can finish from every state that it reaches without losses exactly when all its
frames are accepted, and a client that has finished has a line for each of its chunks. -/
def FinishesWhenAccepted (s₀ : σ) (frames : List Frame) (start : ℕ) : Prop :=
  ((∀ s, Reliable S (System.start s₀ frames start) s → ∃ t, Reliable S s t ∧ t.Finished) ↔
    ∀ f ∈ frames, accepts f) ∧
  ∀ s, Reaches S (System.start s₀ frames start) s → s.Finished →
    (∀ f ∈ frames, accepts f) ∧ (pollStats s.trips).length = frames.length

theorem finishesWhenAccepted (hignores : ∀ f, ¬ accepts f → S.Ignores f)
    (hanswers : ∀ f, accepts f → S.Answers f) {repetitions : ℕ} {frames : List Frame}
    (hframes : frames.length = repetitions * chunks) (s₀ : σ) (start : ℕ) :
    FinishesWhenAccepted S accepts s₀ frames start := by
  have hfinished : ∀ s, Reaches S (System.start s₀ frames start) s → s.Finished →
      (∀ f ∈ frames, accepts f) ∧ (pollStats s.trips).length = frames.length := by
    intro s hrun hdone
    obtain ⟨hreceived, hreplied⟩ := ((serial_start start).reaches hrun).of_finished hdone
    constructor
    · intro f hf
      by_contra hnot
      exact hreplied f hf (hignores f hnot)
    · rw [length_pollStats, ((timed_start s₀ frames start).reaches hrun).length_eq, hreceived,
        S.length_replies, hframes, Nat.mul_div_cancel _ (by decide), Nat.mul_comm]
  refine ⟨⟨fun h => ?_, fun hall s hrun => ?_⟩, hfinished⟩
  · obtain ⟨t, hrun, hdone⟩ := h _ .refl
    exact (hfinished t hrun.reaches hdone).1
  · apply exists_finished_of_answers _ start hrun
    exact fun f hf => hanswers f (hall f hf)

theorem FinishesWhenAccepted.exists_lines {s₀ : σ} {n start : ℕ} {f : Frame}
    (h : FinishesWhenAccepted S accepts s₀ (List.replicate n f) start) (hf : accepts f) :
    ∃ s : System σ Frame Frame, s.Finished ∧ (pollStats s.trips).length = n := by
  obtain ⟨hiff, hlines⟩ := h
  have hall : ∀ g ∈ List.replicate n f, accepts g := fun g hg => List.eq_of_mem_replicate hg ▸ hf
  obtain ⟨s, hrun, hdone⟩ := hiff.mpr hall _ .refl
  refine ⟨s, hdone, ?_⟩
  rw [(hlines s hrun.reaches hdone).2, List.length_replicate]

end Session

end PacketBench.Clients

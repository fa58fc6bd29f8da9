import PacketBench.Xdp.Apps
import PacketBench.Xdp.Histogram
import PacketBench.Xdp.ReadYourWrites

/-! # The clocks of the stamps

A timed program reads a kernel clock when a frame arrives and once more when it
is processed, and the loader prints the difference of the two stamps. Three
programs read the monotonic clock first and the boot clock then, so their
difference also has the time for which the machine was suspended.
-/

namespace PacketBench.Xdp

open Bytes PktM BoundedMaps

variable {L : LruHash} {H : FilterHash}

/-- What the clocks show when the monotonic one shows `monotonic` and the machine was suspended for
`suspended` before. -/
def reading (suspended monotonic : BitVec 64) : Instant := ⟨monotonic, monotonic + suspended⟩

@[simp] def bufLen : ℕ := 16

/-- What `poll_stats` prints for a frame that the stack delivers to its socket. -/
def pollStats (f : Frame) : Option (BitVec 64) :=
  let payLen := min (f.udpLength.toNat - sizeofUdphdr) bufLen
  let buf := 42
  if payLen ≥ bufLen then some (f.mem.load (buf + 8) 64 - f.mem.load buf 64) else none

namespace App

/-- The frames that a program stamps: those it counts and does not send back, and for `baseline`
all that have room for the stamps. -/
def Stamps : (app : App) → app.Store L H → Frame → Prop
  | aggregate, s, f => Takes totSizeB f ∧ ¬ Completes totSizeB (s.rxpkt + 1)
  | reduce, s, f | copyToHost, s, f | copyFromHost, s, f =>
    Takes totSizeB f ∧ ¬ Completes totSizeB (s.rxpkt + 1)
  | histogram, s, f => (Takes totSizeB f ∧ ¬ Completes totSizeB (s.rxpkt + 1)) ∧
      ∀ w ∈ payloadWords totSizeB f, Admits w
  | filter, s, f => Takes totSizeB f ∧ ¬ Completes totSizeB (s.rxpkt + 1)
  | baseline, _, f => IsUdp f ∧ 58 ≤ f.len
  | _, _, _ => False

def clocks : App → (Instant → BitVec 64) × (Instant → BitVec 64)
  | aggregate => (Instant.ktimeBootNs, Instant.ktimeBootNs)
  | histogram | filter | baseline => (Instant.ktimeNs, Instant.ktimeBootNs)
  | _ => (Instant.ktimeNs, Instant.ktimeNs)

/-- The second stamp is of another clock than the first one. -/
def MixesClocks (app : App) : Prop := app = histogram ∨ app = filter ∨ app = baseline

end App

structure Stamped (first second : BitVec 64) (f f' : Frame) : Prop where
  first : f'.mem.load 42 64 = first
  second : f'.mem.load 50 64 = second
  udpLength : f'.udpLength = f.udpLength

variable {f : Frame} {m : Mem} {first second : BitVec 64}

theorem stamped_of_pass (hm : ∀ a < 42, m a = f.mem a) :
    Stamped first second f ⟨f.len, stamped first second m⟩ := by
  constructor
  · rw [stamped, Mem.load_store_of_disjoint _ (by decide), Mem.load_store_self rfl]
  · rw [stamped, Mem.load_store_self rfl]
  · have hload : (stamped first second m).load 38 16 = f.mem.load 38 16 :=
      Mem.load_congr fun i hi => by rw [stamped_apply_of_lt (by omega), hm _ (by omega)]
    exact congrArg ntohs hload

theorem stamped_of_refresh (hm : ∀ a < 42, m a = f.mem a) :
    Stamped first second f ⟨f.len, freshCheck ⟨f.len, stamped first second m⟩ 14 34⟩ := by
  have hpass : Stamped first second f ⟨f.len, stamped first second m⟩ := stamped_of_pass hm
  obtain ⟨hfirst, hsecond, hlen⟩ := hpass
  constructor
  · rw [load_freshCheck (by decide), hfirst]
  · rw [load_freshCheck (by decide), hsecond]
  · rw [← hlen, Frame.udpLength, load_freshCheck (by decide)]
    rfl

section Counting

variable {σ : Type} {work : ℕ → ℕ → BitVec 32 → PktM (Counted σ) Bool}
  {notify : ℕ → ℕ → PktM (Counted σ) Unit} {s : Counted σ} {d : σ}

theorem stamped_rest {rest : ℕ → ℕ → ℕ → PktM (Counted σ) Verdict} {v : Verdict} {m' : Mem}
    (h : Takes totSizeB f) (hdone : ¬ Completes totSizeB (s.rxpkt + 1))
    (hwork : (work 14 42 (BitVec.ofNat 32 totSizeB)).Yields f s true m { s with data := d })
    (hrest : (rest 14 34 42).Yields ⟨f.len, m⟩ { s with data := d, rxpkt := s.rxpkt + 1 } v m'
      { s with data := d, rxpkt := s.rxpkt + 1 })
    (hst : Stamped first second f ⟨f.len, m'⟩) : Stamped first second f
      (handle (countPackets totSizeB work notify rest) s f).2.frame := by
  rw [handle, (yields_countPackets_rest (by decide) h hwork hdone hrest).exec_start.2.1]
  exact hst

theorem stamped_stampAndPass (h : Takes totSizeB f) (hdone : ¬ Completes totSizeB (s.rxpkt + 1))
    (hwork : (work 14 42 (BitVec.ofNat 32 totSizeB)).Yields f s true m { s with data := d })
    (hm : ∀ a < 42, m a = f.mem a) : Stamped first second f
      (handle (countPackets totSizeB work notify (stampAndPass first second)) s f).2.frame :=
  stamped_rest h hdone hwork (yields_stampAndPass h first second) (stamped_of_pass hm)

theorem stamped_stampAndRefresh (h : Takes totSizeB f)
    (hdone : ¬ Completes totSizeB (s.rxpkt + 1))
    (hwork : (work 14 42 (BitVec.ofNat 32 totSizeB)).Yields f s true m { s with data := d })
    (hm : ∀ a < 42, m a = f.mem a) : Stamped first second f
      (handle (countPackets totSizeB work notify (stampAndRefresh first second)) s f).2.frame :=
  stamped_rest h hdone hwork (yields_stampAndRefresh h first second) (stamped_of_refresh hm)

end Counting

theorem stamped_baseline {arrival processed : Instant} (hudp : IsUdp f) (hlen : 58 ≤ f.len) :
    Stamped arrival.ktimeNs processed.ktimeBootNs f
      (handle (baseline arrival processed) () f).2.frame := by
  rw [handle, (yields_baseline hudp hlen).exec_start.2.1]
  exact stamped_of_refresh fun _ _ => rfl

theorem stamped_process (arrival processed : Instant) : (app : App) → (s : app.Store L H) →
    app.Stamps s f → Stamped (app.clocks.1 arrival) (app.clocks.2 processed) f
      (handle (app.process L H arrival processed) s f).2.frame
  | .aggregate, s, h => stamped_stampAndRefresh h.1 h.2
      (yields_aggregateWork (by decide) h.1 s) fun _ _ => rfl
  | .reduce, s, h => stamped_stampAndPass h.1 h.2 (yields_reduceWork (by decide) h.1 s)
      fun _ _ => rfl
  | .histogram, s, ⟨h, hw⟩ => by
    have hwork := yields_histogramWork (by decide) h.1 s
    rw [List.all_eq_true.mpr fun w hmem => decide_eq_true (hw w hmem)] at hwork
    exact stamped_stampAndRefresh h.1 h.2 hwork fun _ _ => rfl
  | .filter, s, h => stamped_stampAndPass h.1 h.2 (yields_filterWork (by decide) h.1 s)
      fun _ _ => rfl
  | .copyToHost, s, h => stamped_stampAndRefresh h.1 h.2
      (yields_copyToHostWork (by decide) h.1 s) fun _ _ => rfl
  | .copyFromHost, s, h => stamped_stampAndRefresh h.1 h.2
      (yields_copyFromHostWork (by decide) h.1 s) fun a ha => hostWritten_apply_of_lt _ _ _ ha
  | .baseline, (), h => stamped_baseline h.1 h.2
  | .aggregateNoT, _, h | .reduceNoT, _, h | .histogramNoT, _, h | .filterNoT, _, h
  | .copyToHostNoT, _, h | .copyFromHostNoT, _, h | .kvstore, _, h | .kvstoreNoT, _, h
  | .pingPong, _, h | .pingPongNoT, _, h | .loadbalancing, _, h => h.elim

theorem pollStats_process {app : App} {s : app.Store L H} (hst : app.Stamps s f)
    (arrival processed : Instant) :
    pollStats (handle (app.process L H arrival processed) s f).2.frame =
      if min (f.udpLength.toNat - sizeofUdphdr) bufLen ≥ bufLen then
        some (app.clocks.2 processed - app.clocks.1 arrival) else none := by
  obtain ⟨hfirst, hsecond, hlen⟩ := stamped_process arrival processed app s hst
  simp only [pollStats, hfirst, hsecond, hlen]

theorem clocks_reading (app : App) (suspended start finish : BitVec 64) :
    app.clocks.2 (reading suspended finish) - app.clocks.1 (reading suspended start) =
      finish - start ↔ ¬ app.MixesClocks ∨ suspended = 0 := by
  have hsame : finish + suspended - (start + suspended) = finish - start := by abel
  have hmixed : finish + suspended - start = finish - start ↔ suspended = 0 := by
    rw [add_sub_right_comm, add_eq_left]
  cases app <;> simp [App.clocks, App.MixesClocks, reading, hsame, hmixed]

/-- The loader prints the elapsed time of a stamped frame for the programs that read one clock
twice, and for the others as long as the machine was never suspended. -/
theorem printed_elapsed_iff (L : LruHash) (H : FilterHash) (app : App) (s : app.Store L H)
    (f : Frame) (suspended start finish n : BitVec 64) (hst : app.Stamps s f)
    (hn : pollStats (handle (app.process L H (reading suspended start) (reading suspended finish))
      s f).2.frame = some n) :
    n = finish - start ↔ ¬ app.MixesClocks ∨ suspended = 0 := by
  rw [pollStats_process hst] at hn
  split_ifs at hn
  rw [← Option.some.inj hn]
  exact clocks_reading app suspended start finish

def anyHash : FilterHash := refusingMap (BitVec 32) (BitVec 16) hashEntries

theorem udpLength_requestFrame (flag key val : BitVec 32) :
    min ((requestFrame flag key val).udpLength.toNat - sizeofUdphdr) bufLen ≥ bufLen := by
  rw [announces_requestFrame flag key val]
  decide

theorem stamps_aggregate : App.aggregate.Stamps (L := kernelLru) (H := anyHash) ⟨0, 0⟩
    (requestFrame 1 7 42) := ⟨takes_requestFrame 1 7 42, by decide⟩

theorem printed_elapsed_iff_aggregate : ∃ n,
    pollStats (handle (App.aggregate.process kernelLru anyHash (reading 5 100) (reading 5 107))
      ⟨0, 0⟩ (requestFrame 1 7 42)).2.frame = some n ∧
    (n = 107 - 100 ↔ ¬ App.aggregate.MixesClocks ∨ (5 : BitVec 64) = 0) := by
  have hn := pollStats_process stamps_aggregate (reading 5 100) (reading 5 107)
  rw [if_pos (udpLength_requestFrame 1 7 42)] at hn
  exact ⟨_, hn,
    printed_elapsed_iff kernelLru anyHash .aggregate _ _ 5 100 107 _ stamps_aggregate hn⟩

/-- After a suspension of 5 ns `baseline` shows 12 ns for a frame that it held for 7 ns. -/
theorem not_printed_elapsed :
    App.baseline.Stamps (L := kernelLru) (H := anyHash) () (requestFrame 1 7 42) ∧
    pollStats (handle (App.baseline.process kernelLru anyHash (reading 5 100) (reading 5 107)) ()
      (requestFrame 1 7 42)).2.frame = some 12 ∧ (12 : BitVec 64) ≠ 107 - 100 := by
  have hst : App.baseline.Stamps (L := kernelLru) (H := anyHash) () (requestFrame 1 7 42) :=
    ⟨(takes_requestFrame 1 7 42).1, (takes_requestFrame 1 7 42).stampRoom⟩
  refine ⟨hst, ?_, by decide⟩
  rw [pollStats_process hst, if_pos (udpLength_requestFrame 1 7 42)]
  rfl

end PacketBench.Xdp

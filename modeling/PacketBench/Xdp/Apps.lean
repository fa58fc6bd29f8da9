import PacketBench.Xdp.Counting
import PacketBench.Xdp.Kvstore

/-! # The XDP programs and their exits

On every exit a program leaves the frame alone, hands a changed frame on with a
fresh checksum or sends a reply with exchanged headers. Two kinds of exit stand
out: some programs change the payload without a fresh checksum, and `ping_pong`
hands short frames on with exchanged headers.
-/

namespace PacketBench.Xdp

open Bytes PktM

inductive App where
  | aggregate
  | aggregateNoT
  | reduce
  | reduceNoT
  | histogram
  | histogramNoT
  | filter
  | filterNoT
  | copyToHost
  | copyToHostNoT
  | copyFromHost
  | copyFromHostNoT
  | kvstore
  | kvstoreNoT
  | pingPong
  | pingPongNoT
  | baseline
  | loadbalancing
  deriving DecidableEq, Repr

variable (L : LruHash) (H : FilterHash)

namespace App

/-- What a program keeps from frame to frame: its maps, or the queue of the context. -/
def Store : App → Type
  | aggregate | aggregateNoT => Counted (BitVec 32)
  | reduce | reduceNoT | histogram | histogramNoT | copyToHost | copyToHostNoT
  | copyFromHost | copyFromHostNoT => Counted ArrayMap
  | filter | filterNoT => Counted (FilterMaps H)
  | kvstore | kvstoreNoT => Maps L
  | pingPong | pingPongNoT | baseline => Unit
  | loadbalancing => BitVec 32

def process (arrival processed : Instant) : (app : App) → PktM (app.Store L H) Verdict
  | aggregate => Xdp.aggregate totSizeB arrival processed
  | aggregateNoT => Xdp.aggregateNoT totSizeB
  | reduce => Xdp.reduce totSizeB arrival processed
  | reduceNoT => Xdp.reduceNoT totSizeB
  | histogram => Xdp.histogram totSizeB arrival processed
  | histogramNoT => Xdp.histogramNoT totSizeB
  | filter => Xdp.filter totSizeB arrival processed H
  | filterNoT => Xdp.filterNoT totSizeB H
  | copyToHost => Xdp.copyToHost totSizeB arrival processed
  | copyToHostNoT => Xdp.copyToHostNoT totSizeB
  | copyFromHost => Xdp.copyFromHost totSizeB arrival processed
  | copyFromHostNoT => Xdp.copyFromHostNoT totSizeB
  | kvstore => Xdp.kvstore L arrival processed
  | kvstoreNoT => Xdp.kvstoreNoT L
  | pingPong => Xdp.pingPong arrival processed
  | pingPongNoT => Xdp.pingPongNoT
  | baseline => Xdp.baseline arrival processed
  | loadbalancing => Xdp.loadbalancing arrival processed

variable {L H}

/-- The memory of a frame whose payload is changed without a fresh checksum. -/
def unrefreshed (arrival processed : Instant) (f : Frame) :
    (app : App) → app.Store L H → Option Mem
  | reduce, s => if Takes totSizeB f ∧ ¬ Completes totSizeB (s.rxpkt + 1) then
      some (stamped arrival.ktimeNs processed.ktimeNs f.mem) else none
  | filter, s => if Takes totSizeB f ∧ ¬ Completes totSizeB (s.rxpkt + 1) then
      some (stamped arrival.ktimeNs processed.ktimeBootNs f.mem) else none
  | copyFromHostNoT, s => if Takes totSizeB f ∧ ¬ Completes totSizeB (s.rxpkt + 1) then
      some (hostWritten s.data f.mem dataNr) else none
  | loadbalancing, _ => if IsUdp f ∧ 58 ≤ f.len then
      some (stamped arrival.ktimeBootNs processed.ktimeBootNs f.mem) else none
  | _, _ => none

/-- A frame that the stack receives with exchanged headers. -/
def Reverses (app : App) (f : Frame) : Prop := app = pingPong ∧ IsUdp f ∧ ¬ 58 ≤ f.len

end App

inductive Regular (f : Frame) : Verdict → Mem → Prop
  | kept {v : Verdict} (hv : v ≠ .tx) : Regular f v f.mem
  | refreshed {v : Verdict} {p : Mem} (hv : v ≠ .tx) (hp : ∀ a < 42, p a = f.mem a) :
      Regular f v (freshCheck ⟨f.len, p⟩ 14 34)
  | returned : Regular f .tx (swapHeaders f.mem)
  | answered {p : Mem} (hp : ∀ a < 38, p a = f.mem a) (hlen : 42 ≤ f.len) :
      Regular f .tx (swapHeaders (freshCheck ⟨f.len, p⟩ 14 34))
  | replied {p : Mem} (hp : ∀ a < 38, p a = swapHeaders f.mem a) :
      Regular f .tx (freshCheck ⟨f.len, p⟩ 14 34)

/-- The exits of a program for one frame. -/
inductive Exit (arrival processed : Instant) (f : Frame) (app : App) (s : app.Store L H) :
    Verdict → Mem → Prop
  | regular {v : Verdict} {m : Mem} (hw : app.unrefreshed arrival processed f s = none)
      (hr : ¬ app.Reverses f) (h : Regular f v m) : Exit arrival processed f app s v m
  | written {m : Mem} (hw : app.unrefreshed arrival processed f s = some m)
      (hm : ∀ a < 42, m a = f.mem a) : Exit arrival processed f app s .pass m
  | reversed (hr : app.Reverses f) : Exit arrival processed f app s .pass (swapHeaders f.mem)

variable {L H} {f : Frame}

/-- A program that stays inside the frame and leaves it by one of the exits in `P`. -/
def Ends {σ : Type} (x : PktM σ Verdict) (f : Frame) (s : σ) (P : Verdict → Mem → Prop) : Prop :=
  ∃ v m t, x.Yields f s v m t ∧ P v m

section Counting

variable {σ : Type} {work : ℕ → ℕ → BitVec 32 → PktM (Counted σ) Bool}
  {notify : ℕ → ℕ → PktM (Counted σ) Unit} {rest : ℕ → ℕ → ℕ → PktM (Counted σ) Verdict}
  {s : Counted σ} {m : Mem} {P : Verdict → Mem → Prop}

theorem ends_countPackets (hnot : ¬ Takes totSizeB f → P .pass f.mem)
    (hwork : Takes totSizeB f → ∃ good d, (work 14 42 (BitVec.ofNat 32 totSizeB)).Yields f s good m
      { s with data := d } ∧ (good = false → P .pass m))
    (hnotify : Takes totSizeB f → Completes totSizeB (s.rxpkt + 1) → ∀ d, ∃ m',
      (notify 14 34).Yields ⟨f.len, swapHeaders m⟩ ⟨s.rxpkt + 1, d⟩ () m' ⟨s.rxpkt + 1, d⟩ ∧
        P .tx m')
    (hrest : Takes totSizeB f → ¬ Completes totSizeB (s.rxpkt + 1) → ∀ d, ∃ v m',
      (rest 14 34 42).Yields ⟨f.len, m⟩ ⟨s.rxpkt + 1, d⟩ v m' ⟨s.rxpkt + 1, d⟩ ∧ P v m') :
    Ends (countPackets totSizeB work notify rest) f s P := by
  by_cases h : Takes totSizeB f
  · obtain ⟨good, d, hyields, hfalse⟩ := hwork h
    cases good
    · exact ⟨_, _, _, yields_countPackets_of_false (by decide) h hyields, hfalse rfl⟩
    · by_cases hdone : Completes totSizeB (s.rxpkt + 1)
      · obtain ⟨m', hm', hP⟩ := hnotify h hdone d
        exact ⟨_, _, _, yields_countPackets_notify (by decide) h hyields hdone hm', hP⟩
      · obtain ⟨v, m', hm', hP⟩ := hrest h hdone d
        exact ⟨_, _, _, yields_countPackets_rest (by decide) h hyields hdone hm', hP⟩
  · exact ⟨_, _, _, yields_countPackets_of_not (by decide) h, hnot h⟩

theorem Takes.stampRoom (h : Takes totSizeB f) : 58 ≤ f.len :=
  (by decide : 58 ≤ 42 + dataSizeB * (totSizeB / dataSizeB)).trans h.2.2

theorem yields_leave (v : Verdict) : (leave v 14 34 42 : PktM (Counted σ) _).Yields f s v f.mem s :=
  yields_pure v

theorem yields_stampAndPass (h : Takes totSizeB f) (first second : BitVec 64) :
    (stampAndPass first second 14 34 42 : PktM (Counted σ) _).Yields ⟨f.len, m⟩ s .pass
      (stamped first second m) s := yields_stamp h.stampRoom (yields_pure _)

theorem yields_stampAndRefresh (h : Takes totSizeB f) (first second : BitVec 64) :
    (stampAndRefresh first second 14 34 42 : PktM (Counted σ) _).Yields ⟨f.len, m⟩ s .pass
      (freshCheck ⟨f.len, stamped first second m⟩ 14 34) s :=
  yields_stamp h.stampRoom (yields_refresh h.1.1)

/-- A program that only reads the payload until it counts the frame. -/
theorem ends_reading (hnot : ¬ Takes totSizeB f → P .pass f.mem)
    (hwork : Takes totSizeB f → ∃ good d, (work 14 42 (BitVec.ofNat 32 totSizeB)).Yields f s good
      f.mem { s with data := d } ∧ (good = false → P .pass f.mem))
    (hdone : Completes totSizeB (s.rxpkt + 1) → P .tx (swapHeaders f.mem))
    (hrest : Takes totSizeB f → ¬ Completes totSizeB (s.rxpkt + 1) → ∃ v m', P v m' ∧
      ∀ t, (rest 14 34 42).Yields f t v m' t) :
    Ends (countPackets totSizeB work asIs rest) f s P := by
  refine ends_countPackets hnot hwork (fun _ h d => ⟨_, yields_pure (), hdone h⟩) fun h hn d => ?_
  obtain ⟨v, m', hP, hyields⟩ := hrest h hn
  exact ⟨v, m', hyields _, hP⟩

/-- An outcome of every program that reads the payload only: passed on as received, sent back as
the swap leaves it, or what `rest` does. -/
theorem ends_reading_of (hpass : P .pass f.mem) (hdone : P .tx (swapHeaders f.mem))
    (hwork : Takes totSizeB f → ∃ good d, (work 14 42 (BitVec.ofNat 32 totSizeB)).Yields f s good
      f.mem { s with data := d })
    (hrest : Takes totSizeB f → ∃ v m', P v m' ∧ ∀ t, (rest 14 34 42).Yields f t v m' t) :
    Ends (countPackets totSizeB work asIs rest) f s P := by
  refine ends_reading (fun _ => hpass) (fun h => ?_) (fun _ => hdone) fun h _ => hrest h
  obtain ⟨good, d, hyields⟩ := hwork h
  exact ⟨good, d, hyields, fun _ => hpass⟩

theorem ends_leave {v : Verdict} (hv : v ≠ .tx)
    (hwork : Takes totSizeB f → ∃ good d, (work 14 42 (BitVec.ofNat 32 totSizeB)).Yields f s good
      f.mem { s with data := d }) :
    Ends (countPackets totSizeB work asIs (leave v)) f s (Regular f) :=
  ends_reading_of (.kept (by decide)) .returned hwork
    fun _ => ⟨v, f.mem, .kept hv, fun _ => yields_leave v⟩

theorem ends_stampAndRefresh {first second : BitVec 64}
    (hwork : Takes totSizeB f → ∃ good d, (work 14 42 (BitVec.ofNat 32 totSizeB)).Yields f s good
      f.mem { s with data := d }) :
    Ends (countPackets totSizeB work asIs (stampAndRefresh first second)) f s (Regular f) :=
  ends_reading_of (.kept (by decide)) .returned hwork fun h =>
    ⟨_, _, .refreshed (by decide) fun a ha => stamped_apply_of_lt ha,
      fun _ => yields_stampAndRefresh h first second⟩

theorem ends_stampAndPass {first second : BitVec 64}
    (hwork : Takes totSizeB f → ∃ d, (work 14 42 (BitVec.ofNat 32 totSizeB)).Yields f s true
      f.mem { s with data := d })
    (hregular : ¬ (Takes totSizeB f ∧ ¬ Completes totSizeB (s.rxpkt + 1)) →
      ∀ v m, Regular f v m → P v m)
    (hwritten : Takes totSizeB f ∧ ¬ Completes totSizeB (s.rxpkt + 1) →
      P .pass (stamped first second f.mem)) :
    Ends (countPackets totSizeB work asIs (stampAndPass first second)) f s P := by
  refine ends_reading (fun h => hregular (fun hw => h hw.1) _ _ (.kept (by decide))) (fun h => ?_)
    (fun h => hregular (fun hw => hw.2 h) _ _ .returned)
    fun h hn => ⟨_, _, hwritten ⟨h, hn⟩, fun t => yields_stampAndPass h first second⟩
  obtain ⟨d, hyields⟩ := hwork h
  exact ⟨true, d, hyields, fun h => by cases h⟩

theorem ends_copying {rest : ℕ → ℕ → ℕ → PktM (Counted ArrayMap) Verdict} {s : Counted ArrayMap}
    (hregular : ¬ (Takes totSizeB f ∧ ¬ Completes totSizeB (s.rxpkt + 1)) →
      ∀ v m, Regular f v m → P v m)
    (hrest : Takes totSizeB f ∧ ¬ Completes totSizeB (s.rxpkt + 1) → ∃ v m', P v m' ∧
      ∀ t, (rest 14 34 42).Yields ⟨f.len, hostWritten s.data f.mem dataNr⟩ t v m' t) :
    Ends (countPackets totSizeB (copyFromHostWork totSizeB) refreshCheck rest) f s P := by
  refine ends_countPackets (fun h => hregular (fun hw => h hw.1) _ _ (.kept (by decide)))
    (fun h => ⟨true, s.data, yields_copyFromHostWork (by decide) h s, fun h => by cases h⟩)
    (fun h hdone d => ?_) fun h hn d => ?_
  · refine ⟨_, yields_refreshCheck h.1.1, hregular (fun hw => hw.2 hdone) _ _ (.replied ?_)⟩
    exact swapHeaders_congr fun a ha => hostWritten_apply_of_lt _ _ _ (by omega)
  · obtain ⟨v, m', hP, hyields⟩ := hrest ⟨h, hn⟩
    exact ⟨v, m', hyields _, hP⟩

end Counting

section Kvstore

variable {arrival processed : Instant} (maps : Maps L)

theorem answer_cases (f : Frame) : answer L maps f = f.mem ∨
    ∃ cont, answer L maps f = freshCheck { f with mem := f.mem.store 50 32 cont } 14 34 := by
  rcases eq_or_ne (f.word 0) 0 with hflag | hflag
  · cases hval : BoundedMaps.value L.toBoundedMap keySet maps (f.word 1) with
    | none => exact Or.inl (answer_of_miss hflag hval)
    | some cont => exact Or.inr ⟨cont, answer_of_hit hflag hval⟩
  · exact Or.inl (answer_of_write hflag)

theorem answer_apply_of_lt {a : ℕ} (h : a < 38) : answer L maps f a = f.mem a := by
  rcases answer_cases maps f with heq | ⟨cont, heq⟩
  · rw [heq]
  · rw [heq, freshCheck_apply_of_lt (by omega)]
    exact Mem.store_apply_of_outside _ (by omega)

theorem ends_kvstoreNoT : Ends (kvstoreNoT L) f maps (Regular f) := by
  by_cases h : IsRequest f
  · have hyields : (kvstoreNoT L).Yields f maps .tx (swapHeaders (answer L maps f))
        (serveMaps L maps f) := by
      rintro r rfl rfl
      exact exec_kvstoreNoT h
    refine ⟨_, _, _, hyields, ?_⟩
    rcases answer_cases maps f with heq | ⟨cont, heq⟩
    · rw [heq]
      exact .returned
    · rw [heq]
      exact .answered (fun a ha => Mem.store_apply_of_outside _ (by omega)) h.1.1
  · have hyields : (kvstoreNoT L).Yields f maps .pass f.mem maps := by
      rintro r rfl rfl
      exact exec_kvstoreNoT_of_not h
    exact ⟨_, _, _, hyields, .kept (by decide)⟩

theorem ends_kvstore : Ends (kvstore L arrival processed) f maps (Regular f) := by
  by_cases h : IsRequest f
  · have hyields : (kvstore L arrival processed).Yields f maps .tx
        (freshCheck ⟨f.len, swapHeaders (stampTimes arrival processed (answer L maps f))⟩ 14 34)
        (serveMaps L maps f) := by
      rintro r rfl rfl
      exact exec_kvstore arrival processed h
    refine ⟨_, _, _, hyields, .replied (swapHeaders_congr fun a ha => ?_)⟩
    unfold stampTimes
    rw [Mem.store_apply_of_outside _ (by omega), Mem.store_apply_of_outside _ (by omega),
      answer_apply_of_lt maps ha]
  · have hyields : (kvstore L arrival processed).Yields f maps .pass f.mem maps := by
      rintro r rfl rfl
      exact exec_kvstore_of_not arrival processed h
    exact ⟨_, _, _, hyields, .kept (by decide)⟩

end Kvstore

section Echo

variable {arrival processed : Instant} {P : Verdict → Mem → Prop}

theorem ends_pingPong
    (hregular : ¬ (IsUdp f ∧ ¬ 58 ≤ f.len) → ∀ v m, Regular f v m → P v m)
    (hreversed : IsUdp f ∧ ¬ 58 ≤ f.len → P .pass (swapHeaders f.mem)) :
    Ends (pingPong arrival processed) f () P := by
  by_cases hudp : IsUdp f
  · by_cases hlen : 58 ≤ f.len
    · exact ⟨_, _, _, yields_pingPong hudp hlen, hregular (fun hr => hr.2 hlen) _ _
        (.replied fun a ha => stamped_apply_of_lt (by omega))⟩
    · exact ⟨_, _, _, yields_pingPong_of_short hudp hlen, hreversed ⟨hudp, hlen⟩⟩
  · exact ⟨_, _, _, yields_withUdp_of_not hudp,
      hregular (fun hr => hudp hr.1) _ _ (.kept (by decide))⟩

theorem ends_pingPongNoT : Ends pingPongNoT f () (Regular f) := by
  by_cases hudp : IsUdp f
  · exact ⟨_, _, _, yields_pingPongNoT hudp, .returned⟩
  · exact ⟨_, _, _, yields_withUdp_of_not hudp, .kept (by decide)⟩

theorem ends_baseline : Ends (baseline arrival processed) f () (Regular f) := by
  by_cases hudp : IsUdp f
  · by_cases hlen : 58 ≤ f.len
    · exact ⟨_, _, _, yields_baseline hudp hlen,
        .refreshed (by decide) fun a ha => stamped_apply_of_lt ha⟩
    · exact ⟨_, _, _, yields_baseline_of_short hudp hlen, .kept (by decide)⟩
  · exact ⟨_, _, _, yields_withUdp_of_not hudp, .kept (by decide)⟩

theorem ends_loadbalancing (queue : BitVec 32)
    (hregular : ¬ (IsUdp f ∧ 58 ≤ f.len) → ∀ v m, Regular f v m → P v m)
    (hwritten : IsUdp f ∧ 58 ≤ f.len →
      P .pass (stamped arrival.ktimeBootNs processed.ktimeBootNs f.mem)) :
    Ends (loadbalancing arrival processed) f queue P := by
  by_cases h : IsUdp f ∧ 58 ≤ f.len
  · obtain ⟨queue', hyields⟩ := yields_loadbalancing queue h.1 h.2
    exact ⟨_, _, _, hyields, hwritten h⟩
  · have hkept : (loadbalancing arrival processed).Yields f queue .pass f.mem queue := by
      by_cases hudp : IsUdp f
      · exact yields_loadbalancing_of_short queue hudp fun hlen => h ⟨hudp, hlen⟩
      · exact yields_withUdp_of_not hudp
    exact ⟨_, _, _, hkept, hregular h _ _ (.kept (by decide))⟩

end Echo

section Exits

variable (arrival processed : Instant) (f : Frame)

theorem Ends.exit {app : App} {s : app.Store L H}
    (h : Ends (app.process L H arrival processed) f s (Regular f))
    (hw : app.unrefreshed arrival processed f s = none) (hr : app ≠ .pingPong) :
    Ends (app.process L H arrival processed) f s (Exit L H arrival processed f app s) := by
  obtain ⟨v, m, t, hyields, hregular⟩ := h
  exact ⟨v, m, t, hyields, .regular hw (fun hrev => hr hrev.1) hregular⟩

/-- Every program stays inside every frame and leaves it by one of the exits. -/
theorem ends_process : (app : App) → (s : app.Store L H) →
    Ends (app.process L H arrival processed) f s (Exit L H arrival processed f app s)
  | .aggregate, s => by
    refine Ends.exit arrival processed f ?_ rfl (by decide)
    exact ends_stampAndRefresh fun h => ⟨_, _, yields_aggregateWork (by decide) h s⟩
  | .aggregateNoT, s => by
    refine Ends.exit arrival processed f ?_ rfl (by decide)
    exact ends_leave (by decide) fun h => ⟨_, _, yields_aggregateWork (by decide) h s⟩
  | .reduceNoT, s => by
    refine Ends.exit arrival processed f ?_ rfl (by decide)
    exact ends_leave (by decide) fun h => ⟨_, _, yields_reduceWork (by decide) h s⟩
  | .histogram, s => by
    refine Ends.exit arrival processed f ?_ rfl (by decide)
    exact ends_stampAndRefresh fun h => ⟨_, _, yields_histogramWork (by decide) h s⟩
  | .histogramNoT, s => by
    refine Ends.exit arrival processed f ?_ rfl (by decide)
    exact ends_leave (by decide) fun h => ⟨_, _, yields_histogramWork (by decide) h s⟩
  | .filterNoT, s => by
    refine Ends.exit arrival processed f ?_ rfl (by decide)
    exact ends_leave (by decide) fun h => ⟨_, _, yields_filterWork (by decide) h s⟩
  | .copyToHost, s => by
    refine Ends.exit arrival processed f ?_ rfl (by decide)
    exact ends_stampAndRefresh fun h => ⟨_, _, yields_copyToHostWork (by decide) h s⟩
  | .copyToHostNoT, s => by
    refine Ends.exit arrival processed f ?_ rfl (by decide)
    exact ends_leave (by decide) fun h => ⟨_, _, yields_copyToHostWork (by decide) h s⟩
  | .kvstore, s => Ends.exit arrival processed f (ends_kvstore s) rfl (by decide)
  | .kvstoreNoT, s => Ends.exit arrival processed f (ends_kvstoreNoT s) rfl (by decide)
  | .reduce, s => ends_stampAndPass (fun h => ⟨_, yields_reduceWork (by decide) h s⟩)
      (fun hn _ _ => .regular (if_neg hn) (fun hr => by cases hr.1))
      fun hw => .written (if_pos hw) fun a ha => stamped_apply_of_lt ha
  | .filter, s => ends_stampAndPass (fun h => ⟨_, yields_filterWork (by decide) h s⟩)
      (fun hn _ _ => .regular (if_neg hn) (fun hr => by cases hr.1))
      fun hw => .written (if_pos hw) fun a ha => stamped_apply_of_lt ha
  | .copyFromHost, s => by
    refine Ends.exit arrival processed f ?_ rfl (by decide)
    refine ends_copying (fun _ _ _ h => h) fun hw => ⟨_, _, .refreshed (by decide) fun a ha => ?_,
      fun t => yields_stampAndRefresh hw.1 arrival.ktimeNs processed.ktimeNs⟩
    rw [stamped_apply_of_lt ha, hostWritten_apply_of_lt _ _ _ ha]
  | .copyFromHostNoT, s => ends_copying
      (fun hn _ _ => .regular (if_neg hn) (fun hr => by cases hr.1))
      fun hw => ⟨.pass, _, .written (if_pos hw) fun a ha => hostWritten_apply_of_lt _ _ _ ha,
        fun t => yields_leave .pass⟩
  | .pingPong, _ => ends_pingPong
      (fun hn _ _ => .regular rfl fun hr => hn hr.2) fun hr => .reversed ⟨rfl, hr⟩
  | .pingPongNoT, _ => Ends.exit arrival processed f ends_pingPongNoT rfl (by decide)
  | .baseline, _ => Ends.exit arrival processed f ends_baseline rfl (by decide)
  | .loadbalancing, s => ends_loadbalancing s
      (fun hn _ _ => .regular (if_neg hn) (fun hr => by cases hr.1))
      fun hw => .written (if_pos hw) fun a ha => stamped_apply_of_lt ha

end Exits

end PacketBench.Xdp

import PacketBench.Xdp.ReadYourWrites

/-! # The timed and the untimed key-value store

Both stores do the same to the maps and give the same verdicts, but the timed
store writes its second clock reading over the third and fourth payload words,
where the content of a read stands.
-/

namespace PacketBench.Xdp

open Bytes BoundedMaps

variable {L : LruHash}

theorem timed_word_two (maps : Maps L) {a : Arrival} (h : IsRequest a.frame) :
    (handleTimed (kvstore L) maps a).2.frame.word 2 = a.processed.ktimeNs.setWidth 32 := by
  rw [(handle_kvstore maps h).2.1, Frame.word, load_freshCheck (by simp),
    load_swapHeaders (by simp), stampTimes]
  exact Mem.load_store_within rfl _ (d := 0) (by decide)

theorem untimed_word_two (maps : Maps L) {f : Frame} (h : IsRequest f) (hflag : f.word 0 = 0) :
    (handle (kvstoreNoT L) maps f).2.frame.word 2 =
      (value L.toBoundedMap keySet maps (f.word 1)).getD (f.word 2) := by
  rw [(handle_kvstoreNoT maps h).2.1, word_swapHeaders, word_two_answer maps hflag]

theorem timed_step (maps : Maps L) (a : Arrival) :
    (handleTimed (kvstore L) maps a).2.store = (handle (kvstoreNoT L) maps a.frame).2.store ∧
    (handleTimed (kvstore L) maps a).1 = (handle (kvstoreNoT L) maps a.frame).1 := by
  by_cases h : IsRequest a.frame
  · have htimed := handle_kvstore maps h
    have huntimed := handle_kvstoreNoT maps h
    exact ⟨htimed.2.2.trans huntimed.2.2.symm, htimed.1.trans huntimed.1.symm⟩
  · have htimed := handle_kvstore_of_not maps h
    have huntimed := handle_kvstoreNoT_of_not maps h
    exact ⟨htimed.2.2.trans huntimed.2.2.symm, htimed.1.trans huntimed.1.symm⟩

variable (L) in
def timedMaps (maps : Maps L) (history : List Arrival) : Maps L :=
  storeAfterTimed (kvstore L) maps history

variable (L) in
def untimedMaps (maps : Maps L) (history : List Arrival) : Maps L :=
  storeAfter (kvstoreNoT L) maps (history.map Arrival.frame)

theorem timedMaps_eq (maps : Maps L) (history : List Arrival) :
    timedMaps L maps history = untimedMaps L maps history := by
  induction history generalizing maps with
  | nil => rfl
  | cons a history ih =>
    unfold timedMaps storeAfterTimed
    rw [List.foldl_cons, (timed_step maps a).1]
    exact ih _

/-- What one frame of a run shows of the two stores: equal maps, equal verdicts and equal content
words of the replies to reads. -/
structure AgreeAt (L : LruHash) (maps : Maps L) (history : List Arrival) (a : Arrival) : Prop where
  maps_eq : (handleTimed (kvstore L) (timedMaps L maps history) a).2.store =
    (handle (kvstoreNoT L) (untimedMaps L maps history) a.frame).2.store
  verdict_eq : (handleTimed (kvstore L) (timedMaps L maps history) a).1 =
    (handle (kvstoreNoT L) (untimedMaps L maps history) a.frame).1
  content_eq : IsRequest a.frame → a.frame.word 0 = 0 →
    (handleTimed (kvstore L) (timedMaps L maps history) a).2.frame.word 2 =
      (handle (kvstoreNoT L) (untimedMaps L maps history) a.frame).2.frame.word 2

/-- The low half of the second clock reading is by chance the content that a read asks for. -/
def ClockMatches (L : LruHash) (maps : Maps L) (history : List Arrival) (a : Arrival) : Prop :=
  IsRequest a.frame → a.frame.word 0 = 0 → a.processed.ktimeNs.setWidth 32 =
    (value L.toBoundedMap keySet (untimedMaps L maps history) (a.frame.word 1)).getD
      (a.frame.word 2)

theorem agreeAt_iff (maps : Maps L) (history : List Arrival) (a : Arrival) :
    AgreeAt L maps history a ↔ ClockMatches L maps history a := by
  constructor
  · intro h hreq hflag
    rw [← untimed_word_two _ hreq hflag, ← h.content_eq hreq hflag, timed_word_two _ hreq]
  · intro h
    refine ⟨?_, ?_, fun hreq hflag => ?_⟩
    · rw [timedMaps_eq]
      exact (timed_step _ a).1
    · rw [timedMaps_eq]
      exact (timed_step _ a).2
    · rw [timed_word_two _ hreq, untimed_word_two _ hreq hflag]
      exact h hreq hflag

/-- In every run the two stores keep equal maps and give equal verdicts; the replies to all reads
agree exactly when every second clock reading matches the content it is written over. -/
theorem timed_agrees_iff (L : LruHash) (maps : Maps L) (arrivals : List Arrival) :
    (∀ history a rest, arrivals = history ++ a :: rest → AgreeAt L maps history a) ↔
      ∀ history a rest, arrivals = history ++ a :: rest → ClockMatches L maps history a := by
  constructor
  · intro h history a rest hsplit
    exact (agreeAt_iff maps history a).mp (h history a rest hsplit)
  · intro h history a rest hsplit
    exact (agreeAt_iff maps history a).mpr (h history a rest hsplit)

def writeArrival : Arrival := ⟨requestFrame 1 7 42, ⟨1, 1⟩, ⟨2, 2⟩⟩

def readArrival : Arrival := ⟨requestFrame 0 7 0, ⟨5, 5⟩, ⟨6, 6⟩⟩

/-- The timed store answers the read with the clock, the untimed one with the value. -/
theorem not_agree_write_then_read :
    ¬ ∀ history a rest, [writeArrival, readArrival] = history ++ a :: rest →
      AgreeAt kernelLru (fun _ => kernelLru.empty) history a := by
  intro h
  have hwrite : IsRequest writeArrival.frame := isRequest_requestFrame 1 7 42
  have hclock := (agreeAt_iff _ _ _).mp (h [writeArrival] readArrival [] rfl)
    (isRequest_requestFrame 0 7 0) (word_zero_requestFrame 0 7 0)
  have hkey : readArrival.frame.word 1 = 7 := word_one_requestFrame 0 7 0
  have hmaps : untimedMaps kernelLru (fun _ => kernelLru.empty) [writeArrival] =
      serveMaps kernelLru (fun _ => kernelLru.empty) (requestFrame 1 7 42) :=
    (handle_kvstoreNoT _ hwrite).2.2
  have hvalue : value kernelLru.toBoundedMap keySet (serveMaps kernelLru
      (fun _ => kernelLru.empty) (requestFrame 1 7 42)) 7 = some 42 := by
    unfold serveMaps
    rw [request_of_write (by simp), word_one_requestFrame, word_two_requestFrame, serve,
      value, Function.update_self]
    exact kernelLru.get_put_self _ _ _
  rw [hkey, hmaps, hvalue] at hclock
  exact absurd hclock (by decide)

end PacketBench.Xdp

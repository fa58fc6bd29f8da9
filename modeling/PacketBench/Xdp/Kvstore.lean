import PacketBench.Frame.Requests
import PacketBench.Xdp.Program

/-! # The XDP key-value stores

A request carries a flag, a key and a value in the first three payload words.
The key selects one of four kernel hash maps; a write updates it, a read
answers with the content in the third word. The timed store also stamps the
first four words with two clock readings.
-/

namespace PacketBench.Xdp

open Bytes PktM BoundedMaps

@[simp] def setsNr : ℕ := 4
@[simp] def setsBlocks : ℕ := 500
@[simp] def dataReadB : BitVec 32 := BitVec.ofNat 32 totSizeB
@[simp] def dataWriteB : BitVec 32 := BitVec.ofNat 32 totSizeB

inductive MapId where
  | rxblk1
  | rxblk2
  | rxblk3
  | rxblk4
  deriving DecidableEq, Repr

/-- `BUCK(v)`: the unsigned remainder, passed on as an `int`. -/
def buck (v : BitVec 32) : ℤ := (v.toNat % setsNr : ℕ)

def getSet (v : ℤ) : MapId :=
  match v with
  | 1 => .rxblk1
  | 2 => .rxblk2
  | 3 => .rxblk3
  | 4 => .rxblk4
  | _ => .rxblk1

def keySet (key : BitVec 32) : MapId := getSet (buck key)

/-- An LRU hash map of the kernel with `SETS_BLOCKS` entries. -/
abbrev LruHash := EvictingMap (BitVec 32) (BitVec 32) setsBlocks

variable (L : LruHash)

abbrev Maps := MapId → L.State

def bpfMapLookupElem (map : MapId) (key : BitVec 32) : PktM (Maps L) (Option (BitVec 32)) := do
  let maps ← getStore
  putStore (Function.update maps map (L.lookup (maps map) key))
  return L.get (maps map) key

def bpfMapUpdateElem (map : MapId) (key val : BitVec 32) : PktM (Maps L) Unit := do
  let maps ← getStore
  putStore (Function.update maps map (L.put (maps map) key val))

/-- The request part that both programs share, up to the reply. -/
def serveRequest (ip udp payload : ℕ) (size : BitVec 32) (reply : PktM (Maps L) Verdict) :
    PktM (Maps L) Verdict := do
  let flag ← load payload 32
  if flag ≠ 0 then
    if size ≠ dataWriteB then
      return .pass
    let key ← load (payload + 4) 32
    let val ← load (payload + 8) 32
    bpfMapUpdateElem L (getSet (buck key)) key val
    reply
  else
    if size ≠ dataReadB then
      return .pass
    let key ← load (payload + 4) 32
    match ← bpfMapLookupElem L (getSet (buck key)) key with
    | some cont =>
      store (payload + 8) 32 cont
      refreshCheck ip udp
      reply
    | none => reply

def wrongSize (size : BitVec 32) : Bool := size ≠ dataReadB || size ≠ dataWriteB

/-- The untimed store, `kvstore_no_t.c`. -/
def kvstoreNoT : PktM (Maps L) Verdict :=
  withUdp fun eth ip udp => withPayload wrongSize udp fun payload size =>
    serveRequest L ip udp payload size do
      swapInfos eth ip udp
      return .tx

/-- The timed store, `kvstore.c`: `arrival` and `processed` are the moments of its two clock
readings. -/
def kvstore (arrival processed : Instant) : PktM (Maps L) Verdict :=
  withUdp fun eth ip udp => withPayload wrongSize udp fun payload size =>
    serveRequest L ip udp payload size do
      if payload + 2 * 8 > (← pktEnd) then
        return .pass
      store payload 64 arrival.ktimeNs
      store (payload + 8) 64 processed.ktimeNs
      swapInfos eth ip udp
      refreshCheck ip udp
      return .tx

def IsRequest (f : Frame) : Prop := Carries totSizeB f

instance : DecidablePred IsRequest := fun f => inferInstanceAs (Decidable (Carries totSizeB f))

/-- The payload a request leaves behind: a read that finds its key answers with the content. -/
def answer (maps : Maps L) (f : Frame) : Mem :=
  match request f with
  | .write _ _ => f.mem
  | .read key =>
    match value L.toBoundedMap keySet maps key with
    | some cont => freshCheck { f with mem := f.mem.store 50 32 cont } 14 34
    | none => f.mem

def serveMaps (maps : Maps L) (f : Frame) : Maps L :=
  serve L.toBoundedMap keySet maps (request f)

variable {L}

theorem wrongSize_eq (s : BitVec 32) :
    wrongSize s = decide (s ≠ BitVec.ofNat 32 totSizeB) := by
  unfold wrongSize
  rw [dataReadB, dataWriteB, Bool.or_self]

theorem exec_request_of_not (reply : ℕ → ℕ → ℕ → ℕ → PktM (Maps L) Verdict) {r : Run (Maps L)}
    (h : ¬ IsRequest r.frame) : ∃ n ≤ r.frame.len,
      (withUdp fun eth ip udp => withPayload wrongSize udp fun payload size =>
        serveRequest L ip udp payload size (reply eth ip udp payload)).exec r =
          (.pass, r.touch n) := by
  rw [exec_withUdp]
  by_cases hudp : IsUdp r.frame
  · have hcarry : ¬ (r.frame.Announces totSizeB ∧ 42 + totSizeB ≤ r.frame.len) :=
      fun hc => h ⟨hudp, hc⟩
    refine ⟨max (headerReach r.frame) 40, ?_, ?_⟩
    · exact max_le (headerReach_le r.frame) (by have := hudp.1; omega)
    · rw [if_pos hudp, exec_withPayload (by decide) (by decide) wrongSize_eq, Run.touch_frame,
        if_neg hcarry, Run.touch_touch]
  · exact ⟨headerReach r.frame, headerReach_le r.frame, by rw [if_neg hudp]⟩

theorem answer_of_write {maps : Maps L} {f : Frame} (h : f.word 0 ≠ 0) :
    answer L maps f = f.mem := by
  unfold answer
  rw [request_of_write h]

theorem answer_of_miss {maps : Maps L} {f : Frame} (h : f.word 0 = 0)
    (hval : value L.toBoundedMap keySet maps (f.word 1) = none) : answer L maps f = f.mem := by
  simp only [answer, request_of_read h, hval]

theorem answer_of_hit {maps : Maps L} {f : Frame} {cont : BitVec 32} (h : f.word 0 = 0)
    (hval : value L.toBoundedMap keySet maps (f.word 1) = some cont) :
    answer L maps f = freshCheck { f with mem := f.mem.store 50 32 cont } 14 34 := by
  simp only [answer, request_of_read h, hval]

theorem csumReach_le_of_payload {len : ℕ} (h : 1066 ≤ len) : csumReach len 14 34 ≤ len :=
  csumReach_le (by decide) (by simp; omega)

theorem exec_serveRequest (reply : PktM (Maps L) Verdict) {r : Run (Maps L)}
    (h : 1066 ≤ r.frame.len) : ∃ n ≤ r.frame.len,
      (serveRequest L 14 34 42 (BitVec.ofNat 32 totSizeB) reply).exec r =
        reply.exec (((r.setMem (answer L r.store r.frame)).setStore
          (serveMaps L r.store r.frame)).touch n) := by
  have hcsum := csumReach_le_of_payload h
  have hword₀ : r.frame.mem.load 42 32 = r.frame.word 0 := rfl
  have hword₁ : r.frame.mem.load 46 32 = r.frame.word 1 := rfl
  have hword₂ : r.frame.mem.load 50 32 = r.frame.word 2 := rfl
  rcases eq_or_ne (r.frame.word 0) 0 with hflag | hflag
  · have hmaps : serveMaps L r.store r.frame = Function.update r.store (keySet (r.frame.word 1))
        (L.lookup (r.store (keySet (r.frame.word 1))) (r.frame.word 1)) := by
      unfold serveMaps
      rw [request_of_read hflag, serve]
    cases hval : value L.toBoundedMap keySet r.store (r.frame.word 1) with
    | none =>
      refine ⟨50, by omega, ?_⟩
      rw [answer_of_miss hflag hval, hmaps]
      rw [value, keySet] at hval
      simp [serveRequest, bpfMapLookupElem, hword₀, hword₁, hflag, hval, keySet]
    | some cont =>
      refine ⟨max 54 (max 42 (csumReach r.frame.len 14 34)), by omega, ?_⟩
      rw [answer_of_hit hflag hval, hmaps]
      rw [value, keySet] at hval
      simp [serveRequest, bpfMapLookupElem, hword₀, hword₁, hflag, hval, keySet, exec_refreshCheck]
  · have hmaps : serveMaps L r.store r.frame = Function.update r.store (keySet (r.frame.word 1))
        (L.put (r.store (keySet (r.frame.word 1))) (r.frame.word 1) (r.frame.word 2)) := by
      unfold serveMaps
      rw [request_of_write hflag, serve]
    have hne : ¬ r.frame.word 0 = 0#32 := hflag
    refine ⟨54, by omega, ?_⟩
    rw [answer_of_write hflag, hmaps]
    simp [serveRequest, bpfMapUpdateElem, hword₀, hword₁, hword₂, hne, keySet]

theorem exec_request (reply : ℕ → ℕ → ℕ → ℕ → PktM (Maps L) Verdict) {r : Run (Maps L)}
    (h : IsRequest r.frame) : ∃ n ≤ r.frame.len,
      (withUdp fun eth ip udp => withPayload wrongSize udp fun payload size =>
        serveRequest L ip udp payload size (reply eth ip udp payload)).exec r =
          (reply 0 14 34 42).exec (((r.setMem (answer L r.store r.frame)).setStore
            (serveMaps L r.store r.frame)).touch n) := by
  obtain ⟨hudp, hcarry⟩ := h
  have hlen : 1066 ≤ r.frame.len := hcarry.2
  have hheader := headerReach_le r.frame
  obtain ⟨n, hn, hserve⟩ := exec_serveRequest (reply 0 14 34 42)
    (r := r.touch (max (headerReach r.frame) 40)) hlen
  rw [Run.touch_frame] at hn
  refine ⟨max (max (headerReach r.frame) 40) n, by omega, ?_⟩
  rw [exec_withUdp, if_pos hudp, exec_withPayload (by decide) (by decide) wrongSize_eq,
    Run.touch_frame, if_pos hcarry, Run.touch_touch, hserve, Run.touch_setMem,
    Run.touch_setStore, Run.touch_touch, Run.touch_store, Run.touch_frame]

theorem exec_kvstoreNoT {r : Run (Maps L)} (h : IsRequest r.frame) : ∃ n ≤ r.frame.len,
    (kvstoreNoT L).exec r = (.tx, ((r.setMem (swapHeaders (answer L r.store r.frame))).setStore
      (serveMaps L r.store r.frame)).touch n) := by
  have hlen : 1066 ≤ r.frame.len := h.2.2
  obtain ⟨n, hn, hexec⟩ := exec_request (fun eth ip udp _ => do
    swapInfos eth ip udp
    return .tx) h
  refine ⟨max n 38, by omega, ?_⟩
  unfold kvstoreNoT
  rw [hexec]
  simp

def stampTimes (arrival processed : Instant) (m : Mem) : Mem :=
  (m.store 42 64 arrival.ktimeNs).store 50 64 processed.ktimeNs

theorem exec_kvstore (arrival processed : Instant) {r : Run (Maps L)} (h : IsRequest r.frame) :
    ∃ n ≤ r.frame.len, (kvstore L arrival processed).exec r =
      (.tx, ((r.setMem (freshCheck ⟨r.frame.len, swapHeaders (stampTimes arrival processed
        (answer L r.store r.frame))⟩ 14 34)).setStore (serveMaps L r.store r.frame)).touch n) := by
  have hlen : 1066 ≤ r.frame.len := h.2.2
  have hcsum := csumReach_le_of_payload hlen
  have hend : ¬ r.frame.len < 58 := by omega
  obtain ⟨n, hn, hexec⟩ := exec_request (fun eth ip udp payload => do
    if payload + 2 * 8 > (← pktEnd) then
      return .pass
    store payload 64 arrival.ktimeNs
    store (payload + 8) 64 processed.ktimeNs
    swapInfos eth ip udp
    refreshCheck ip udp
    return .tx) h
  refine ⟨max n (max 58 (max 42 (csumReach r.frame.len 14 34))), by omega, ?_⟩
  unfold kvstore
  rw [hexec]
  simp [hend, exec_refreshCheck, stampTimes]

theorem exec_kvstoreNoT_of_not {r : Run (Maps L)} (h : ¬ IsRequest r.frame) :
    ∃ n ≤ r.frame.len, (kvstoreNoT L).exec r = (.pass, r.touch n) := exec_request_of_not _ h

theorem exec_kvstore_of_not (arrival processed : Instant) {r : Run (Maps L)}
    (h : ¬ IsRequest r.frame) :
    ∃ n ≤ r.frame.len, (kvstore L arrival processed).exec r = (.pass, r.touch n) :=
  exec_request_of_not _ h

variable {f : Frame}

theorem handle_kvstoreNoT (maps : Maps L) (h : IsRequest f) :
    (handle (kvstoreNoT L) maps f).1 = .tx ∧
    (handle (kvstoreNoT L) maps f).2.frame = ⟨f.len, swapHeaders (answer L maps f)⟩ ∧
    (handle (kvstoreNoT L) maps f).2.store = serveMaps L maps f := by
  obtain ⟨n, -, hexec⟩ := exec_kvstoreNoT (r := Run.start f maps) h
  unfold handle
  rw [hexec]
  exact ⟨rfl, rfl, rfl⟩

theorem handle_kvstoreNoT_of_not (maps : Maps L) (h : ¬ IsRequest f) :
    (handle (kvstoreNoT L) maps f).1 = .pass ∧ (handle (kvstoreNoT L) maps f).2.frame = f ∧
    (handle (kvstoreNoT L) maps f).2.store = maps := by
  obtain ⟨n, -, hexec⟩ := exec_kvstoreNoT_of_not (r := Run.start f maps) h
  unfold handle
  rw [hexec]
  exact ⟨rfl, rfl, rfl⟩

theorem handle_kvstore (maps : Maps L) {a : Arrival} (h : IsRequest a.frame) :
    (handleTimed (kvstore L) maps a).1 = .tx ∧
    (handleTimed (kvstore L) maps a).2.frame =
      ⟨a.frame.len, freshCheck ⟨a.frame.len, swapHeaders
        (stampTimes a.received a.processed (answer L maps a.frame))⟩ 14 34⟩ ∧
    (handleTimed (kvstore L) maps a).2.store = serveMaps L maps a.frame := by
  obtain ⟨n, -, hexec⟩ := exec_kvstore a.received a.processed (r := Run.start a.frame maps) h
  unfold handleTimed handle
  rw [hexec]
  exact ⟨rfl, rfl, rfl⟩

theorem handle_kvstore_of_not (maps : Maps L) {a : Arrival} (h : ¬ IsRequest a.frame) :
    (handleTimed (kvstore L) maps a).1 = .pass ∧
    (handleTimed (kvstore L) maps a).2.frame = a.frame ∧
    (handleTimed (kvstore L) maps a).2.store = maps := by
  obtain ⟨n, -, hexec⟩ := exec_kvstore_of_not a.received a.processed (r := Run.start a.frame maps) h
  unfold handleTimed handle
  rw [hexec]
  exact ⟨rfl, rfl, rfl⟩

theorem word_answer (maps : Maps L) {i : ℕ} (hi : i ≠ 2) (n : ℕ) :
    (Frame.mk n (answer L maps f)).word i = f.word i := by
  rcases eq_or_ne (f.word 0) 0 with hflag | hflag
  · cases hval : value L.toBoundedMap keySet maps (f.word 1) with
    | none => rw [answer_of_miss hflag hval]; rfl
    | some cont =>
      rw [answer_of_hit hflag hval, Frame.word, load_freshCheck (by simp),
        Mem.load_store_of_disjoint _ (by omega)]
      rfl
  · rw [answer_of_write hflag]
    rfl

theorem word_two_answer (maps : Maps L) (hflag : f.word 0 = 0) (n : ℕ) :
    (Frame.mk n (answer L maps f)).word 2 =
      (value L.toBoundedMap keySet maps (f.word 1)).getD (f.word 2) := by
  cases hval : value L.toBoundedMap keySet maps (f.word 1) with
  | none => rw [answer_of_miss hflag hval]; rfl
  | some cont =>
    rw [answer_of_hit hflag hval, Frame.word, load_freshCheck (by simp)]
    exact Mem.load_store_self rfl _

theorem word_swapHeaders (m : Mem) (n i : ℕ) :
    (Frame.mk n (swapHeaders m)).word i = (Frame.mk n m).word i :=
  load_swapHeaders (Or.inr (by omega))

end PacketBench.Xdp

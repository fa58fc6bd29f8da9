import PacketBench.Xdp.Program

/-! # Time stamps

The timed programs write two clock readings into the first 16 bytes of the
payload, if it has as many. `ping_pong` does so after the reply swap,
`baseline` and `loadbalancing` on frames that they hand on to the stack.
-/

namespace PacketBench.Xdp

open Bytes PktM

variable {σ : Type}

/-- The two clock readings, then `finish`, if the payload has room for them. -/
def stamp (payload : ℕ) (first second : BitVec 64) (finish : PktM σ Verdict) :
    PktM σ Verdict := do
  if payload + 2 * 8 > (← pktEnd) then
    return .pass
  store payload 64 first
  store (payload + 8) 64 second
  finish

def pingPong (arrival processed : Instant) : PktM Unit Verdict :=
  withUdp fun eth ip udp => do
    let payload := udp + sizeofUdphdr
    swapInfos eth ip udp
    stamp payload arrival.ktimeNs processed.ktimeNs do
      refreshCheck ip udp
      return .tx

def pingPongNoT : PktM Unit Verdict :=
  withUdp fun eth ip udp => do
    swapInfos eth ip udp
    return .tx

def baseline (arrival processed : Instant) : PktM Unit Verdict :=
  withUdp fun _ ip udp => do
    let _ ← payloadSize udp
    let payload := udp + sizeofUdphdr
    stamp payload arrival.ktimeNs processed.ktimeBootNs do
      refreshCheck ip udp
      return .pass

/-- The hash of the `len` bytes from `word` on, as signed characters. -/
def sdbm (word : ℕ) : ℕ → PktM σ (BitVec 32)
  | 0 => return 0
  | len + 1 => do
    let hashAddress ← sdbm word len
    let byte ← load (word + len) 8
    return byte.signExtend 32 + (hashAddress <<< 6) + (hashAddress <<< 16) - hashAddress

def nrRx : BitVec 32 := 1

/-- `BUCK(v)` of `loadbalancing.c`. -/
def rxBuck (v : BitVec 32) : BitVec 32 := v.srem nrRx

/-- The store is the `rx_queue_index` of the context. -/
def loadbalancing (arrival processed : Instant) : PktM (BitVec 32) Verdict :=
  withUdp fun _ ip udp => do
    let payload := udp + sizeofUdphdr
    stamp payload arrival.ktimeBootNs processed.ktimeBootNs do
      putStore (rxBuck (← sdbm (ipSaddr ip) 4))
      return .pass

def stamped (first second : BitVec 64) (m : Mem) : Mem := (m.store 42 64 first).store 50 64 second

variable {f : Frame} {s t : σ} {v : Verdict} {m : Mem} {first second : BitVec 64}

theorem stamped_apply_of_lt {a : ℕ} (h : a < 42) : stamped first second m a = m a := by
  unfold stamped
  rw [Mem.store_apply_of_outside _ (by omega), Mem.store_apply_of_outside _ (by omega)]

theorem yields_stamp {finish : PktM σ Verdict} (hlen : 58 ≤ f.len)
    (h : finish.Yields ⟨f.len, stamped first second f.mem⟩ s v m t) :
    (stamp 42 first second finish).Yields f s v m t := by
  refine yields_pktEnd.bind ?_
  rw [if_neg (by simpa using hlen)]
  have hroom : 42 + 64 / 8 ≤ f.len := by omega
  exact (yields_store _ hroom).bind ((yields_store _ hlen).bind h)

theorem yields_stamp_of_short {finish : PktM σ Verdict} (hlen : ¬ 58 ≤ f.len) :
    (stamp 42 first second finish).Yields f s .pass f.mem s := by
  refine yields_pktEnd.bind ?_
  rw [if_pos (by simpa using hlen)]
  exact yields_pure _

theorem yields_refresh (hlen : 42 ≤ f.len) :
    (do refreshCheck 14 34; return v : PktM σ Verdict).Yields ⟨f.len, m⟩ s v
      (freshCheck ⟨f.len, m⟩ 14 34) s :=
  Yields.bind (yields_refreshCheck hlen) (yields_pure v)

theorem yields_sdbm {word len : ℕ} (h : word + len ≤ f.len) :
    ∃ hash, (sdbm word len : PktM σ _).Yields f s hash f.mem s := by
  induction len with
  | zero => exact ⟨0, yields_pure 0⟩
  | succ len ih =>
    obtain ⟨hash, hsdbm⟩ := ih (by omega)
    exact ⟨_, hsdbm.bind ((yields_load (by omega)).bind (yields_pure _))⟩

section Programs

variable {arrival processed : Instant}

theorem yields_pingPong (hudp : IsUdp f) (hlen : 58 ≤ f.len) :
    (pingPong arrival processed).Yields f () .tx
      (freshCheck ⟨f.len, stamped arrival.ktimeNs processed.ktimeNs (swapHeaders f.mem)⟩ 14 34)
      () :=
  yields_withUdp hudp ((yields_swapInfos hudp.1).bind
    (yields_stamp hlen (yields_refresh hudp.1)))

theorem yields_pingPong_of_short (hudp : IsUdp f) (hlen : ¬ 58 ≤ f.len) :
    (pingPong arrival processed).Yields f () .pass (swapHeaders f.mem) () :=
  yields_withUdp hudp ((yields_swapInfos hudp.1).bind (yields_stamp_of_short hlen))

theorem yields_pingPongNoT (hudp : IsUdp f) :
    pingPongNoT.Yields f () .tx (swapHeaders f.mem) () :=
  yields_withUdp hudp ((yields_swapInfos hudp.1).bind (yields_pure _))

theorem yields_payloadSize (hudp : IsUdp f) :
    (payloadSize 34 : PktM σ _).Yields f s (sizeOf f) f.mem s := by
  have hlen : 40 ≤ f.len := (by omega : 40 ≤ 42).trans hudp.1
  exact yields_of_touch hlen fun r hf hs => by rw [exec_payloadSize, ← hf, ← hs]; rfl

theorem yields_baseline (hudp : IsUdp f) (hlen : 58 ≤ f.len) :
    (baseline arrival processed).Yields f () .pass
      (freshCheck ⟨f.len, stamped arrival.ktimeNs processed.ktimeBootNs f.mem⟩ 14 34) () :=
  yields_withUdp hudp ((yields_payloadSize hudp).bind
    (yields_stamp hlen (yields_refresh hudp.1)))

theorem yields_baseline_of_short (hudp : IsUdp f) (hlen : ¬ 58 ≤ f.len) :
    (baseline arrival processed).Yields f () .pass f.mem () :=
  yields_withUdp hudp ((yields_payloadSize hudp).bind (yields_stamp_of_short hlen))

theorem yields_loadbalancing (queue : BitVec 32) (hudp : IsUdp f) (hlen : 58 ≤ f.len) :
    ∃ queue', (loadbalancing arrival processed).Yields f queue .pass
      (stamped arrival.ktimeBootNs processed.ktimeBootNs f.mem) queue' := by
  have hsaddr : ipSaddr 14 + 4 ≤ f.len := (by decide : ipSaddr 14 + 4 ≤ 42).trans hudp.1
  obtain ⟨hash, hsdbm⟩ : ∃ hash, (sdbm (ipSaddr 14) 4 : PktM (BitVec 32) _).Yields
      ⟨f.len, stamped arrival.ktimeBootNs processed.ktimeBootNs f.mem⟩ queue hash
      (stamped arrival.ktimeBootNs processed.ktimeBootNs f.mem) queue := yields_sdbm hsaddr
  exact ⟨rxBuck hash, yields_withUdp hudp (yields_stamp hlen
    (hsdbm.bind ((yields_putStore _).bind (yields_pure _))))⟩

theorem yields_loadbalancing_of_short (queue : BitVec 32) (hudp : IsUdp f) (hlen : ¬ 58 ≤ f.len) :
    (loadbalancing arrival processed).Yields f queue .pass f.mem queue :=
  yields_withUdp hudp (yields_stamp_of_short hlen)

end Programs

end PacketBench.Xdp

import PacketBench.Frame.Requests
import PacketBench.Frame.Yields
import PacketBench.Xdp.Checksum

/-! # The common frame of the XDP programs

Every program first checks that the Ethernet, IPv4 and UDP headers lie before
`data_end` and that the protocol is UDP; most of them then take datagrams of
one payload size only. The reply swap and the checksum refresh are the same
few stores in all of them.
-/

namespace PacketBench.Xdp

open Bytes PktM

variable {σ : Type}

inductive Verdict where
  | pass
  | tx
  | drop
  deriving DecidableEq, Repr

/-- What the two kernel clocks show at one moment. -/
structure Instant where
  ktimeNs : BitVec 64
  ktimeBootNs : BitVec 64

/-- The header checks: `body` runs on a frame with complete Ethernet, IPv4 and UDP headers, with
pointers to the three of them. -/
def withUdp (body : ℕ → ℕ → ℕ → PktM σ Verdict) : PktM σ Verdict := do
  let dataEnd ← pktEnd
  let eth := 0
  if eth + sizeofEthhdr ≤ dataEnd then
    let ip := eth + sizeofEthhdr
    if ip + sizeofIphdr ≤ dataEnd then
      if (← load (ipProtocol ip) 8) = ipprotoUdp then
        let udp := ip + sizeofIphdr
        if udp + sizeofUdphdr ≤ dataEnd then
          return ← body eth ip udp
  return .pass

/-- `ntohs(udp->len) - sizeof(*udp)` as an `unsigned int`. -/
def payloadSize (udp : ℕ) : PktM σ (BitVec 32) := do
  return (ntohs (← load (udpLen udp) 16)).setWidth 32 - BitVec.ofNat 32 sizeofUdphdr

/-- The payload checks: `body` runs on a datagram whose payload size is not `wrong` and whose
payload lies before `data_end`. -/
def withPayload (wrong : BitVec 32 → Bool) (udp : ℕ) (body : ℕ → BitVec 32 → PktM σ Verdict) :
    PktM σ Verdict := do
  let size ← payloadSize udp
  if wrong size then
    return .pass
  let payload := udp + sizeofUdphdr
  if payload + dataSizeB * (size.toNat / dataSizeB) > (← pktEnd) then
    return .pass
  body payload size

def swapInfos (eth ip udp : ℕ) : PktM σ Unit := do
  exchange (udpDest udp) (udpSource udp) 16
  exchange (ipDaddr ip) (ipSaddr ip) 32
  exchange (hDest eth) (hSource eth) 48

def refreshCheck (ip udp : ℕ) : PktM σ Unit := do
  store (udpCheck udp) 16 0
  store (udpCheck udp) 16 (← caludpcsum ip udp)

def IsUdp (f : Frame) : Prop := 42 ≤ f.len ∧ f.protocol = ipprotoUdp

/-- A frame that passes the header checks and the payload checks for `size` bytes. -/
def Carries (size : ℕ) (f : Frame) : Prop := IsUdp f ∧ f.Announces size ∧ 42 + size ≤ f.len

instance : DecidablePred IsUdp := fun f =>
  inferInstanceAs (Decidable (42 ≤ f.len ∧ f.protocol = ipprotoUdp))

instance (size : ℕ) : DecidablePred (Carries size) := fun f =>
  inferInstanceAs (Decidable (IsUdp f ∧ f.Announces size ∧ 42 + size ≤ f.len))

def headerReach (f : Frame) : ℕ := if 34 ≤ f.len then 24 else 0

theorem headerReach_le (f : Frame) : headerReach f ≤ f.len := by
  unfold headerReach
  split_ifs <;> omega

theorem exec_withUdp (body : ℕ → ℕ → ℕ → PktM σ Verdict) (r : Run σ) :
    (withUdp body).exec r =
      if IsUdp r.frame then (body 0 14 34).exec (r.touch (headerReach r.frame))
      else (.pass, r.touch (headerReach r.frame)) := by
  by_cases h₁ : 14 ≤ r.frame.len
  · by_cases h₂ : 34 ≤ r.frame.len
    · by_cases h₃ : r.frame.protocol = ipprotoUdp
      · by_cases h₄ : 42 ≤ r.frame.len <;>
          simp_all [withUdp, IsUdp, headerReach, Frame.protocol]
      · simp_all [withUdp, IsUdp, headerReach, Frame.protocol]
    · have h₄ : ¬ 42 ≤ r.frame.len := by omega
      simp [withUdp, IsUdp, headerReach, h₁, h₂, h₄]
  · have h₂ : ¬ 34 ≤ r.frame.len := by omega
    have h₄ : ¬ 42 ≤ r.frame.len := by omega
    simp [withUdp, IsUdp, headerReach, h₁, h₂, h₄]

def sizeOf (f : Frame) : BitVec 32 := f.udpLength.setWidth 32 - BitVec.ofNat 32 sizeofUdphdr

@[simp] theorem exec_payloadSize (r : Run σ) :
    (payloadSize 34).exec r = (sizeOf r.frame, r.touch 40) := by
  simp [payloadSize, sizeOf, Frame.udpLength]

/-- The unsigned subtraction wraps below 8 but never hits a size from there. -/
theorem sizeOf_eq_iff {f : Frame} {size : ℕ} (hsize : size < 2 ^ 31) :
    sizeOf f = BitVec.ofNat 32 size ↔ f.Announces size := by
  have hlen := f.udpLength.isLt
  rw [← BitVec.toNat_inj, Frame.Announces, sizeOf, BitVec.toNat_sub, BitVec.toNat_setWidth,
    BitVec.toNat_ofNat, BitVec.toNat_ofNat, sizeofUdphdr]
  omega

/-- A frame that passes the header checks and the payload checks for `size` bytes, of which whole
words count. -/
def Takes (size : ℕ) (f : Frame) : Prop :=
  IsUdp f ∧ f.Announces size ∧ 42 + dataSizeB * (size / dataSizeB) ≤ f.len

instance (size : ℕ) : DecidablePred (Takes size) := fun f => inferInstanceAs
  (Decidable (IsUdp f ∧ f.Announces size ∧ 42 + dataSizeB * (size / dataSizeB) ≤ f.len))

theorem takes_requestFrame (flag key val : BitVec 32) :
    Takes totSizeB (requestFrame flag key val) :=
  ⟨⟨by simp, protocol_requestFrame flag key val⟩, announces_requestFrame flag key val, by simp⟩

theorem exec_withPayload_words {wrong : BitVec 32 → Bool} {size : ℕ} (hsize : size < 2 ^ 31)
    (hwrong : ∀ s, wrong s = decide (s ≠ BitVec.ofNat 32 size))
    (body : ℕ → BitVec 32 → PktM σ Verdict) (r : Run σ) :
    (withPayload wrong 34 body).exec r =
      if r.frame.Announces size ∧ 42 + dataSizeB * (size / dataSizeB) ≤ r.frame.len then
        (body 42 (BitVec.ofNat 32 size)).exec (r.touch 40)
      else (.pass, r.touch 40) := by
  have hiff := sizeOf_eq_iff (f := r.frame) hsize
  by_cases hs : r.frame.Announces size
  · have heq := hiff.mpr hs
    have hmod : size % 4294967296 = size := Nat.mod_eq_of_lt (by omega)
    by_cases hend : 42 + 4 * (size / 4) ≤ r.frame.len
    · simp [withPayload, hwrong, heq, hs, hmod, hend, Nat.not_lt.mpr hend]
    · simp [withPayload, hwrong, heq, hs, hmod, hend, Nat.lt_of_not_le hend]
  · have hne := mt hiff.mp hs
    simp [withPayload, hwrong, hne, hs]

theorem exec_withPayload {wrong : BitVec 32 → Bool} {size : ℕ} (hsize : size < 2 ^ 31)
    (hword : size % dataSizeB = 0) (hwrong : ∀ s, wrong s = decide (s ≠ BitVec.ofNat 32 size))
    (body : ℕ → BitVec 32 → PktM σ Verdict) (r : Run σ) :
    (withPayload wrong 34 body).exec r =
      if r.frame.Announces size ∧ 42 + size ≤ r.frame.len then
        (body 42 (BitVec.ofNat 32 size)).exec (r.touch 40)
      else (.pass, r.touch 40) := by
  have hdiv : dataSizeB * (size / dataSizeB) = size :=
    Nat.mul_div_cancel' (Nat.dvd_of_mod_eq_zero hword)
  rw [exec_withPayload_words hsize hwrong, hdiv]

@[simp] theorem exec_swapInfos (r : Run σ) :
    (swapInfos 0 14 34).exec r = ((), (r.setMem (swapHeaders r.frame.mem)).touch 38) := by
  simp [swapInfos, ← swap_ports_first]

def freshCheck (f : Frame) (ip udp : ℕ) : Mem :=
  (f.mem.store (udpCheck udp) 16 0).store (udpCheck udp) 16
    (foldCsum (BitVec.ofNat 32
      (csumSum { f with mem := f.mem.store (udpCheck udp) 16 0 } ip udp)))

theorem exec_refreshCheck (ip udp : ℕ) (r : Run σ) :
    (refreshCheck ip udp).exec r = ((), (r.setMem (freshCheck r.frame ip udp)).touch
      (max (udp + 8) (csumReach r.frame.len ip udp))) := by
  simp [refreshCheck, freshCheck, add_assoc]

theorem load_freshCheck {f : Frame} {ip udp off n : ℕ}
    (h : off + n / 8 ≤ udpCheck udp ∨ udpCheck udp + 2 ≤ off) :
    (freshCheck f ip udp).load off n = f.mem.load off n := by
  unfold freshCheck
  rw [Mem.load_store_of_disjoint _ (by omega), Mem.load_store_of_disjoint _ (by omega)]

theorem freshCheck_apply_of_lt {f : Frame} {a : ℕ} (h : a < 40) :
    freshCheck f 14 34 a = f.mem a := by
  unfold freshCheck
  rw [Mem.store_apply_of_outside _ (by simp only [udpCheck]; omega),
    Mem.store_apply_of_outside _ (by simp only [udpCheck]; omega)]

section Yields

variable {body : ℕ → ℕ → ℕ → PktM σ Verdict} {work : ℕ → BitVec 32 → PktM σ Verdict}
  {wrong : BitVec 32 → Bool} {size : ℕ} {f : Frame} {s t : σ} {v : Verdict} {m : Mem}

theorem yields_withUdp (hudp : IsUdp f) (h : (body 0 14 34).Yields f s v m t) :
    (withUdp body).Yields f s v m t := by
  intro r hf hs
  obtain ⟨n, hn, hexec⟩ := h (r.touch (headerReach f)) hf hs
  refine ⟨max (headerReach f) n, max_le (headerReach_le f) hn, ?_⟩
  rw [exec_withUdp, hf, if_pos hudp, hexec, Run.touch_setMem, Run.touch_setStore, Run.touch_touch]

theorem yields_withUdp_of_not (hudp : ¬ IsUdp f) : (withUdp body).Yields f s .pass f.mem s :=
  yields_of_touch (headerReach_le f) fun r hf hs => by
    rw [exec_withUdp, hf, if_neg hudp, ← hf, ← hs]
    rfl

theorem yields_withPayload (hsize : size < 2 ^ 31)
    (hwrong : ∀ s, wrong s = decide (s ≠ BitVec.ofNat 32 size)) (htakes : Takes size f)
    (h : (work 42 (BitVec.ofNat 32 size)).Yields f s v m t) :
    (withPayload wrong 34 work).Yields f s v m t := by
  obtain ⟨⟨hlen, -⟩, htakes⟩ := htakes
  intro r hf hs
  obtain ⟨n, hn, hexec⟩ := h (r.touch 40) hf hs
  refine ⟨max 40 n, max_le (by omega) hn, ?_⟩
  rw [exec_withPayload_words hsize hwrong, hf, if_pos htakes, hexec, Run.touch_setMem,
    Run.touch_setStore, Run.touch_touch]

theorem yields_withPayload_of_not (hsize : size < 2 ^ 31)
    (hwrong : ∀ s, wrong s = decide (s ≠ BitVec.ofNat 32 size)) (hudp : IsUdp f)
    (htakes : ¬ Takes size f) : (withPayload wrong 34 work).Yields f s .pass f.mem s := by
  have hlen : 40 ≤ f.len := (by omega : 40 ≤ 42).trans hudp.1
  refine yields_of_touch hlen fun r hf hs => ?_
  rw [exec_withPayload_words hsize hwrong, hf, if_neg (fun h => htakes ⟨hudp, h⟩), ← hf, ← hs]
  rfl

theorem yields_swapInfos (hudp : 42 ≤ f.len) :
    (swapInfos 0 14 34 : PktM σ Unit).Yields f s () (swapHeaders f.mem) s :=
  yields_of_touch (n := 38) (by omega) fun r hf hs => by rw [exec_swapInfos, ← hf, ← hs]; rfl

theorem yields_refreshCheck (hudp : 42 ≤ f.len) :
    (refreshCheck 14 34 : PktM σ Unit).Yields f s () (freshCheck f 14 34) s := by
  have hreach : csumReach f.len 14 34 ≤ f.len := csumReach_le (by decide) (by simpa using hudp)
  refine yields_of_touch (max_le hudp hreach) fun r hf hs => ?_
  rw [exec_refreshCheck, ← hf, ← hs]
  rfl

end Yields

def handle (prog : PktM σ Verdict) (s : σ) (f : Frame) : Verdict × Run σ :=
  prog.exec (Run.start f s)

def storeAfter (prog : PktM σ Verdict) (s : σ) (frames : List Frame) : σ :=
  frames.foldl (fun s f => (handle prog s f).2.store) s

structure Arrival where
  frame : Frame
  received : Instant
  processed : Instant

def handleTimed (prog : Instant → Instant → PktM σ Verdict) (s : σ) (a : Arrival) :
    Verdict × Run σ := handle (prog a.received a.processed) s a.frame

def storeAfterTimed (prog : Instant → Instant → PktM σ Verdict) (s : σ) (arrivals : List Arrival) :
    σ := arrivals.foldl (fun s a => (handleTimed prog s a).2.store) s

end PacketBench.Xdp

import PacketBench.Dpdk.Burst
import PacketBench.Frame.Requests

/-! # Frames in the DPDK programs

All programs test the same two fields before they look at a payload, and the
frames they answer go back with addresses and ports exchanged. Most of these
get a fresh UDP checksum.
-/

namespace PacketBench.Dpdk

open Bytes PktM

/-- `rte_ipv4_udptcp_cksum` on a frame, from the offsets of its IPv4 and UDP headers: the value and
the end of the bytes it reads. -/
structure Cksum where
  value : Frame → ℕ → ℕ → BitVec 16
  reach : Frame → ℕ → ℕ → ℕ

def datagramLength (f : Frame) (ip : ℕ) : ℕ :=
  (ntohs (f.mem.load (ip + 2) 16)).toNat - 4 * (f.mem.load ip 8 &&& 0x0F).toNat

/-- The documented function: the complement of the sum over pseudo-header and datagram, and
`0xFFFF` in place of 0. -/
def rteCksum : Cksum where
  value f ip udp :=
    let size := datagramLength f ip
    let words := (List.range (size / 2)).map fun i => (f.mem.load (udp + 2 * i) 16).toNat
    let odd := if size % 2 = 1 then (f.mem.load (udp + size - 1) 8).toNat else 0
    let addresses := (List.range 4).map fun i => (f.mem.load (ipSaddr ip + 2 * i) 16).toNat
    let proto := 256 * (f.mem.load (ipProtocol ip) 8).toNat
    let sum := words.sum + odd + addresses.sum + proto + (ntohs (BitVec.ofNat 16 size)).toNat
    let folded := sum / 65536 + sum % 65536
    let cksum := ~~~ BitVec.ofNat 16 (folded / 65536 + folded % 65536)
    if cksum = 0 then 0xFFFF else cksum
  reach f ip udp := udp + datagramLength f ip

section Programs

variable {σ α : Type}

/-- The classification of a frame: `body` runs on an IPv4 frame whose payload size is not
`wrong`. -/
def classify (rejected : α) (wrong : BitVec 16 → Bool)
    (body : ℕ → ℕ → ℕ → BitVec 16 → PktM σ α) : PktM σ α := do
  let eth := 0
  if ntohs (← load (hProto eth) 16) ≠ etherTypeIpv4 then
    return rejected
  let ip := eth + sizeofEthhdr
  let udp := ip + sizeofIphdr
  let size := ntohs (← load (udpLen udp) 16) - BitVec.ofNat 16 sizeofUdphdr
  if wrong size then
    return rejected
  body eth ip udp size

def swapInfos (eth ip udp : ℕ) : PktM σ Unit := do
  exchange (hDest eth) (hSource eth) 48
  exchange (ipDaddr ip) (ipSaddr ip) 32
  exchange (udpDest udp) (udpSource udp) 16

/-- The size test of all programs but the key-value store. -/
def wrongSize (size : BitVec 16) : Bool := size ≠ BitVec.ofNat 16 totSizeB

def refreshCksum (rteIpv4UdptcpCksum : Cksum) (ip udp : ℕ) : PktM σ Unit := do
  store (udpCheck udp) 16 0
  let f ← getFrame
  readTo (rteIpv4UdptcpCksum.reach f ip udp)
  store (udpCheck udp) 16 (rteIpv4UdptcpCksum.value f ip udp)

def Accepted (f : Frame) : Prop := f.etherType = etherTypeIpv4 ∧ f.Announces totSizeB

instance : DecidablePred Accepted := fun f =>
  inferInstanceAs (Decidable (f.etherType = etherTypeIpv4 ∧ f.Announces totSizeB))

def classifyReach (f : Frame) : ℕ := if f.etherType = etherTypeIpv4 then 40 else 14

/-- The 16-bit subtraction wraps below 8 but never hits `TOT_SIZE_B` from there. -/
theorem sub_sizeofUdphdr_eq_iff (f : Frame) :
    f.udpLength - BitVec.ofNat 16 sizeofUdphdr = BitVec.ofNat 16 totSizeB ↔
      f.Announces totSizeB := by
  have hlen := f.udpLength.isLt
  rw [← BitVec.toNat_inj, Frame.Announces, BitVec.toNat_sub, BitVec.toNat_ofNat,
    BitVec.toNat_ofNat, sizeofUdphdr, totSizeB]
  omega

theorem exec_classify {rejected : α} {wrong : BitVec 16 → Bool} (hwrong : wrong = wrongSize)
    (body : ℕ → ℕ → ℕ → BitVec 16 → PktM σ α) (r : Run σ) :
    (classify rejected wrong body).exec r =
      if Accepted r.frame then
        (body 0 14 34 (BitVec.ofNat 16 totSizeB)).exec (r.touch (classifyReach r.frame))
      else (rejected, r.touch (classifyReach r.frame)) := by
  subst hwrong
  have hiff := sub_sizeofUdphdr_eq_iff r.frame
  rcases eq_or_ne r.frame.etherType etherTypeIpv4 with htype | htype
  · have hload : ntohs (r.frame.mem.load 12 16) = etherTypeIpv4 := htype
    have hlen : ntohs (r.frame.mem.load 38 16) = r.frame.udpLength := rfl
    by_cases hsize : r.frame.Announces totSizeB
    · have heq := hiff.mpr hsize
      simp only [sizeofUdphdr, totSizeB] at heq hsize
      simp [classify, Accepted, classifyReach, wrongSize, htype, hload, hlen, hsize, heq]
    · have hne := mt hiff.mp hsize
      simp only [sizeofUdphdr, totSizeB] at hne hsize
      simp [classify, Accepted, classifyReach, wrongSize, htype, hload, hlen, hsize, hne]
  · have hload : ¬ ntohs (r.frame.mem.load 12 16) = etherTypeIpv4 := htype
    simp [classify, Accepted, classifyReach, htype, hload]

@[simp] theorem exec_swapInfos (r : Run σ) :
    (swapInfos 0 14 34).exec r = ((), (r.setMem (swapHeaders r.frame.mem)).touch 38) := by
  simp [swapInfos, swapHeaders]

@[simp] theorem exec_refreshCksum (rteIpv4UdptcpCksum : Cksum) (r : Run σ) :
    (refreshCksum rteIpv4UdptcpCksum 14 34).exec r =
      ((), (r.setMem ((r.frame.mem.store 40 16 0).store 40 16
        (rteIpv4UdptcpCksum.value ⟨r.frame.len, r.frame.mem.store 40 16 0⟩ 14 34))).touch
          (max 42 (rteIpv4UdptcpCksum.reach ⟨r.frame.len, r.frame.mem.store 40 16 0⟩ 14 34))) := by
  simp [refreshCksum]

end Programs

theorem payload_offset : 34 + sizeofUdphdr = 42 := rfl

theorem accepted_requestFrame (flag key val : BitVec 32) : Accepted (requestFrame flag key val) :=
  ⟨etherType_requestFrame flag key val, announces_requestFrame flag key val⟩

def arpFrame : Frame := Frame.ofBytes (List.replicate 12 0xFF ++ [0x08, 0x06])

theorem not_accepted_arpFrame : ¬ Accepted arpFrame := by decide

def mixedBufs : List Mbuf :=
  [⟨1, one_ne_zero, arpFrame⟩, ⟨2, two_ne_zero, requestFrame 1 7 42⟩]

theorem nodup_mixedBufs : (mixedBufs.map Mbuf.addr).Nodup := by decide

/-- A frame that no program accepts and one that all programs accept. -/
def mixedBurst : Burst := ⟨mixedBufs, nodup_mixedBufs, by decide⟩

def sendBack (rteIpv4UdptcpCksum : Cksum) (len : ℕ) (m : Mem) : Mem :=
  let swapped := (swapHeaders m).store 40 16 0
  swapped.store 40 16 (rteIpv4UdptcpCksum.value ⟨len, swapped⟩ 14 34)

theorem word_sendBack (rteIpv4UdptcpCksum : Cksum) (m : Mem) (n n' i : ℕ) :
    (Frame.mk n' (sendBack rteIpv4UdptcpCksum n m)).word i = (Frame.mk n m).word i := by
  rw [Frame.word, sendBack, Mem.load_store_of_disjoint _ (by omega),
    Mem.load_store_of_disjoint _ (by omega), load_swapHeaders (by omega), Frame.word]

theorem sendBack_swaps {f : Frame} {m : Mem} (rteIpv4UdptcpCksum : Cksum) (len : ℕ)
    (h : ∀ a < 38, m a = f.mem a) :
    AddressesSwapped f ⟨len, sendBack rteIpv4UdptcpCksum len m⟩ := by
  refine addressesSwapped_of_eq h fun a ha => ?_
  simp only [sendBack]
  rw [Mem.store_apply_of_outside _ (by omega), Mem.store_apply_of_outside _ (by omega)]

end PacketBench.Dpdk

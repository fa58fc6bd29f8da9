import PacketBench.Arithmetic.OnesComplement
import PacketBench.Frame.Headers
import Mathlib.Algebra.Order.BigOperators.Group.Finset

/-! # The UDP checksum of the XDP programs

`caludpcsum` adds the 16-bit words of the pseudo-header and of the datagram in
32 bits and folds the sum once. The value it returns completes the sum to all
ones exactly when that single fold does not carry.
-/

namespace PacketBench.Xdp

open Bytes PktM OnesComplement

variable {σ : Type}

/-- The bytes the checksum loop covers at most (`MAX_UDP_SIZE`). -/
@[simp] def maxUdpSize : ℕ := 1480

def caludpcsumPseudo (iph udph : ℕ) : PktM σ (BitVec 32) := do
  let saddr ← load (ipSaddr iph) 32
  let daddr ← load (ipDaddr iph) 32
  let protocol ← load (ipProtocol iph) 8
  let len ← load (udpLen udph) 16
  let csumBuffer : BitVec 32 := 0
  let csumBuffer := csumBuffer + (saddr.setWidth 16).setWidth 32
  let csumBuffer := csumBuffer + ((saddr >>> 16).setWidth 16).setWidth 32
  let csumBuffer := csumBuffer + (daddr.setWidth 16).setWidth 32
  let csumBuffer := csumBuffer + ((daddr >>> 16).setWidth 16).setWidth 32
  let csumBuffer := csumBuffer + (protocol.setWidth 16).setWidth 32 <<< 8
  return csumBuffer + len.setWidth 32

def caludpcsumLoop : ℕ → ℕ → BitVec 32 → PktM σ (ℕ × BitVec 32)
  | 0, buf, csumBuffer => return (buf, csumBuffer)
  | k + 1, buf, csumBuffer => do
    if buf + 2 > (← pktEnd) then
      return (buf, csumBuffer)
    let word ← load buf 16
    caludpcsumLoop k (buf + 2) (csumBuffer + word.setWidth 32)

/-- The trailing byte of a payload that is not aligned to two bytes. -/
def caludpcsumLast (buf : ℕ) (csumBuffer : BitVec 32) : PktM σ (BitVec 32) := do
  if buf + 1 ≤ (← pktEnd) then
    let last ← load buf 8
    return csumBuffer + last.setWidth 32
  return csumBuffer

/-- `(__u16)csum_buffer + (__u16)(csum_buffer >> 16)` in 16 bits, complemented. -/
def foldCsum (csumBuffer : BitVec 32) : BitVec 16 :=
  ~~~(csumBuffer.setWidth 16 + (csumBuffer >>> 16).setWidth 16)

def caludpcsum (iph udph : ℕ) : PktM σ (BitVec 16) := do
  let csumBuffer ← caludpcsumPseudo iph udph
  let (buf, csumBuffer) ← caludpcsumLoop (maxUdpSize / 2) udph csumBuffer
  return foldCsum (← caludpcsumLast buf csumBuffer)

/-- The sum of the pseudo-header words, with the length as it stands in the UDP header. -/
def pseudoSum (m : Mem) (iph udph : ℕ) : ℕ :=
  (m.load (ipSaddr iph) 16).toNat + (m.load (ipSaddr iph + 2) 16).toNat +
    (m.load (ipDaddr iph) 16).toNat + (m.load (ipDaddr iph + 2) 16).toNat +
    256 * (m (ipProtocol iph)).toNat + (m.load (udpLen udph) 16).toNat

def wordSum (m : Mem) (off : ℕ) : ℕ → ℕ
  | 0 => 0
  | k + 1 => (m.load off 16).toNat + wordSum m (off + 2) k

/-- The words the loop takes up within `k` iterations from `buf` on. -/
def loopWords (k buf len : ℕ) : ℕ := min k ((len - buf) / 2)

def wordsEnd (buf : ℕ) : ℕ → ℕ
  | 0 => 0
  | t + 1 => buf + 2 * (t + 1)

theorem max_wordsEnd (buf t : ℕ) : max (buf + 2) (wordsEnd (buf + 2) t) = wordsEnd buf (t + 1) := by
  cases t <;> simp only [wordsEnd] <;> omega

theorem setWidth_eq_ofNat {n : ℕ} (v : BitVec n) : v.setWidth 32 = BitVec.ofNat 32 v.toNat := by
  rw [BitVec.ofNat_toNat]

theorem exec_caludpcsumPseudo (iph udph : ℕ) (r : Run σ) :
    (caludpcsumPseudo iph udph).exec r =
      (BitVec.ofNat 32 (pseudoSum r.frame.mem iph udph), r.touch (max (iph + 20) (udph + 6))) := by
  have hprotocol : ((r.frame.mem (iph + 9)).setWidth 32 <<< 8 : BitVec 32) =
      BitVec.ofNat 32 (256 * (r.frame.mem (iph + 9)).toNat) := by
    have h := (r.frame.mem (iph + 9)).isLt
    apply BitVec.eq_of_toNat_eq
    rw [BitVec.toNat_shiftLeft, BitVec.toNat_setWidth, BitVec.toNat_ofNat, Nat.shiftLeft_eq]
    omega
  simp [caludpcsumPseudo, pseudoSum, Mem.setWidth_load_low, Mem.setWidth_load_high,
    Mem.load_byte, hprotocol, BitVec.ofNat_add]
  congr 1
  omega

theorem exec_caludpcsumLoop (k buf : ℕ) (c : BitVec 32) (r : Run σ) :
    (caludpcsumLoop k buf c).exec r =
      ((buf + 2 * loopWords k buf r.frame.len,
        c + BitVec.ofNat 32 (wordSum r.frame.mem buf (loopWords k buf r.frame.len))),
        r.touch (wordsEnd buf (loopWords k buf r.frame.len))) := by
  induction k generalizing buf c r with
  | zero => simp [caludpcsumLoop, loopWords, wordSum, wordsEnd]
  | succ k ih =>
    by_cases hend : r.frame.len < buf + 2
    · have ht : loopWords (k + 1) buf r.frame.len = 0 := by
        unfold loopWords
        omega
      simp [caludpcsumLoop, hend, ht, wordSum, wordsEnd]
    · have ht : loopWords (k + 1) buf r.frame.len =
          loopWords k (buf + 2) r.frame.len + 1 := by
        unfold loopWords
        omega
      have hstep : (caludpcsumLoop (k + 1) buf c).exec r =
          (caludpcsumLoop k (buf + 2) (c + (r.frame.mem.load buf 16).setWidth 32)).exec
            (r.touch (buf + 2)) := by
        simp [caludpcsumLoop, hend]
      rw [hstep, ih, ht, wordSum, setWidth_eq_ofNat, BitVec.ofNat_add, ← BitVec.add_assoc]
      simp only [Run.touch_frame, Run.touch_touch, max_wordsEnd, mul_add, mul_one, add_assoc,
        add_comm 2]

def lastByte (f : Frame) (off : ℕ) : ℕ := if off + 1 ≤ f.len then (f.mem off).toNat else 0

def lastEnd (len off : ℕ) : ℕ := if off + 1 ≤ len then off + 1 else 0

theorem exec_caludpcsumLast (buf : ℕ) (c : BitVec 32) (r : Run σ) :
    (caludpcsumLast buf c).exec r =
      (c + BitVec.ofNat 32 (lastByte r.frame buf),
        r.touch (lastEnd r.frame.len buf)) := by
  unfold caludpcsumLast lastByte lastEnd
  rw [exec_bind, exec_pktEnd, exec_ite]
  split_ifs with h
  · simp [Mem.load_byte]
  · simp

def csumSum (f : Frame) (iph udph : ℕ) : ℕ :=
  pseudoSum f.mem iph udph + wordSum f.mem udph (loopWords (maxUdpSize / 2) udph f.len) +
    lastByte f (udph + 2 * loopWords (maxUdpSize / 2) udph f.len)

def csumReach (len iph udph : ℕ) : ℕ :=
  max (max (max (iph + 20) (udph + 6)) (wordsEnd udph (loopWords (maxUdpSize / 2) udph len)))
    (lastEnd len (udph + 2 * loopWords (maxUdpSize / 2) udph len))

theorem csumReach_le {len iph udph : ℕ} (hip : iph + sizeofIphdr ≤ udph)
    (hudp : udph + sizeofUdphdr ≤ len) : csumReach len iph udph ≤ len := by
  simp only [sizeofIphdr, sizeofUdphdr] at hip hudp
  have hwords : wordsEnd udph (loopWords (maxUdpSize / 2) udph len) ≤ len := by
    cases h : loopWords (maxUdpSize / 2) udph len with
    | zero => simp [wordsEnd]
    | succ t =>
      unfold loopWords at h
      simp only [wordsEnd]
      omega
  unfold csumReach lastEnd
  split_ifs <;> omega

@[simp] theorem exec_caludpcsum (iph udph : ℕ) (r : Run σ) :
    (caludpcsum iph udph).exec r =
      (foldCsum (BitVec.ofNat 32 (csumSum r.frame iph udph)),
        r.touch (csumReach r.frame.len iph udph)) := by
  simp only [caludpcsum, exec_bind, exec_caludpcsumPseudo, exec_caludpcsumLoop,
    exec_caludpcsumLast, exec_pure, Run.touch_frame, Run.touch_touch, csumSum, csumReach,
    BitVec.ofNat_add]

/-- The 16-bit words of the pseudo-header for a datagram of `n` bytes: addresses, protocol and
length, in the order of the bytes in the frame. -/
def pseudoHeaderSum (m : Mem) (iph n : ℕ) : ℕ :=
  (m.load (ipSaddr iph) 16).toNat + (m.load (ipSaddr iph + 2) 16).toNat +
    (m.load (ipDaddr iph) 16).toNat + (m.load (ipDaddr iph + 2) 16).toNat +
    256 * (m (ipProtocol iph)).toNat + (ntohs (BitVec.ofNat 16 n)).toNat

/-- The words of a datagram of `n` bytes, padded with a zero byte if `n` is odd. -/
def datagramSum (m : Mem) (udph n : ℕ) : ℕ :=
  wordSum m udph (n / 2) + if n % 2 = 1 then (m (udph + 2 * (n / 2))).toNat else 0

def checksummedSum (m : Mem) (iph udph n : ℕ) : ℕ :=
  pseudoHeaderSum m iph n + datagramSum m udph n

theorem wordSum_le (m : Mem) (off k : ℕ) : wordSum m off k ≤ 65535 * k := by
  induction k generalizing off with
  | zero => simp [wordSum]
  | succ k ih =>
    have hword := (m.load off 16).isLt
    have htail := ih (off + 2)
    rw [wordSum]
    omega

theorem pseudoHeaderSum_le (m : Mem) (iph n : ℕ) : pseudoHeaderSum m iph n ≤ 6 * 65535 := by
  have h₁ := (m.load (ipSaddr iph) 16).isLt
  have h₂ := (m.load (ipSaddr iph + 2) 16).isLt
  have h₃ := (m.load (ipDaddr iph) 16).isLt
  have h₄ := (m.load (ipDaddr iph + 2) 16).isLt
  have h₅ := (m (ipProtocol iph)).isLt
  have h₆ := (ntohs (BitVec.ofNat 16 n)).isLt
  unfold pseudoHeaderSum
  omega

theorem datagramSum_le (m : Mem) (udph n : ℕ) : datagramSum m udph n ≤ 65535 * (n / 2) + 255 := by
  have hwords := wordSum_le m udph (n / 2)
  have hlast := (m (udph + 2 * (n / 2))).isLt
  unfold datagramSum
  split_ifs <;> omega

theorem checksummedSum_lt (m : Mem) (iph udph : ℕ) {n : ℕ} (hn : n ≤ maxUdpSize) :
    checksummedSum m iph udph n < 65536 * 65536 := by
  have hp := pseudoHeaderSum_le m iph n
  have hd := datagramSum_le m udph n
  unfold checksummedSum
  simp only [maxUdpSize] at hn
  omega

/-- On a frame that a datagram of `n` bytes ends, the program adds up the words of RFC 768. -/
theorem csumSum_eq {f : Frame} {iph udph n : ℕ} (hn : n ≤ maxUdpSize)
    (hlen : (ntohs (f.mem.load (udpLen udph) 16)).toNat = n) (hend : udph + n = f.len) :
    csumSum f iph udph = checksummedSum f.mem iph udph n := by
  have hword : f.mem.load (udpLen udph) 16 = ntohs (BitVec.ofNat 16 n) := by
    rw [← hlen, BitVec.ofNat_toNat, BitVec.setWidth_eq, ntohs_ntohs]
  have ht : loopWords (maxUdpSize / 2) udph f.len = n / 2 := by
    simp only [maxUdpSize] at hn ⊢
    unfold loopWords
    omega
  have hodd : udph + 2 * (n / 2) + 1 ≤ f.len ↔ n % 2 = 1 := by omega
  have hlast : lastByte f (udph + 2 * (n / 2)) =
      if n % 2 = 1 then (f.mem (udph + 2 * (n / 2))).toNat else 0 := by
    simp only [lastByte, hodd]
  unfold csumSum checksummedSum pseudoSum pseudoHeaderSum datagramSum
  rw [ht, hword, hlast, add_assoc]

theorem toNat_foldCsum (s : ℕ) :
    (foldCsum (BitVec.ofNat 32 s)).toNat = 65536 - 1 - carry 65536 s % 65536 := by
  unfold foldCsum
  rw [BitVec.toNat_not, BitVec.toNat_add, BitVec.toNat_setWidth, BitVec.toNat_setWidth,
    BitVec.toNat_ushiftRight, BitVec.toNat_ofNat, Nat.shiftRight_eq_div_pow, carry]
  omega

theorem wordSum_store_before {m : Mem} {off a k : ℕ} (c : BitVec 16) (h : a + 2 ≤ off) :
    wordSum (m.store a 16 c) off k = wordSum m off k := by
  induction k generalizing off with
  | zero => rfl
  | succ k ih =>
    rw [wordSum, wordSum, ih (by omega), Mem.load_store_of_disjoint c (by omega)]

theorem wordSum_store_check {m : Mem} {udph k : ℕ} (c : BitVec 16) (hk : 4 ≤ k)
    (hzero : m.load (udpCheck udph) 16 = 0) :
    wordSum (m.store (udpCheck udph) 16 c) udph k = wordSum m udph k + c.toNat := by
  obtain ⟨j, rfl⟩ := Nat.exists_eq_add_of_le' hk
  simp only [udpCheck] at hzero ⊢
  simp only [wordSum, add_assoc, Nat.reduceAdd]
  rw [wordSum_store_before c (by omega), Mem.load_store_self rfl, hzero,
    Mem.load_store_of_disjoint c (by omega), Mem.load_store_of_disjoint c (by omega),
    Mem.load_store_of_disjoint c (by omega)]
  simp only [BitVec.toNat_zero, BitVec.ofNat_eq_ofNat]
  omega

theorem checksummedSum_store_check {m : Mem} {iph udph n : ℕ} (c : BitVec 16) (hn : 8 ≤ n)
    (hip : iph + sizeofIphdr ≤ udph) (hzero : m.load (udpCheck udph) 16 = 0) :
    checksummedSum (m.store (udpCheck udph) 16 c) iph udph n =
      checksummedSum m iph udph n + c.toNat := by
  have hpseudo :
      pseudoHeaderSum (m.store (udpCheck udph) 16 c) iph n = pseudoHeaderSum m iph n := by
    simp only [sizeofIphdr] at hip
    simp only [pseudoHeaderSum, udpCheck, ipSaddr, ipDaddr, ipProtocol]
    rw [Mem.load_store_of_disjoint c (by omega), Mem.load_store_of_disjoint c (by omega),
      Mem.load_store_of_disjoint c (by omega), Mem.load_store_of_disjoint c (by omega),
      Mem.store_apply_of_outside c (by omega)]
  have hlast : m.store (udpCheck udph) 16 c (udph + 2 * (n / 2)) = m (udph + 2 * (n / 2)) :=
    Mem.store_apply_of_outside c (by simp only [udpCheck]; omega)
  rw [checksummedSum, checksummedSum, datagramSum, datagramSum, hpseudo, hlast,
    wordSum_store_check c (by omega) hzero]
  omega

/-- The checksum of RFC 768 verifies: the 16-bit one's-complement sum is all ones. -/
def ChecksumVerifies (m : Mem) (iph udph n : ℕ) : Prop :=
  fold 65536 (checksummedSum m iph udph n) = 0xFFFF

/-- Writing the value of `caludpcsum` into the empty checksum field completes the checksum exactly
when adding the high half of the plain sum to its low half gives no carry. -/
theorem caludpcsum_verifies_iff {r : Run σ} {iph udph n : ℕ}
    (hmin : sizeofUdphdr ≤ n) (hmax : n ≤ maxUdpSize)
    (hlen : (ntohs (r.frame.mem.load (udpLen udph) 16)).toNat = n)
    (hend : udph + n = r.frame.len) (hip : iph + sizeofIphdr ≤ udph)
    (hzero : r.frame.mem.load (udpCheck udph) 16 = 0) :
    ChecksumVerifies
        (r.frame.mem.store (udpCheck udph) 16 ((caludpcsum iph udph).exec r).1) iph udph n ↔
      checksummedSum r.frame.mem iph udph n % 65536 +
        checksummedSum r.frame.mem iph udph n / 65536 < 65536 := by
  have hlt := checksummedSum_lt r.frame.mem iph udph hmax
  have hcarry : carry 65536 (checksummedSum r.frame.mem iph udph n) < 2 * 65536 - 1 := by
    unfold carry
    omega
  unfold ChecksumVerifies
  rw [checksummedSum_store_check _ hmin hip hzero, exec_caludpcsum,
    toNat_foldCsum, csumSum_eq hmax hlen hend]
  exact fold_add_compl_iff (by omega) hcarry

/-- A datagram of ten bytes from 10.0.1.0 to 10.0.3.0 whose words add up to `0x1FFFF`. -/
def carryFrame : Frame := .ofBytes
  [0x02, 0x00, 0x00, 0x00, 0x00, 0x01, 0x02, 0x00, 0x00, 0x00, 0x00, 0x02, 0x08, 0x00,
    0x45, 0x00, 0x00, 0x1E, 0x00, 0x00, 0x00, 0x00, 0x40, 0x11, 0x00, 0x00,
    0x0A, 0x00, 0x01, 0x00, 0x0A, 0x00, 0x03, 0x00,
    0xC9, 0x9A, 0x1F, 0x40, 0x00, 0x0A, 0x00, 0x00, 0xFF, 0xFF]

theorem caludpcsum_verifies_iff_carryFrame :
    ChecksumVerifies (carryFrame.mem.store (udpCheck 34) 16
        ((caludpcsum 14 34).exec (Run.start carryFrame ())).1) 14 34 10 ↔
      checksummedSum carryFrame.mem 14 34 10 % 65536 +
        checksummedSum carryFrame.mem 14 34 10 / 65536 < 65536 :=
  caludpcsum_verifies_iff (r := Run.start carryFrame ()) (by decide) (by decide) (by decide)
    (by decide) (by decide) (by decide)

/-- On that frame the fold loses its carry, and the checksum does not verify. -/
theorem caludpcsum_carryFrame :
    (ntohs (carryFrame.mem.load (udpLen 34) 16)).toNat = 10 ∧ 34 + 10 = carryFrame.len ∧
      carryFrame.mem.load (udpCheck 34) 16 = 0 ∧
      ((caludpcsum 14 34).exec (Run.start carryFrame ())).1 = 0xFFFF ∧
      ¬ ChecksumVerifies (carryFrame.mem.store (udpCheck 34) 16
        ((caludpcsum 14 34).exec (Run.start carryFrame ())).1) 14 34 10 := by
  have hvalue : ((caludpcsum 14 34).exec (Run.start carryFrame ())).1 = 0xFFFF := by decide
  refine ⟨by decide, by decide, by decide, hvalue, ?_⟩
  rw [hvalue, ChecksumVerifies, fold_eq_max_iff (by omega)]
  decide

end PacketBench.Xdp

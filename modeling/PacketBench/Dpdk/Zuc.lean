import PacketBench.Dpdk.Classify
import PacketBench.Zuc.Cipher

/-! # The DPDK cipher

The first 16 bytes of a payload are the key and all bytes behind its first word
the message. The cipher keeps its registers from frame to frame. The payload
receives the ciphertext buffer from its second word on.
-/

namespace PacketBench.Dpdk

open Bytes PktM

/-- The registers of the cipher, and what the `k`-th call finds in the variable that `zuc.h` does
not initialise and in the buffer it gets for the ciphertext. -/
structure ZucStore where
  registers : Zuc.Registers
  calls : ℕ
  locals : ℕ → Vector (BitVec 32) 32
  heap : ℕ → Mem

/-- `EEA3` on the payload behind its first word, with the key in the first 16 bytes. -/
def encrypt (payload : ℕ) (size : BitVec 16) : PktM ZucStore Unit := do
  let s ← getStore
  let length := size.setWidth 32 - 4
  let key ← copyFrom payload 16
  let m ← copyFrom (payload + 4) length.toNat
  let (words, registers) := Zuc.eea3 (s.locals s.calls) (fun i => key i) length
    (fun i => m.load (4 * i) 32) s.registers
  let c := (s.heap s.calls).storeWords words
  putStore { s with registers, calls := s.calls + 1 }
  copyTo (payload + 4) length.toNat fun a => c (4 + a)

def zuc (rteIpv4UdptcpCksum : Cksum) : PktM ZucStore Bool :=
  classify false wrongSize fun eth ip udp size => do
    encrypt (udp + sizeofUdphdr) size
    swapInfos eth ip udp
    refreshCksum rteIpv4UdptcpCksum ip udp
    return true

def cipherCall (s : ZucStore) (m : Mem) (length : BitVec 32) : List (BitVec 32) × Zuc.Registers :=
  Zuc.eea3 (s.locals s.calls) (fun i => m (42 + i)) length
    (fun i => Mem.load (fun a => m (46 + a)) (4 * i) 32) s.registers

/-- The memory of a frame after encryption: the ciphertext buffer from its second word on. -/
def encrypted (s : ZucStore) (m : Mem) (length : BitVec 32) : Mem :=
  m.copy 46 length.toNat fun a =>
    (s.heap s.calls).storeWords (cipherCall s m length).1 (4 + a)

theorem encrypted_apply_of_lt (s : ZucStore) (m : Mem) (length : BitVec 32) {a : ℕ} (ha : a < 46) :
    encrypted s m length a = m a := Mem.copy_apply_of_outside _ (Or.inl ha)

theorem exec_encrypt (size : BitVec 16) (r : Run ZucStore) : (encrypt 42 size).exec r =
    ((), ((r.setMem (encrypted r.store r.frame.mem (size.setWidth 32 - 4))).setStore
      { r.store with
        registers := (cipherCall r.store r.frame.mem (size.setWidth 32 - 4)).2
        calls := r.store.calls + 1 }).touch (max 58 (46 + (size.setWidth 32 - 4).toNat))) := by
  simp only [encrypt, exec_bind, exec_getStore, exec_copyFrom, exec_putStore, exec_copyTo]
  generalize size.setWidth 32 - 4 = length
  simp [encrypted, cipherCall]

def cipherB : ℕ := totSizeB - 4

def cipherLength : BitVec 32 := BitVec.ofNat 32 cipherB

section Programs

variable {rteIpv4UdptcpCksum : Cksum} {r : Run ZucStore}

theorem exec_zuc_of_accepted (h : Accepted r.frame) : (zuc rteIpv4UdptcpCksum).exec r =
    (true, ((r.setMem (sendBack rteIpv4UdptcpCksum r.frame.len
      (encrypted r.store r.frame.mem cipherLength))).setStore
        { r.store with
          registers := (cipherCall r.store r.frame.mem cipherLength).2
          calls := r.store.calls + 1 }).touch
      (max (classifyReach r.frame) (max (42 + totSizeB) (max 42 (rteIpv4UdptcpCksum.reach
        ⟨r.frame.len, (swapHeaders (encrypted r.store r.frame.mem cipherLength)).store 40 16 0⟩
        14 34))))) := by
  have hlength : 1020#32 = cipherLength := by decide
  unfold zuc
  rw [exec_classify rfl, if_pos h]
  simp [exec_encrypt, hlength, sendBack]

theorem exec_zuc_of_not (h : ¬ Accepted r.frame) :
    (zuc rteIpv4UdptcpCksum).exec r = (false, r.touch (classifyReach r.frame)) := by
  unfold zuc
  rw [exec_classify rfl, if_neg h]

end Programs

end PacketBench.Dpdk

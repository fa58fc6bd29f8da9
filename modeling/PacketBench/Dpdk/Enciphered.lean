import PacketBench.Dpdk.Zuc
import PacketBench.Zuc.Keystream

/-! # The payload that the cipher sends back

`zuc` passes the length of the message in bytes where `EEA3` takes bits, so 32 of
its 255 words are enciphered. It copies the ciphertext buffer from the second word
on, and with as many bytes as the message has the copy ends a word behind it.
-/

namespace PacketBench.Dpdk

open Bytes PktM

variable {rteIpv4UdptcpCksum : Cksum} {s : ZucStore} {f : Frame}

variable (rteIpv4UdptcpCksum s f) in
def cipherReply : Run ZucStore := ((zuc rteIpv4UdptcpCksum).exec (Run.start f s)).2

/-- The store whose next call finds `c` in its ciphertext buffer. -/
def ZucStore.withBuffer (s : ZucStore) (c : Mem) : ZucStore :=
  { s with heap := Function.update s.heap s.calls c }

theorem ZucStore.withBuffer_buffer (s : ZucStore) (c : Mem) :
    (s.withBuffer c).heap (s.withBuffer c).calls = c := Function.update_self _ _ _

/-- A program that enciphers a payload in place with the keystream `z`: the reply depends on no
byte behind the ciphertext buffer and, as a request, gets the payload back. -/
structure EnciphersInPlace (rteIpv4UdptcpCksum : Cksum) (s : ZucStore) (f : Frame)
    (z : ℕ → BitVec 32) : Prop where
  header : ∀ j < 4, (cipherReply rteIpv4UdptcpCksum s f).frame.word j = f.word j
  message : ∀ j < dataNr, 4 ≤ j →
    (cipherReply rteIpv4UdptcpCksum s f).frame.word j = f.word j ^^^ z (j - 4)
  bounded : ∀ c : Mem, (∀ a < cipherB, c a = s.heap s.calls a) → ∀ j < dataNr,
    (cipherReply rteIpv4UdptcpCksum (s.withBuffer c) f).frame.word j =
      (cipherReply rteIpv4UdptcpCksum s f).frame.word j
  restored : ∀ j < dataNr,
    (cipherReply rteIpv4UdptcpCksum (cipherReply rteIpv4UdptcpCksum s f).store
      (cipherReply rteIpv4UdptcpCksum s f).frame).frame.word j = f.word j

variable (s f) in
def keystream : List (BitVec 32) :=
  (Zuc.zuc (s.locals s.calls) (fun i => f.mem (42 + i)) Zuc.eea3Iv 32 s.registers).1

theorem length_keystream : (keystream s f).length = 32 := Zuc.length_zuc _ _ _ _ _

theorem cipherCall_fst : (cipherCall s f.mem cipherLength).1 =
    (keystream s f).mapIdx fun j z => f.word (j + 1) ^^^ z := by
  have hword : ∀ j, Mem.load (fun a => f.mem (46 + a)) (4 * j) 32 = f.word (j + 1) := by
    intro j
    refine Mem.load_congr fun i _ => ?_
    rw [show 46 + (4 * j + i) = 42 + 4 * (j + 1) + i by ring]
  have hwords : Zuc.eea3Words cipherLength = 32 := by decide
  rw [cipherCall, Zuc.eea3_fst, hwords]
  simp only [hword, keystream]

theorem word_cipherReply_eq (h : Accepted f) (j : ℕ) :
    (cipherReply rteIpv4UdptcpCksum s f).frame.word j =
      (Frame.mk f.len (encrypted s f.mem cipherLength)).word j := by
  rw [cipherReply, exec_zuc_of_accepted (r := Run.start f s) h]
  exact word_sendBack _ _ _ _ j

theorem word_zero_cipherReply (h : Accepted f) :
    (cipherReply rteIpv4UdptcpCksum s f).frame.word 0 = f.word 0 := by
  rw [word_cipherReply_eq h]
  refine Mem.load_congr fun i hi => encrypted_apply_of_lt _ _ _ ?_
  omega

theorem word_cipherReply (h : Accepted f) {j : ℕ} (hj : 1 ≤ j) (hj' : j < dataNr) :
    (cipherReply rteIpv4UdptcpCksum s f).frame.word j =
      (((keystream s f)[j]?.map fun z => f.word (j + 1) ^^^ z).getD
        ((s.heap s.calls).load (4 * j) 32)) := by
  obtain ⟨d, rfl⟩ := Nat.exists_eq_add_of_le' hj
  have hwithin : 4 * d + 32 / 8 ≤ cipherLength.toNat := by
    have hlength : cipherLength.toNat = 1020 := by decide
    simp only [dataNr, totSizeB, dataSizeB] at hj'
    omega
  have hshift : ∀ c : Mem, Mem.load (fun a => c (4 + a)) (4 * d) 32 = c.load (4 * (d + 1)) 32 := by
    intro c
    refine Mem.load_congr fun i _ => ?_
    rw [show 4 + (4 * d + i) = 4 * (d + 1) + i by ring]
  rw [word_cipherReply_eq h, Frame.word, encrypted, show 42 + 4 * (d + 1) = 46 + 4 * d by ring,
    Mem.load_copy_within _ hwithin, hshift, Mem.load_storeWords, cipherCall_fst,
    List.getElem?_mapIdx]

theorem word_last_cipherReply (h : Accepted f) :
    (cipherReply rteIpv4UdptcpCksum s f).frame.word 255 = (s.heap s.calls).load cipherB 32 := by
  have hnone : (keystream s f)[255]? = none := by
    rw [List.getElem?_eq_none_iff, length_keystream]
    decide
  rw [word_cipherReply h (by decide) (by decide), hnone]
  rfl

/-- Another value of the first byte behind the buffer makes another reply. -/
theorem exists_word_last_ne (rteIpv4UdptcpCksum : Cksum) (s : ZucStore) (h : Accepted f) :
    ∃ c : Mem, (∀ a < cipherB, c a = s.heap s.calls a) ∧
      (cipherReply rteIpv4UdptcpCksum (s.withBuffer c) f).frame.word 255 ≠
        (cipherReply rteIpv4UdptcpCksum s f).frame.word 255 := by
  refine ⟨Function.update (s.heap s.calls) cipherB (~~~ s.heap s.calls cipherB),
    fun a ha => Function.update_of_ne ha.ne _ _, ?_⟩
  rw [word_last_cipherReply h, word_last_cipherReply h, ZucStore.withBuffer_buffer]
  intro heq
  have hbyte := congrArg (BitVec.extractLsb' (8 * 0) 8) heq
  rw [Mem.extractLsb'_load rfl (by decide), Mem.extractLsb'_load rfl (by decide), Nat.add_zero,
    Function.update_self] at hbyte
  exact BitVec.not_self_ne (by decide) hbyte

/-- No accepted frame is enciphered in place, with any keystream: every reply ends with the word
behind the buffer. -/
theorem not_enciphersInPlace (rteIpv4UdptcpCksum : Cksum) (s : ZucStore) (f : Frame)
    (h : Accepted f) (z : ℕ → BitVec 32) : ¬ EnciphersInPlace rteIpv4UdptcpCksum s f z := by
  obtain ⟨c, hsame, hne⟩ := exists_word_last_ne rteIpv4UdptcpCksum s h
  intro he
  exact hne (he.bounded c hsame 255 (by decide))

def clearStore : ZucStore := ⟨Zuc.clearRegisters, 0, fun _ => .replicate 32 0, fun _ _ => 0⟩

theorem not_enciphersInPlace_requestFrame :
    Accepted (requestFrame 1 2 3) ∧
      ¬ EnciphersInPlace rteCksum clearStore (requestFrame 1 2 3) fun _ => 0 :=
  ⟨accepted_requestFrame 1 2 3,
    not_enciphersInPlace rteCksum clearStore _ (accepted_requestFrame 1 2 3) fun _ => 0⟩

theorem not_enciphersInPlace_keystream :
    ¬ EnciphersInPlace rteCksum clearStore (requestFrame 1 2 3) fun i =>
      (keystream clearStore (requestFrame 1 2 3)).getD i 0 := by
  obtain ⟨c, hsame, hne⟩ := exists_word_last_ne rteCksum clearStore (accepted_requestFrame 1 2 3)
  exact fun he => hne (he.bounded c hsame 255 (by decide))

end PacketBench.Dpdk

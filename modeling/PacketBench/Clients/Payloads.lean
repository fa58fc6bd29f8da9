import PacketBench.Frame.Requests
import PacketBench.Frame.Shared

/-! # The file that the clients send

`gener_pay.py` writes a file of one MiB. The clients read it in payloads of
equal size, whose size divides that of the file, and send each of them as one
datagram. So the words of the frames are the words of the file, in order.
-/

namespace PacketBench.Clients

open Bytes

/-- What the `i`-th `read` of `size` bytes returns. -/
def payload (size : ℕ) (file : List (BitVec 8)) (i : ℕ) : List (BitVec 8) :=
  (file.drop (i * size)).take size

/-- The destination port of the `i`-th message of the DPDK sender, which addresses four cores. -/
def dpdkPort (i : ℕ) : ℕ := [7999, 8000, 8001, 8002].getD (i % 4) 0

def xdpPort (_ : ℕ) : ℕ := 7999

/-- The frames of the messages, given the frame that the network stack makes of a payload. -/
def sentFrames (sendto : ℕ → List (BitVec 8) → Frame) (port : ℕ → ℕ) (size : ℕ)
    (file : List (BitVec 8)) : List Frame :=
  (List.range (miB / size)).map fun i => sendto (port i) (payload size file i)

def fileWords (file : List (BitVec 8)) : List (BitVec 32) :=
  (List.range (file.length / dataSizeB)).map fun j =>
    (Frame.ofBytes file).mem.load (dataSizeB * j) 32

def generPay (word : ℕ → List (BitVec 8)) : List (BitVec 8) :=
  (List.range (miB / dataSizeB)).flatMap word

def dpdkWord (i : ℕ) : List (BitVec 8) := if i % 2 = 0 then [1, 0, 0, 0] else [0, 0, 0, 0]

def xdpWord (_ : ℕ) : List (BitVec 8) := [1, 0, 0, 0]

theorem mem_ofBytes (bytes : List (BitVec 8)) (a : ℕ) :
    (Frame.ofBytes bytes).mem a = bytes.getD a 0 := rfl

theorem length_payload {size : ℕ} {file : List (BitVec 8)} (hfile : file.length = miB) {i : ℕ}
    (hi : i < miB / size) : (payload size file i).length = size := by
  have hroom : (i + 1) * size ≤ miB :=
    (Nat.mul_le_mul_right size hi).trans (Nat.div_mul_le_self miB size)
  rw [Nat.succ_mul] at hroom
  unfold payload
  rw [List.length_take, List.length_drop, hfile]
  omega

theorem flatMap_range_mul {α : Type} (g : ℕ → α) (n m : ℕ) :
    ((List.range n).flatMap fun i => (List.range m).map fun k => g (i * m + k)) =
      (List.range (n * m)).map g := by
  induction n with
  | zero => simp
  | succ n ih =>
    rw [List.range_succ, List.flatMap_append, ih, Nat.succ_mul, List.range_add, List.map_append]
    simp

/-- The network stack keeps the bytes of a payload and puts them behind headers without options. -/
def KeepsBytes (sendto : ℕ → List (BitVec 8) → Frame) : Prop :=
  ∀ port p, p.length = totSizeB → ∀ i < totSizeB, (sendto port p).mem (42 + i) = p.getD i 0

theorem word_sendto {sendto : ℕ → List (BitVec 8) → Frame} (h : KeepsBytes sendto) (port : ℕ)
    {file : List (BitVec 8)} (hfile : file.length = miB) {i k : ℕ} (hi : i < miB / totSizeB)
    (hk : k < dataNr) : (sendto port (payload totSizeB file i)).word k =
      (Frame.ofBytes file).mem.load (dataSizeB * (i * dataNr + k)) 32 := by
  have hlen := length_payload hfile hi
  unfold Frame.word
  apply Mem.load_congr
  intro j hj
  have hpos : 4 * k + j < totSizeB := by
    simp only [dataNr, totSizeB, dataSizeB] at hk ⊢
    omega
  rw [Nat.add_assoc, h port _ hlen _ hpos, mem_ofBytes, payload, List.getD_eq_getElem?_getD,
    List.getD_eq_getElem?_getD, List.getElem?_take, if_pos hpos, List.getElem?_drop]
  congr 2
  simp only [dataNr, totSizeB, dataSizeB]
  omega

theorem getD_fileWords (file : List (BitVec 8)) {j : ℕ} (hj : j < file.length / dataSizeB) :
    (fileWords file).getD j 0 = (Frame.ofBytes file).mem.load (dataSizeB * j) 32 := by
  unfold fileWords
  rw [List.getD_eq_getElem?_getD, List.getElem?_map, List.getElem?_range hj]
  rfl

theorem word_sendto_eq_getD {sendto : ℕ → List (BitVec 8) → Frame} (h : KeepsBytes sendto)
    (port : ℕ) {file : List (BitVec 8)} (hfile : file.length = miB) {i k : ℕ}
    (hi : i < miB / totSizeB) (hk : k < dataNr) :
    (sendto port (payload totSizeB file i)).word k =
      (fileWords file).getD (i * dataNr + k) 0 := by
  rw [word_sendto h port hfile hi hk, getD_fileWords]
  rw [hfile]
  simp only [miB, dataNr, totSizeB, dataSizeB] at hi hk ⊢
  omega

theorem allWords_sentFrames {sendto : ℕ → List (BitVec 8) → Frame} (h : KeepsBytes sendto)
    (port : ℕ → ℕ) {file : List (BitVec 8)} (hfile : file.length = miB) :
    allWords (sentFrames sendto port totSizeB file) = fileWords file := by
  have hrows : allWords (sentFrames sendto port totSizeB file) =
      (List.range (miB / totSizeB)).flatMap fun i => (List.range dataNr).map fun k =>
        (Frame.ofBytes file).mem.load (dataSizeB * (i * dataNr + k)) 32 := by
    unfold allWords sentFrames
    rw [List.flatMap_map]
    refine List.flatMap_congr fun i hi => List.map_congr_left fun k hk => ?_
    exact word_sendto h _ hfile (List.mem_range.mp hi) (List.mem_range.mp hk)
  unfold fileWords
  rw [hrows, hfile]
  exact flatMap_range_mul (fun j => (Frame.ofBytes file).mem.load (dataSizeB * j) 32) _ _

section GenerPay

variable {word : ℕ → List (BitVec 8)} (hword : ∀ i, (word i).length = dataSizeB)

include hword

theorem length_flatMap_range (n : ℕ) : ((List.range n).flatMap word).length = dataSizeB * n := by
  induction n with
  | zero => rfl
  | succ n ih =>
    rw [List.range_succ, List.flatMap_append, List.length_append, ih, List.flatMap_singleton, hword]
    rfl

theorem length_generPay : (generPay word).length = miB := length_flatMap_range hword _

theorem getElem?_flatMap_range {n i k : ℕ} (hi : i < n) (hk : k < dataSizeB) :
    ((List.range n).flatMap word)[dataSizeB * i + k]? = (word i)[k]? := by
  induction n with
  | zero => omega
  | succ n ih =>
    have hlen := length_flatMap_range hword n
    rw [List.range_succ, List.flatMap_append, List.flatMap_singleton]
    rcases Nat.lt_succ_iff_lt_or_eq.mp hi with hlt | rfl
    · rw [List.getElem?_append_left, ih hlt]
      rw [hlen]
      simp only [dataSizeB] at hk ⊢
      omega
    · rw [List.getElem?_append_right (by omega), hlen, Nat.add_sub_cancel_left]

theorem fileWords_generPay : fileWords (generPay word) =
    (List.range (miB / dataSizeB)).map fun i => (Frame.ofBytes (word i)).mem.load 0 32 := by
  unfold fileWords
  rw [length_generPay hword]
  apply List.map_congr_left
  intro i hi
  apply Mem.load_congr
  intro k hk
  rw [mem_ofBytes, mem_ofBytes, Nat.zero_add, List.getD_eq_getElem?_getD,
    List.getD_eq_getElem?_getD, generPay, getElem?_flatMap_range hword (List.mem_range.mp hi) hk]

end GenerPay

theorem length_xdpWord (i : ℕ) : (xdpWord i).length = dataSizeB := rfl

theorem length_dpdkWord (i : ℕ) : (dpdkWord i).length = dataSizeB := by
  unfold dpdkWord
  split_ifs <;> rfl

/-- The file of the XDP programs consists of ones. -/
theorem sum_generPay_xdpWord : ((fileWords (generPay xdpWord)).map BitVec.toNat).sum = 262144 := by
  rw [fileWords_generPay length_xdpWord, List.map_map]
  have hone : BitVec.toNat ∘ (fun i => (Frame.ofBytes (xdpWord i)).mem.load 0 32) =
      fun _ => 1 := rfl
  rw [hone, List.map_const', List.length_range, List.sum_replicate]
  exact Nat.mul_one _

theorem sum_range_even (n : ℕ) :
    ((List.range (2 * n)).map fun i => if i % 2 = 0 then 1 else 0).sum = n := by
  induction n with
  | zero => rfl
  | succ n ih =>
    have hlast : 2 * (n + 1) = 2 * n + 1 + 1 := rfl
    rw [hlast, List.range_succ, List.range_succ, List.map_append, List.map_append, List.sum_append,
      List.sum_append, ih, List.map_singleton, List.map_singleton, List.sum_singleton,
      List.sum_singleton, if_pos (by omega), if_neg (by omega)]

theorem sum_generPay_dpdkWord :
    ((fileWords (generPay dpdkWord)).map BitVec.toNat).sum = 131072 := by
  rw [fileWords_generPay length_dpdkWord, List.map_map]
  have hword : BitVec.toNat ∘ (fun i => (Frame.ofBytes (dpdkWord i)).mem.load 0 32) =
      fun i => if i % 2 = 0 then 1 else 0 := by
    ext i
    dsimp only [Function.comp_apply]
    unfold dpdkWord
    split_ifs <;> rfl
  rw [hword]
  exact sum_range_even 131072

/-- The frame of a payload: headers of `TOT_SIZE_B` bytes of payload, with the destination port. -/
def udpFrame (port : ℕ) (p : List (BitVec 8)) : Frame :=
  ⟨42 + totSizeB, fun a => if a < 42 then
    (requestHeaders.store 36 16 (ntohs (BitVec.ofNat 16 port))) a else p.getD (a - 42) 0⟩

theorem keepsBytes_udpFrame : KeepsBytes udpFrame := by
  intro port p _ i _
  unfold udpFrame
  dsimp only
  rw [if_neg (by omega), Nat.add_sub_cancel_left]

section UdpFrame

variable (port : ℕ) (p : List (BitVec 8))

theorem load_udpFrame {off n : ℕ} (h : off + n / 8 ≤ 36 ∨ 38 ≤ off ∧ off + n / 8 ≤ 42) :
    (udpFrame port p).mem.load off n = requestHeaders.load off n := by
  have hheaders : (udpFrame port p).mem.load off n =
      (requestHeaders.store 36 16 (ntohs (BitVec.ofNat 16 port))).load off n := by
    apply Mem.load_congr
    intro i hi
    unfold udpFrame
    exact if_pos (by omega)
  rw [hheaders, Mem.load_store_of_disjoint _ (by omega)]

theorem etherType_udpFrame : (udpFrame port p).etherType = etherTypeIpv4 := by
  unfold Frame.etherType
  rw [load_udpFrame _ _ (by omega)]
  decide

theorem protocol_udpFrame : (udpFrame port p).protocol = ipprotoUdp := by
  unfold Frame.protocol
  rw [load_udpFrame _ _ (by omega)]
  decide

theorem announces_udpFrame : (udpFrame port p).Announces totSizeB := by
  unfold Frame.Announces Frame.udpLength
  rw [load_udpFrame _ _ (by omega)]
  decide

end UdpFrame

end PacketBench.Clients

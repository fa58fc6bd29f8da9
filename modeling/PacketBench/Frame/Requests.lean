import PacketBench.Frame.Headers
import PacketBench.Maps.Bounded

/-! # Key-value requests

The stores of both architectures read a flag, a key and a value from the first
three payload words: a nonzero flag asks to write the value, a zero flag to
read one. `requestFrame` is a frame with a given request.
-/

namespace PacketBench

open Bytes BoundedMaps

abbrev Request := Op (BitVec 32) (BitVec 32)

def request (f : Frame) : Request :=
  if f.word 0 = 0 then .read (f.word 1) else .write (f.word 1) (f.word 2)

theorem request_of_read {f : Frame} (h : f.word 0 = 0) : request f = .read (f.word 1) := if_pos h

theorem request_of_write {f : Frame} (h : f.word 0 ≠ 0) :
    request f = .write (f.word 1) (f.word 2) := if_neg h

/-- Headers of a datagram from 10.0.1.0 to 10.0.3.0 with `TOT_SIZE_B` bytes of payload. -/
def requestHeaders : Mem := (Frame.ofBytes [
  0x02, 0x00, 0x00, 0x00, 0x00, 0x02, 0x02, 0x00, 0x00, 0x00, 0x00, 0x01, 0x08, 0x00,
  0x45, 0x00, 0x04, 0x1C, 0x00, 0x00, 0x00, 0x00, 0x40, 0x11, 0x5E, 0xD2,
  0x0A, 0x00, 0x01, 0x00, 0x0A, 0x00, 0x03, 0x00,
  0xC9, 0x9A, 0x1F, 0x40, 0x04, 0x08, 0x00, 0x00]).mem

def requestFrame (flag key val : BitVec 32) : Frame :=
  ⟨42 + totSizeB, ((requestHeaders.store 42 32 flag).store 46 32 key).store 50 32 val⟩

section RequestFrame

variable (flag key val : BitVec 32)

@[simp] theorem len_requestFrame : (requestFrame flag key val).len = 1066 := rfl

theorem load_requestFrame {off n : ℕ} (h : off + n / 8 ≤ 42) :
    (requestFrame flag key val).mem.load off n = requestHeaders.load off n := by
  unfold requestFrame
  rw [Mem.load_store_of_disjoint _ (by omega), Mem.load_store_of_disjoint _ (by omega),
    Mem.load_store_of_disjoint _ (by omega)]

@[simp] theorem etherType_requestFrame : (requestFrame flag key val).etherType = etherTypeIpv4 := by
  unfold Frame.etherType
  rw [load_requestFrame _ _ _ (by omega)]
  decide

@[simp] theorem protocol_requestFrame : (requestFrame flag key val).protocol = ipprotoUdp := by
  unfold Frame.protocol
  rw [load_requestFrame _ _ _ (by omega)]
  decide

theorem announces_requestFrame : (requestFrame flag key val).Announces totSizeB := by
  unfold Frame.Announces Frame.udpLength
  rw [load_requestFrame _ _ _ (by omega)]
  decide

@[simp] theorem word_zero_requestFrame : (requestFrame flag key val).word 0 = flag := by
  unfold Frame.word requestFrame
  rw [Mem.load_store_of_disjoint _ (by omega),
    Mem.load_store_of_disjoint _ (by omega), Mem.load_store_self rfl]

@[simp] theorem word_one_requestFrame : (requestFrame flag key val).word 1 = key := by
  unfold Frame.word requestFrame
  rw [Mem.load_store_of_disjoint _ (by omega), Mem.load_store_self rfl]

@[simp] theorem word_two_requestFrame : (requestFrame flag key val).word 2 = val := by
  unfold Frame.word requestFrame
  rw [Mem.load_store_self rfl]

theorem word_requestFrame_of_le {i : ℕ} (h : 3 ≤ i) : (requestFrame flag key val).word i = 0 := by
  have hzero : ∀ a, 42 ≤ a → requestHeaders a = 0 := by
    intro a ha
    unfold requestHeaders
    exact Frame.ofBytes_apply_of_le _ ha
  have hload : requestHeaders.load (42 + 4 * i) 32 = Mem.load (fun _ => 0) 0 32 :=
    Mem.load_congr fun j _ => hzero _ (by omega)
  unfold Frame.word requestFrame
  rw [Mem.load_store_of_disjoint _ (by omega), Mem.load_store_of_disjoint _ (by omega),
    Mem.load_store_of_disjoint _ (by omega), hload]
  rfl

end RequestFrame

def writeFrames (key : ℕ → BitVec 32) (val : BitVec 32) (n : ℕ) : List Frame :=
  (List.range n).map fun i => requestFrame 1 (key i) val

section WriteFrames

variable (key : ℕ → BitVec 32) (val : BitVec 32) (n : ℕ)

theorem map_request_writeFrames :
    (writeFrames key val n).map request = (List.range n).map fun i => .write (key i) val := by
  unfold writeFrames
  rw [List.map_map]
  refine List.map_congr_left fun i _ => ?_
  rw [Function.comp_apply, request_of_write (by simp), word_one_requestFrame, word_two_requestFrame]

theorem writtenKeys_writeFrames :
    writtenKeys ((writeFrames key val n).map request) = ((List.range n).map key).toFinset := by
  have hkey : (Op.written ∘ fun i => Op.write (key i) val) = some ∘ key := rfl
  rw [map_request_writeFrames, writtenKeys, List.filterMap_map, hkey, List.filterMap_eq_map]

theorem card_writtenKeys_writeFrames (h : ∀ i < n, ∀ j < n, key i = key j → i = j) :
    (writtenKeys ((writeFrames key val n).map request)).card = n := by
  have hnodup : ((List.range n).map key).Nodup :=
    List.Nodup.map_on (fun i hi j hj => h i (List.mem_range.mp hi) j (List.mem_range.mp hj))
      List.nodup_range
  rw [writtenKeys_writeFrames, List.toFinset_card_of_nodup hnodup, List.length_map,
    List.length_range]

theorem filter_writeFrames {p : Frame → Bool} (h : ∀ flag key val, p (requestFrame flag key val)) :
    (writeFrames key val n).filter p = writeFrames key val n := by
  refine List.filter_eq_self.mpr fun f hf => ?_
  obtain ⟨i, -, rfl⟩ := List.mem_map.mp hf
  exact h _ _ _

end WriteFrames

end PacketBench

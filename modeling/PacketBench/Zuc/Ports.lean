import PacketBench.Zuc.Keystream

/-! # The three ports of `EEA3`

The ports hold the keystream in a heap block, in one word on the stack and in a
slot of the scratchpad. The first and the last ask `ZUC` for as many words as the
message has; the one on the stack asks for four, its size in bytes, and enciphers
every word with the first of them. `ZUC` is a parameter here, a function that
gives the words of a keystream.
-/

namespace PacketBench.Zuc

open Bytes

abbrev Stream := (Fin 16 → BitVec 8) → (Fin 16 → BitVec 8) → ℕ → BitVec 32

def storeStream (z : ℕ → BitVec 32) (ks : ℕ) : ℕ → Mem → Mem
  | 0, mem => mem
  | len + 1, mem => (storeStream z ks len mem).store (ks + 4 * len) 32 (z len)

theorem load_storeStream (z : ℕ → BitVec 32) (ks : ℕ) (mem : Mem) {len i : ℕ} (hi : i < len) :
    (storeStream z ks len mem).load (ks + 4 * i) 32 = z i := by
  induction len with
  | zero => exact absurd hi i.not_lt_zero
  | succ len ih =>
    rw [storeStream]
    rcases Nat.lt_succ_iff_lt_or_eq.mp hi with hlt | rfl
    · rw [Mem.load_store_of_disjoint _ (by omega), ih hlt]
    · exact Mem.load_store_self rfl _

/-- A port for messages of `l` words: the address of its keystream buffer and what the memory
holds before the call, the bytes of the buffer, the words that it asks `ZUC` for, and the position
of the one for the `i`-th word of the message. -/
structure Port where
  ks : ℕ
  mem : Mem
  size : ℕ → ℕ
  len : ℕ → ℕ
  index : ℕ → ℕ

namespace Port

def dpdk (z : ℕ) (mem : Mem) : Port := ⟨z, mem, fun l => 4 * l, id, id⟩

/-- One word, and `sizeof(z)` of them asked for. -/
def xdp (z : ℕ) (mem : Mem) : Port := ⟨z, mem, fun _ => 4, fun _ => 4, fun _ => 0⟩

/-- The second 1500 of the 3000 bytes that a core has in the scratchpad. -/
def pspin (scratchpad hpuId : ℕ) (mem : Mem) : Port :=
  ⟨scratchpad + 2 * 1500 * hpuId + 1500, mem, fun _ => 1500, id, id⟩

def eea3 (p : Port) (stream : Stream) (ck : Fin 16 → BitVec 8) (length : BitVec 32)
    (m : ℕ → BitVec 32) : List (BitVec 32) :=
  let l := eea3Words length
  let mem := storeStream (stream ck eea3Iv) p.ks (p.len l) p.mem
  (List.range l).map fun i => m i ^^^ mem.load (p.ks + 4 * p.index i) 32

def Writes (p : Port) (l a : ℕ) : Prop := p.ks ≤ a ∧ a < p.ks + 4 * p.len l

/-- `ZUC` writes to the buffer only. -/
def Within (p : Port) (l : ℕ) : Prop := ∀ a, p.Writes l a → p.ks ≤ a ∧ a < p.ks + p.size l

theorem storeStream_apply_of_not_writes (p : Port) (z : ℕ → BitVec 32) {l a : ℕ}
    (h : ¬ p.Writes l a) : storeStream z p.ks (p.len l) p.mem a = p.mem a := by
  unfold Writes at h
  generalize p.len l = len at h
  induction len with
  | zero => rfl
  | succ len ih => rw [storeStream, Mem.store_apply_of_outside _ (by omega), ih (by omega)]

theorem within_iff (p : Port) (l : ℕ) : p.Within l ↔ 4 * p.len l ≤ p.size l := by
  constructor
  · intro h
    by_contra hlt
    have hlast := h (p.ks + p.size l) ⟨by omega, by omega⟩
    omega
  · rintro h a ⟨hle, hlt⟩
    exact ⟨hle, by omega⟩

theorem within_dpdk (z : ℕ) (mem : Mem) (l : ℕ) : (dpdk z mem).Within l :=
  (within_iff _ l).mpr le_rfl

theorem not_within_xdp (z : ℕ) (mem : Mem) (l : ℕ) : ¬ (xdp z mem).Within l := by
  rw [within_iff]
  exact Nat.not_le.mpr (by decide : 4 < 4 * 4)

theorem within_pspin_iff (scratchpad hpuId : ℕ) (mem : Mem) (l : ℕ) :
    (pspin scratchpad hpuId mem).Within l ↔ 4 * l ≤ 1500 := within_iff _ l

section Words

variable (stream : Stream) (ck : Fin 16 → BitVec 8) (length : BitVec 32) (m : ℕ → BitVec 32)

theorem eea3_eq (p : Port) (h : ∀ i < eea3Words length, p.index i < p.len (eea3Words length)) :
    p.eea3 stream ck length m =
      (List.range (eea3Words length)).map fun i => m i ^^^ stream ck eea3Iv (p.index i) := by
  refine List.map_congr_left fun i hi => ?_
  rw [load_storeStream _ _ _ (h i (List.mem_range.mp hi))]

theorem eea3_dpdk (z : ℕ) (mem : Mem) : (dpdk z mem).eea3 stream ck length m =
    (List.range (eea3Words length)).map fun i => m i ^^^ stream ck eea3Iv i :=
  eea3_eq stream ck length m _ fun _ hi => hi

theorem eea3_xdp (z : ℕ) (mem : Mem) : (xdp z mem).eea3 stream ck length m =
    (List.range (eea3Words length)).map fun i => m i ^^^ stream ck eea3Iv 0 :=
  eea3_eq stream ck length m _ fun _ _ => (by decide : 0 < 4)

theorem eea3_pspin (scratchpad hpuId : ℕ) (mem : Mem) :
    (pspin scratchpad hpuId mem).eea3 stream ck length m =
      (List.range (eea3Words length)).map fun i => m i ^^^ stream ck eea3Iv i :=
  eea3_eq stream ck length m _ fun _ hi => hi

theorem eea3_xdp_eq_dpdk_iff (z z' : ℕ) (mem mem' : Mem) :
    (xdp z mem).eea3 stream ck length m = (dpdk z' mem').eea3 stream ck length m ↔
      ∀ i < eea3Words length, stream ck eea3Iv i = stream ck eea3Iv 0 := by
  rw [eea3_xdp, eea3_dpdk, List.map_inj_left]
  simp only [List.mem_range, BitVec.xor_right_inj]
  exact forall₂_congr fun _ _ => eq_comm

end Words

/-- Ports that write the same ciphertext, each with its keystream inside its buffer. -/
structure AllAgree (ports : List Port) (stream : Stream) (ck : Fin 16 → BitVec 8)
    (length : BitVec 32) (m : ℕ → BitVec 32) : Prop where
  words : ∀ p ∈ ports, ∀ q ∈ ports, p.eea3 stream ck length m = q.eea3 stream ck length m
  within : ∀ p ∈ ports, p.Within (eea3Words length)

/-- The ports never agree: the one on the stack writes 16 bytes into 4 for every message. -/
theorem not_allAgree (z z' scratchpad hpuId : ℕ) (mem mem' mem'' : Mem) (stream : Stream)
    (ck : Fin 16 → BitVec 8) (length : BitVec 32) (m : ℕ → BitVec 32) :
    ¬ AllAgree [dpdk z mem, xdp z' mem', pspin scratchpad hpuId mem''] stream ck length m := by
  intro h
  exact not_within_xdp z' mem' _ (h.within _ (by simp))

/-- On two words with different words of the keystream the ciphertexts differ as well. -/
theorem not_allAgree_counting :
    ¬ AllAgree [dpdk 0 fun _ => 0, xdp 0 fun _ => 0, pspin 0 0 fun _ => 0]
      (fun _ _ i => BitVec.ofNat 32 i) (fun _ => 0) 64 fun _ => 0 := by
  intro h
  have hwords := h.words (xdp 0 fun _ => 0) (by simp) (dpdk 0 fun _ => 0) (by simp)
  rw [eea3_xdp_eq_dpdk_iff] at hwords
  exact absurd (hwords 1 (by decide)) (by decide)

end Port

def keystreamWord : ℕ → Registers → BitVec 32
  | 0, g => (keystreamStep g).1
  | i + 1, g => keystreamWord i (keystreamStep g).2

theorem keystreamWords_eq (n : ℕ) (g : Registers) :
    (keystreamWords n g).1 = (List.range n).map fun i => keystreamWord i g := by
  induction n generalizing g with
  | zero => rfl
  | succ n ih =>
    rw [List.range_succ_eq_map, List.map_cons, List.map_map]
    exact congrArg (List.cons _) (ih (keystreamStep g).2)

def zucStream (locals : Vector (BitVec 32) 32) (g : Registers) : Stream := fun k iv i =>
  keystreamWord i (keystreamStep (initialization locals k iv g)).2

theorem eea3_zucStream (locals : Vector (BitVec 32) 32) (g : Registers) (ck : Fin 16 → BitVec 8)
    (length : BitVec 32) (m : ℕ → BitVec 32) (z : ℕ) (mem : Mem) :
    (Port.dpdk z mem).eea3 (zucStream locals g) ck length m = (eea3 locals ck length m g).1 := by
  have hz : (zuc locals ck eea3Iv (eea3Words length) g).1 =
      (List.range (eea3Words length)).map (zucStream locals g ck eea3Iv) := keystreamWords_eq _ _
  rw [Port.eea3_dpdk, eea3_fst, hz]
  refine List.ext_getElem? fun i => ?_
  by_cases hi : i < eea3Words length <;> simp [hi]

end PacketBench.Zuc

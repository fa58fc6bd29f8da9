import PacketBench.Zuc.Ports
import Mathlib.Logic.Pairwise
import Mathlib.Order.Interval.Set.Basic

/-! # The payload handler on PsPIN

The handler gives each core of a cluster 3000 bytes of its scratchpad, one half
for the ciphertext and one for the keystream. It hands `EEA3` the length of the
message in bytes where `EEA3` counts bits, so no message of a packet fills a
half. `EEA3` rounds up to whole words, and the first word of a message of fewer
than four bytes is longer than what is left of the payload.
-/

namespace PacketBench.Pspin

open Bytes Zuc

/-- What a call touches besides its key: words of `M` by their offset in the payload, words of `C`
and `z` by their address in the scratchpad of the cluster. -/
inductive Access where
  | readM (offset : ℕ)
  | writeC (address : ℕ)
  | readZ (address : ℕ)
  | writeZ (address : ℕ)
  deriving DecidableEq, Repr

structure Run where
  payload : Mem
  scratchpad : Mem
  accesses : List Access

/-- `ZUC` stores `len` words of the keystream. -/
def storeZ (z : ℕ → BitVec 32) (ks : ℕ) : ℕ → Run → Run
  | 0, r => r
  | len + 1, r =>
    let r := storeZ z ks len r
    { r with
      scratchpad := r.scratchpad.store (ks + 4 * len) 32 (z len)
      accesses := r.accesses ++ [.writeZ (ks + 4 * len)] }

def encipher (m c ks : ℕ) : ℕ → Run → Run
  | 0, r => r
  | i + 1, r =>
    let r := encipher m c ks i r
    let w := r.payload.load (m + 4 * i) 32 ^^^ r.scratchpad.load (ks + 4 * i) 32
    { r with
      scratchpad := r.scratchpad.store (c + 4 * i) 32 w
      accesses := r.accesses ++ [.readM (m + 4 * i), .readZ (ks + 4 * i), .writeC (c + 4 * i)] }

def eea3 (stream : Stream) (ck : Fin 16 → BitVec 8) (length : BitVec 32) (m c hpuId : ℕ)
    (r : Run) : Run :=
  let l := eea3Words length
  let z := 2 * 1500 * hpuId + 1500
  encipher m c z l (storeZ (stream ck eea3Iv) z l r)

/-- The length that the handler passes on, from the length of the payload. -/
def messageLength (pktPldLen : BitVec 16) : BitVec 32 := pktPldLen.setWidth 32 - 4

/-- The call of `EEA3` in `zuc_ph`. The key is read where the initial vector is meant to be. -/
def zucPhCall (stream : Stream) (hpuId : ℕ) (pktPldLen : BitVec 16) (r : Run) : Run :=
  eea3 stream (fun i => r.payload i.val) (messageLength pktPldLen) 4 (2 * 1500 * hpuId) hpuId r

theorem eea3Words_messageLength (p : BitVec 16) :
    eea3Words (messageLength p) = (p.toNat + 27) / 32 := by
  have hp := p.isLt
  have hsum : (messageLength p + 31).toNat = p.toNat + 27 := by
    unfold messageLength
    rw [BitVec.toNat_add, BitVec.toNat_sub, BitVec.toNat_setWidth]
    have h₄ : (4 : BitVec 32).toNat = 4 := rfl
    have h₃₁ : (31 : BitVec 32).toNat = 31 := rfl
    omega
  rw [eea3Words, BitVec.toNat_udiv, hsum]
  rfl

section Accesses

variable (z : ℕ → BitVec 32) (m c ks : ℕ) (r : Run)

theorem accesses_storeZ (len : ℕ) : (storeZ z ks len r).accesses =
    r.accesses ++ (List.range len).map fun i => .writeZ (ks + 4 * i) := by
  induction len with
  | zero => exact (List.append_nil _).symm
  | succ len ih =>
    rw [storeZ, ih, List.range_succ, List.map_append, List.append_assoc]
    rfl

def wordAccesses (i : ℕ) : List Access :=
  [.readM (m + 4 * i), .readZ (ks + 4 * i), .writeC (c + 4 * i)]

theorem accesses_encipher (l : ℕ) : (encipher m c ks l r).accesses =
    r.accesses ++ (List.range l).flatMap (wordAccesses m c ks) := by
  induction l with
  | zero => exact (List.append_nil _).symm
  | succ l ih =>
    rw [encipher, ih, List.range_succ, List.flatMap_append, List.append_assoc,
      List.flatMap_singleton]
    rfl

end Accesses

/-- What the call touches: for each word of the message one word of each buffer. -/
theorem mem_accesses_zucPhCall {stream : Stream} {hpuId : ℕ} {p : BitVec 16} {r : Run}
    (hr : r.accesses = []) {a : Access} : a ∈ (zucPhCall stream hpuId p r).accesses ↔
      ∃ i < (p.toNat + 27) / 32, a = .writeZ (3000 * hpuId + 1500 + 4 * i) ∨
        a ∈ wordAccesses 4 (3000 * hpuId) (3000 * hpuId + 1500) i := by
  unfold zucPhCall eea3
  rw [accesses_encipher, accesses_storeZ, eea3Words_messageLength, hr, List.nil_append]
  simp only [List.mem_append, List.mem_map, List.mem_flatMap, List.mem_range, Nat.reduceMul]
  constructor
  · rintro (⟨i, hi, rfl⟩ | ⟨i, hi, ha⟩)
    · exact ⟨i, hi, Or.inl rfl⟩
    · exact ⟨i, hi, Or.inr ha⟩
  · rintro ⟨i, hi, rfl | ha⟩
    · exact Or.inl ⟨i, hi, rfl⟩
    · exact Or.inr ⟨i, hi, ha⟩

/-- The halves of what a core has of the scratchpad. -/
inductive Half where
  | ciphertext
  | keystream
  deriving DecidableEq, Repr

def Half.start : Half → ℕ
  | ciphertext => 0
  | keystream => 1500

def window (w : ℕ × Half) : Set ℕ :=
  Set.Ico (3000 * w.1 + w.2.start) (3000 * w.1 + w.2.start + 1500)

/-- The four bytes of an access lie in the buffer that it is meant for. -/
def Access.Inside (p hpuId : ℕ) : Access → Prop
  | readM a => Set.Ico a (a + 4) ⊆ Set.Iio p
  | writeC a => Set.Ico a (a + 4) ⊆ window (hpuId, .ciphertext)
  | readZ a | writeZ a => Set.Ico a (a + 4) ⊆ window (hpuId, .keystream)

def WindowsDisjoint : Prop := Pairwise fun w w' => ∀ a ∈ window w, a ∉ window w'

theorem windowsDisjoint : WindowsDisjoint := by
  rintro ⟨h, half⟩ ⟨h', half'⟩ hne a ⟨hmin, hmax⟩ ⟨hmin', hmax'⟩
  have heq : h = h' ∧ half = half' := by
    cases half <;> cases half' <;> simp only [Half.start, reduceCtorEq, and_true] at * <;> omega
  exact hne (Prod.ext heq.1 heq.2)

theorem readM_inside_iff {p hpuId a : ℕ} : (Access.readM a).Inside p hpuId ↔ a + 4 ≤ p := by
  unfold Access.Inside
  constructor
  · intro h
    have hlast : a + 3 < p := h ⟨by omega, by omega⟩
    omega
  · rintro h b ⟨-, hb⟩
    exact hb.trans_le h

theorem Ico_subset_window (hpuId : ℕ) (half : Half) {n : ℕ} (hn : n + 4 ≤ 1500) :
    Set.Ico (3000 * hpuId + half.start + n) (3000 * hpuId + half.start + n + 4) ⊆
      window (hpuId, half) := by
  refine Set.Ico_subset_Ico ?_ ?_ <;> dsimp only <;> omega

structure Enciphered (m c ks l : ℕ) (r r' : Run) : Prop where
  payload : r'.payload = r.payload
  words : ∀ i < l, r'.scratchpad.load (c + 4 * i) 32 =
    r.payload.load (m + 4 * i) 32 ^^^ r.scratchpad.load (ks + 4 * i) 32
  kept : ∀ a, a < c ∨ c + 4 * l ≤ a → r'.scratchpad a = r.scratchpad a

theorem enciphered {m c ks l : ℕ} (r : Run) (h : c + 4 * l ≤ ks) :
    Enciphered m c ks l r (encipher m c ks l r) := by
  induction l with
  | zero => exact ⟨rfl, fun i hi => absurd hi i.not_lt_zero, fun _ _ => rfl⟩
  | succ l ih =>
    obtain ⟨hpayload, hwords, hkept⟩ := ih (by omega)
    refine ⟨hpayload, fun i hi => ?_, fun a ha => ?_⟩
    · rcases Nat.lt_succ_iff_lt_or_eq.mp hi with hlt | rfl
      · exact (Mem.load_store_of_disjoint _ (by omega)).trans (hwords i hlt)
      · have hz : (encipher m c ks i r).scratchpad.load (ks + 4 * i) 32 =
            r.scratchpad.load (ks + 4 * i) 32 := Mem.load_congr fun _ _ => hkept _ (by omega)
        exact (Mem.load_store_self rfl _).trans (by rw [hpayload, hz])
    · exact (Mem.store_apply_of_outside _ (by omega)).trans (hkept a (by omega))

theorem storeZ_eq (z : ℕ → BitVec 32) (ks len : ℕ) (r : Run) :
    (storeZ z ks len r).payload = r.payload ∧
      (storeZ z ks len r).scratchpad = storeStream z ks len r.scratchpad := by
  induction len with
  | zero => exact ⟨rfl, rfl⟩
  | succ len ih =>
    refine ⟨ih.1, ?_⟩
    rw [storeStream, ← ih.2]
    rfl

theorem ciphertext_zucPhCall (stream : Stream) (hpuId : ℕ) {p : BitVec 16} (hp : p.toNat ≤ 1500)
    (r : Run) : ((List.range (eea3Words (messageLength p))).map fun i =>
      (zucPhCall stream hpuId p r).scratchpad.load (2 * 1500 * hpuId + 4 * i) 32) =
    (Port.pspin 0 hpuId r.scratchpad).eea3 stream (fun i => r.payload i.val) (messageLength p)
      fun i => r.payload.load (4 + 4 * i) 32 := by
  have hwords := eea3Words_messageLength p
  rw [Port.eea3_pspin]
  refine List.map_congr_left fun i hi => ?_
  have hi := List.mem_range.mp hi
  obtain ⟨hpayload, hscratchpad⟩ := storeZ_eq (stream (fun i => r.payload i.val) eea3Iv)
    (2 * 1500 * hpuId + 1500) (eea3Words (messageLength p)) r
  have hroom : 2 * 1500 * hpuId + 4 * eea3Words (messageLength p) ≤ 2 * 1500 * hpuId + 1500 := by
    omega
  rw [zucPhCall, eea3, (enciphered _ hroom).words i hi, hpayload, hscratchpad,
    load_storeStream _ _ _ hi]

/-- The call of every core stays inside the payload and its two half-windows, and no two of these
windows meet. -/
structure CallSafe (stream : Stream) (p : BitVec 16) : Prop where
  inside : ∀ hpuId payload scratchpad, ∀ a ∈
    (zucPhCall stream hpuId p ⟨payload, scratchpad, []⟩).accesses, a.Inside p.toNat hpuId
  disjoint : WindowsDisjoint

theorem inside_of_words {stream : Stream} {p : BitVec 16} (hp : p.toNat ≤ 1500)
    (hshort : ¬ (5 ≤ p.toNat ∧ p.toNat ≤ 7)) (hpuId : ℕ) (payload scratchpad : Mem) :
    ∀ a ∈ (zucPhCall stream hpuId p ⟨payload, scratchpad, []⟩).accesses,
      a.Inside p.toNat hpuId := by
  intro a ha
  obtain ⟨i, hi, hcase⟩ := (mem_accesses_zucPhCall rfl).mp ha
  have hword : 4 * i + 4 ≤ 1500 := by omega
  have hz := Ico_subset_window hpuId .keystream hword
  have hc := Ico_subset_window hpuId .ciphertext hword
  simp only [wordAccesses, List.mem_cons, List.not_mem_nil, or_false] at hcase
  rcases hcase with rfl | rfl | rfl | rfl
  · exact hz
  · exact readM_inside_iff.mpr (by omega)
  · exact hz
  · exact hc

/-- The call is safe except on the payloads of five to seven bytes, whose message of one to three
bytes is read as a word. -/
theorem callSafe_iff (stream : Stream) (p : BitVec 16) (hp : p.toNat ≤ 1500) :
    CallSafe stream p ↔ ¬ (5 ≤ p.toNat ∧ p.toNat ≤ 7) := by
  constructor
  · rintro h ⟨hmin, hmax⟩
    have hread : Access.readM 4 ∈
        (zucPhCall stream 0 p ⟨fun _ => 0, fun _ => 0, []⟩).accesses :=
      (mem_accesses_zucPhCall rfl).mpr ⟨0, by omega, Or.inr List.mem_cons_self⟩
    have hinside := readM_inside_iff.mp (h.inside 0 _ _ _ hread)
    omega
  · intro hshort
    exact ⟨inside_of_words hp hshort, windowsDisjoint⟩

theorem callSafe_iff_full : CallSafe (fun _ _ i => BitVec.ofNat 32 i) 1500 :=
  (callSafe_iff _ 1500 (by decide)).mpr (by decide)

/-- A message of one byte is read as a word. -/
theorem not_callSafe : ¬ CallSafe (fun _ _ _ => 0) 5 := by
  intro h
  have hread : Access.readM 4 ∈
      (zucPhCall (fun _ _ _ => 0) 0 5 ⟨fun _ => 0, fun _ => 0, []⟩).accesses := by decide
  exact absurd (readM_inside_iff.mp (h.inside 0 _ _ _ hread)) (by decide)

end PacketBench.Pspin

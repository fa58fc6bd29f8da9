import PacketBench.Arithmetic.OnesComplement
import PacketBench.Zuc.Keystream
import Mathlib.Tactic.Ring

/-! # The shift register modulo `2 ^ 31 - 1`

The cells of the register stand for residues modulo `2 ^ 31 - 1`, with the
modulus in place of 0. `AddM` and `MulByPow2` are one carry step of
one's-complement arithmetic each, so the work mode feeds the right residue back
and keeps the cells in their range.
-/

namespace PacketBench.Zuc

open OnesComplement

/-- A value between 1 and `2 ^ 31 - 1`. -/
def IsCell (v : BitVec 32) : Prop := 0 < v.toNat ∧ v.toNat < 2 ^ 31

instance : DecidablePred IsCell := fun v =>
  inferInstanceAs (Decidable (0 < v.toNat ∧ v.toNat < 2 ^ 31))

def Ranged (s : Fin 16 → BitVec 32) : Prop := ∀ i, IsCell (s i)

theorem addM_eq_carry {a b : BitVec 32} (h : a.toNat + b.toNat < 2 ^ 32) :
    (addM a b).toNat = carry (2 ^ 31) (a.toNat + b.toNat) := by
  rw [toNat_addM, BitVec.toNat_add, Nat.mod_eq_of_lt h, carry]

theorem toNat_mulByPow2 (x : BitVec 32) {k : ℕ} (hk : k ≤ 30) :
    (mulByPow2 x k).toNat = x.toNat % 2 ^ (31 - k) * 2 ^ k ||| x.toNat / 2 ^ (31 - k) := by
  have hsplit : (2 : ℕ) ^ 31 = 2 ^ (31 - k) * 2 ^ k := (pow_sub_mul_pow 2 (by omega)).symm
  have hhigh : x.toNat / 2 ^ (31 - k) < 2 ^ 31 := by
    refine (Nat.div_le_div_left (Nat.pow_le_pow_right (by decide) (by omega : 1 ≤ 31 - k))
      (by decide)).trans_lt ?_
    have := x.isLt
    omega
  have hmask : ((0x7FFFFFFF : ℕ) : BitVec 32).toNat = 2 ^ 31 - 1 := by decide
  unfold mulByPow2
  rw [BitVec.toNat_and, BitVec.toNat_or, BitVec.toNat_shiftLeft, BitVec.toNat_ushiftRight,
    Nat.shiftRight_eq_div_pow, Nat.shiftLeft_eq]
  have hand := Nat.and_two_pow_sub_one_eq_mod
    (x.toNat * 2 ^ k % 2 ^ 32 ||| x.toNat / 2 ^ (31 - k)) 31
  refine Eq.trans hand ?_
  rw [Nat.or_mod_two_pow, Nat.mod_eq_of_lt hhigh, Nat.mod_mod_of_dvd _ (by decide), hsplit,
    Nat.mul_mod_mul_right]

theorem mulByPow2_eq_carry {x : BitVec 32} (hx : x.toNat < 2 ^ 31) {k : ℕ} (hk : k ≤ 30) :
    (mulByPow2 x k).toNat = carry (2 ^ 31) (x.toNat * 2 ^ k) := by
  have hsplit : (2 : ℕ) ^ 31 = 2 ^ k * 2 ^ (31 - k) := (pow_mul_pow_sub 2 (by omega)).symm
  have hhigh : x.toNat / 2 ^ (31 - k) < 2 ^ k :=
    (Nat.div_lt_iff_lt_mul (Nat.two_pow_pos _)).mpr (hsplit ▸ hx)
  have hcarry := carry_mul (c := 2 ^ k) (Nat.two_pow_pos (31 - k)) (hsplit ▸ hx)
  rw [← hsplit] at hcarry
  rw [toNat_mulByPow2 x hk, hcarry, Nat.mul_comm _ (2 ^ k),
    Nat.two_pow_add_eq_or_of_lt hhigh]

theorem mulByPow2_modEq {x : BitVec 32} (hx : x.toNat < 2 ^ 31) {k : ℕ} (hk : k ≤ 30) :
    (mulByPow2 x k).toNat ≡ x.toNat * 2 ^ k [MOD 2 ^ 31 - 1] := by
  rw [mulByPow2_eq_carry hx hk]
  exact carry_modEq (by decide) _

theorem toNat_eq_zero_of_mulByPow2 {x : BitVec 32} (hx : x.toNat < 2 ^ 31) {k : ℕ} (hk : k ≤ 30)
    (h : (mulByPow2 x k).toNat = 0) : x.toNat = 0 := by
  rw [mulByPow2_eq_carry hx hk, carry_eq_zero_iff] at h
  exact (Nat.mul_eq_zero.mp h).resolve_right (Nat.two_pow_pos k).ne'

theorem IsCell.mulByPow2 {x : BitVec 32} (hx : IsCell x) {k : ℕ} (hk : k ≤ 30) :
    IsCell (mulByPow2 x k) ∧ (mulByPow2 x k).toNat ≡ x.toNat * 2 ^ k [MOD 2 ^ 31 - 1] := by
  refine ⟨⟨Nat.pos_of_ne_zero fun hzero => ?_, toNat_mulByPow2_lt x k⟩, mulByPow2_modEq hx.2 hk⟩
  exact hx.1.ne' (toNat_eq_zero_of_mulByPow2 hx.2 hk hzero)

/-- One addition, where the first operand may be one above the modulus and its residue. -/
structure Added (x a : BitVec 32) : Prop where
  le : (addM x a).toNat ≤ 2 ^ 31
  modEq : (addM x a).toNat ≡ x.toNat + a.toNat [MOD 2 ^ 31 - 1]
  eq_zero : (addM x a).toNat = 0 ↔ x.toNat = 0 ∧ a.toNat = 0
  eq_top : (addM x a).toNat = 2 ^ 31 ↔ x.toNat = 2 ^ 31 ∧ a.toNat = 2 ^ 31 - 1

theorem added {x a : BitVec 32} (hx : x.toNat ≤ 2 ^ 31) (ha : a.toNat < 2 ^ 31) : Added x a := by
  have hsum : x.toNat + a.toNat < 2 ^ 32 := by omega
  have heq := addM_eq_carry hsum
  have hzero := carry_eq_zero_iff (b := 2 ^ 31) (s := x.toNat + a.toNat)
  have hmod := carry_modEq (by decide : 1 < 2 ^ 31) (x.toNat + a.toNat)
  rw [← heq] at hzero hmod
  unfold carry at heq
  exact ⟨by omega, hmod, by omega, by omega⟩

/-- The sum and its carry step do not overflow 32 bits and give the residue of the plain sum. -/
structure AddsModulo (a b : BitVec 32) : Prop where
  sum : (a + b).toNat = a.toNat + b.toNat
  step : (addM a b).toNat = ((a + b) &&& 0x7FFFFFFF).toNat + ((a + b) >>> 31).toNat
  le : (addM a b).toNat ≤ 2 ^ 31 - 1
  modEq : (addM a b).toNat ≡ a.toNat + b.toNat [MOD 2 ^ 31 - 1]
  eq_zero : (addM a b).toNat = 0 → a.toNat = 0 ∧ b.toNat = 0

theorem addsModulo {a b : BitVec 32} (ha : a.toNat ≤ 2 ^ 31 - 1) (hb : b.toNat ≤ 2 ^ 31 - 1) :
    AddsModulo a b := by
  have hsum : (a + b).toNat = a.toNat + b.toNat := by
    rw [BitVec.toNat_add]
    omega
  have hadded := added (x := a) (a := b) (by omega) (by omega)
  have hlt := (addM_spec (a := a) (b := b) (by omega) (by omega)).1
  exact ⟨hsum, toNat_addM_parts a b, by omega, hadded.modEq, hadded.eq_zero.mp⟩

/-- A product with a power of two modulo `2 ^ 31 - 1`, which the complementary power undoes. -/
structure MulsModulo (x : BitVec 32) (k : ℕ) : Prop where
  le : (mulByPow2 x k).toNat ≤ 2 ^ 31 - 1
  modEq : (mulByPow2 x k).toNat ≡ 2 ^ k * x.toNat [MOD 2 ^ 31 - 1]
  eq_zero : (mulByPow2 x k).toNat = 0 → x.toNat = 0
  inverse : mulByPow2 (mulByPow2 x k) (31 - k) = x

theorem mulByPow2_mulByPow2 {x : BitVec 32} (hx : x.toNat < 2 ^ 31) {k : ℕ} (h₁ : 1 ≤ k)
    (h₃₀ : k ≤ 30) : mulByPow2 (mulByPow2 x k) (31 - k) = x := by
  have hsplit : (2 : ℕ) ^ 31 = 2 ^ k * 2 ^ (31 - k) := (pow_mul_pow_sub 2 (by omega)).symm
  have hcarry := carry_carry_mul (c := 2 ^ k) (Nat.two_pow_pos (31 - k)) (hsplit ▸ hx)
  rw [← hsplit] at hcarry
  apply BitVec.eq_of_toNat_eq
  rw [mulByPow2_eq_carry (toNat_mulByPow2_lt x k) (by omega), mulByPow2_eq_carry hx h₃₀, hcarry]

theorem mulsModulo {x : BitVec 32} (hx : x.toNat ≤ 2 ^ 31 - 1) {k : ℕ} (h₁ : 1 ≤ k)
    (h₃₀ : k ≤ 30) : MulsModulo x k := by
  have hlt : x.toNat < 2 ^ 31 := by omega
  constructor
  · have hbound := toNat_mulByPow2_lt x k
    omega
  · rw [Nat.mul_comm]
    exact mulByPow2_modEq hlt h₃₀
  · exact toNat_eq_zero_of_mulByPow2 hlt h₃₀
  · exact mulByPow2_mulByPow2 hlt h₁ h₃₀

/-- `AddM` and `MulByPow2` calculate modulo `2 ^ 31 - 1` in 32 bits. -/
theorem arithmetic_modulo :
    (∀ a b : BitVec 32, a.toNat ≤ 2 ^ 31 - 1 → b.toNat ≤ 2 ^ 31 - 1 → AddsModulo a b) ∧
      ∀ x : BitVec 32, x.toNat ≤ 2 ^ 31 - 1 → ∀ k, 1 ≤ k → k ≤ 30 → MulsModulo x k :=
  ⟨fun _ _ => addsModulo, fun _ hx _ => mulsModulo hx⟩

theorem arithmetic_modulo_max : AddsModulo 0x7FFFFFFF 0x7FFFFFFF ∧ MulsModulo 0x40000001 30 :=
  ⟨arithmetic_modulo.1 _ _ (by decide) (by decide),
    arithmetic_modulo.2 _ (by decide) 30 (by decide) (by decide)⟩

/-- The same for a chain of additions. -/
structure Summed (x : BitVec 32) (as : List (BitVec 32)) : Prop where
  le : (as.foldl addM x).toNat ≤ 2 ^ 31
  modEq : (as.foldl addM x).toNat ≡ x.toNat + (as.map BitVec.toNat).sum [MOD 2 ^ 31 - 1]
  eq_zero : (as.foldl addM x).toNat = 0 ↔ x.toNat = 0 ∧ ∀ a ∈ as, a.toNat = 0
  eq_top : (as.foldl addM x).toNat = 2 ^ 31 ↔ x.toNat = 2 ^ 31 ∧ ∀ a ∈ as, a.toNat = 2 ^ 31 - 1

theorem summed {x : BitVec 32} {as : List (BitVec 32)} (hx : x.toNat ≤ 2 ^ 31)
    (ha : ∀ a ∈ as, a.toNat < 2 ^ 31) : Summed x as := by
  induction as generalizing x with
  | nil => exact ⟨hx, Nat.ModEq.refl _, by simp, by simp⟩
  | cons a as ih =>
    obtain ⟨ha, has⟩ := List.forall_mem_cons.mp ha
    have hstep := added hx ha
    have hrest := ih hstep.le has
    constructor
    · exact hrest.le
    · rw [List.map_cons, List.sum_cons, ← Nat.add_assoc]
      exact hrest.modEq.trans (hstep.modEq.add_right _)
    · rw [List.foldl_cons, hrest.eq_zero, hstep.eq_zero, List.forall_mem_cons, and_assoc]
    · rw [List.foldl_cons, hrest.eq_top, hstep.eq_top, List.forall_mem_cons, and_assoc]

def cell (s : Fin 16 → BitVec 32) (i : ℕ) : BitVec 32 := if h : i < 16 then s ⟨i, h⟩ else 0

/-- The terms that both modes add, the cells of the register shifted by 15 to 21 places. -/
def terms (s : Fin 16 → BitVec 32) : List (BitVec 32) :=
  [mulByPow2 (cell s 4) 20, mulByPow2 (cell s 10) 21, mulByPow2 (cell s 13) 17,
    mulByPow2 (cell s 15) 15]

def termsSum (s : Fin 16 → BitVec 32) : ℕ :=
  2 ^ 15 * (cell s 15).toNat + 2 ^ 17 * (cell s 13).toNat + 2 ^ 21 * (cell s 10).toNat +
    2 ^ 20 * (cell s 4).toNat

theorem terms_eq (s : Fin 16 → BitVec 32) : terms s = [mulByPow2 (s 4) 20,
    mulByPow2 (s 10) 21, mulByPow2 (s 13) 17, mulByPow2 (s 15) 15] := rfl

theorem termsSum_eq (s : Fin 16 → BitVec 32) : termsSum s = 2 ^ 15 * (s 15).toNat +
    2 ^ 17 * (s 13).toNat + 2 ^ 21 * (s 10).toNat + 2 ^ 20 * (s 4).toNat := rfl

theorem feedback_eq_foldl (l : BitVec 32) (s : Fin 16 → BitVec 32) :
    feedback l s = (terms s).foldl addM (contribution l) := rfl

theorem sum_terms {s : Fin 16 → BitVec 32} (hs : Ranged s) :
    ((terms s).map BitVec.toNat).sum ≡ termsSum s [MOD 2 ^ 31 - 1] := by
  have h₄ := ((hs 4).mulByPow2 (k := 20) (by decide)).2
  have h₁₀ := ((hs 10).mulByPow2 (k := 21) (by decide)).2
  have h₁₃ := ((hs 13).mulByPow2 (k := 17) (by decide)).2
  have h₁₅ := ((hs 15).mulByPow2 (k := 15) (by decide)).2
  have hsum := ((h₄.add h₁₀).add h₁₃).add h₁₅
  have hleft : ((terms s).map BitVec.toNat).sum = (mulByPow2 (s 4) 20).toNat +
      (mulByPow2 (s 10) 21).toNat + (mulByPow2 (s 13) 17).toNat + (mulByPow2 (s 15) 15).toNat := by
    simp only [terms_eq, List.map_cons, List.map_nil, List.sum_cons, List.sum_nil]
    ring
  have hright : termsSum s = (s 4).toNat * 2 ^ 20 + (s 10).toNat * 2 ^ 21 +
      (s 13).toNat * 2 ^ 17 + (s 15).toNat * 2 ^ 15 := by
    rw [termsSum_eq]
    ring
  rw [hleft, hright]
  exact hsum

theorem terms_lt (s : Fin 16 → BitVec 32) : ∀ a ∈ terms s, a.toNat < 2 ^ 31 := by
  simp only [terms, List.forall_mem_cons, toNat_mulByPow2_lt, true_and]
  exact fun a ha => absurd ha List.not_mem_nil

theorem contribution_of_lt {l : BitVec 32} (hl : l.toNat < 2 ^ 31) :
    (contribution l).toNat < 2 ^ 31 ∧
      (contribution l).toNat ≡ (1 + 2 ^ 8) * l.toNat [MOD 2 ^ 31 - 1] := by
  have hmul := toNat_mulByPow2_lt l 8
  have hsum := added hl.le hmul
  have hmod := mulByPow2_modEq hl (k := 8) (by decide)
  refine ⟨lt_of_le_of_ne hsum.le fun htop => hl.ne (hsum.eq_top.mp htop).1, ?_⟩
  have hform : (1 + 2 ^ 8) * l.toNat = l.toNat + l.toNat * 2 ^ 8 := by ring
  rw [hform]
  exact hsum.modEq.trans (hmod.add_left _)

def feedbackSum (s : Fin 16 → BitVec 32) : ℕ :=
  termsSum s + (1 + 2 ^ 8) * (cell s 0).toNat

theorem feedbackSum_eq (s : Fin 16 → BitVec 32) :
    feedbackSum s = termsSum s + (1 + 2 ^ 8) * (s 0).toNat := rfl

theorem isResidue_feedback {s : Fin 16 → BitVec 32} (hs : Ranged s) :
    IsResidue (2 ^ 31) (feedbackSum s) (feedback (s 0) s).toNat := by
  obtain ⟨hlt, hmod⟩ := contribution_of_lt (hs 0).2
  have hsum := summed hlt.le (terms_lt s)
  rw [feedback_eq_foldl]
  constructor
  · refine Nat.pos_of_ne_zero fun hzero => ?_
    have hterm := (hsum.eq_zero.mp hzero).2 (mulByPow2 (s 4) 20) List.mem_cons_self
    exact (((hs 4).mulByPow2 (k := 20) (by decide)).1.1).ne' hterm
  · exact lt_of_le_of_ne hsum.le fun htop => hlt.ne (hsum.eq_top.mp htop).1
  · rw [feedbackSum_eq, Nat.add_comm]
    exact hsum.modEq.trans (hmod.add (sum_terms hs))

/-- 257 has an inverse modulo `2 ^ 31 - 1`. -/
theorem mul_257_modEq_iff (a b : ℕ) :
    (1 + 2 ^ 8) * a ≡ (1 + 2 ^ 8) * b [MOD 2 ^ 31 - 1] ↔ a ≡ b [MOD 2 ^ 31 - 1] := by
  constructor
  · exact Nat.ModEq.cancel_left_of_coprime (by decide)
  · exact fun h => h.mul_left _

/-- Every cell has the value of the next one, and the last one is the only value of its range with
the residue of the feedback. -/
structure WorkStep (g g' : Registers) : Prop where
  shifted : ∀ i : Fin 16, ∀ h : i.val + 1 < 16, g'.lfsrS i = g.lfsrS ⟨i.val + 1, h⟩
  newest : ∀ v : BitVec 32,
    v = g'.lfsrS 15 ↔ IsResidue (2 ^ 31) (feedbackSum g.lfsrS) v.toNat

theorem eq_iff_isResidue {n : ℕ} {v w : BitVec 32} (hw : IsResidue (2 ^ 31) n w.toNat) :
    v = w ↔ IsResidue (2 ^ 31) n v.toNat := by
  constructor
  · rintro rfl
    exact hw
  · exact fun hv => BitVec.eq_of_toNat_eq (hv.unique hw)

theorem shift_of_lt (s : Fin 16 → BitVec 32) (v : BitVec 32) (i : Fin 16) (h : i.val + 1 < 16) :
    shift s v i = s ⟨i.val + 1, h⟩ := dif_pos h

theorem workStep {g : Registers} (hg : Ranged g.lfsrS) : WorkStep g (lfsrWithWorkMode g) :=
  ⟨fun i h => shift_of_lt _ _ i h, fun _ => eq_iff_isResidue (isResidue_feedback hg)⟩

theorem ranged_shift {s : Fin 16 → BitVec 32} (hs : Ranged s) {v : BitVec 32} (hv : IsCell v) :
    Ranged (shift s v) := by
  intro i
  by_cases h : i.val + 1 < 16
  · rw [shift_of_lt s v i h]
    exact hs _
  · have hlast : shift s v i = v := dif_neg h
    rw [hlast]
    exact hv

theorem ranged_workMode {g : Registers} (hg : Ranged g.lfsrS) :
    Ranged (lfsrWithWorkMode g).lfsrS :=
  ranged_shift hg ⟨(isResidue_feedback hg).pos, (isResidue_feedback hg).lt⟩

theorem ranged_keystreamWords {g : Registers} (hg : Ranged g.lfsrS) (n : ℕ) :
    Ranged (keystreamWords n g).2.lfsrS := by
  induction n generalizing g with
  | zero => exact hg
  | succ n ih => exact ih (ranged_workMode hg)

/-- The halves of a cell: its bits 30 to 15 and 15 to 0. -/
def highHalf (v : BitVec 32) : BitVec 16 := v.extractLsb' 15 16

def lowHalf (v : BitVec 32) : BitVec 16 := v.extractLsb' 0 16

/-- The four words are concatenations of halves, and the parts that are combined do not overlap. -/
structure Reorganized (s : Fin 16 → BitVec 32) (g : Registers) : Prop where
  x0 : g.brcX0 = highHalf (s 15) ++ lowHalf (s 14)
  x1 : g.brcX1 = lowHalf (s 11) ++ highHalf (s 9)
  x2 : g.brcX2 = lowHalf (s 7) ++ highHalf (s 5)
  x3 : g.brcX3 = lowHalf (s 2) ++ highHalf (s 0)
  apart0 : ((s 15 &&& 0x7FFF8000) <<< 1) &&& (s 14 &&& 0xFFFF) = 0
  apart1 : ((s 11 &&& 0xFFFF) <<< 16) &&& (s 9 >>> 15) = 0
  apart2 : ((s 7 &&& 0xFFFF) <<< 16) &&& (s 5 >>> 15) = 0
  apart3 : ((s 2 &&& 0xFFFF) <<< 16) &&& (s 0 >>> 15) = 0

theorem getLsbD_lowMask {i : ℕ} (hi : i < 32) :
    (0xFFFF : BitVec 32).getLsbD i = decide (i < 16) := by
  have hall : ∀ i < 32, (0xFFFF : BitVec 32).getLsbD i = decide (i < 16) := by decide
  exact hall i hi

theorem getLsbD_highMask {i : ℕ} (hi : i < 32) :
    (0x7FFF8000 : BitVec 32).getLsbD i = (decide (15 ≤ i) && decide (i < 31)) := by
  have hall : ∀ i < 32, (0x7FFF8000 : BitVec 32).getLsbD i =
      (decide (15 ≤ i) && decide (i < 31)) := by decide
  exact hall i hi

theorem IsCell.getLsbD_of_le {v : BitVec 32} (hv : IsCell v) {i : ℕ} (hi : 31 ≤ i) :
    v.getLsbD i = false :=
  Nat.testBit_lt_two_pow (hv.2.trans_le (Nat.pow_le_pow_right (by decide) hi))

theorem low_high (v : BitVec 32) {w : BitVec 32} (hw : IsCell w) :
    ((v &&& 0xFFFF) <<< 16) ||| (w >>> 15) = lowHalf v ++ highHalf w ∧
      ((v &&& 0xFFFF) <<< 16) &&& (w >>> 15) = 0 := by
  have hbits : ∀ i < 32, ((v &&& 0xFFFF) <<< 16).getLsbD i =
      (decide (16 ≤ i) && v.getLsbD (i - 16)) := by
    intro i hi
    rw [BitVec.getLsbD_shiftLeft, BitVec.getLsbD_and, getLsbD_lowMask (by omega)]
    have hlow : i - 16 < 16 := by omega
    by_cases h : i < 16 <;> simp [h, hi, hlow, Nat.not_le.mpr, Nat.not_lt.mp]
  constructor <;> refine BitVec.eq_of_getLsbD_eq fun i hi => ?_
  · rw [BitVec.getLsbD_or, hbits i hi, BitVec.getLsbD_ushiftRight, BitVec.getLsbD_append]
    by_cases h : i < 16
    · simp [h, highHalf]
    · have htop := hw.getLsbD_of_le (i := 15 + i) (by omega)
      have hlow : i - 16 < 16 := by omega
      simp [h, htop, lowHalf, hlow, Nat.not_lt.mp h]
  · rw [BitVec.getLsbD_and, hbits i hi, BitVec.getLsbD_ushiftRight]
    by_cases h : i < 16
    · simp [h]
    · have htop := hw.getLsbD_of_le (i := 15 + i) (by omega)
      simp [htop]

theorem high_low (v w : BitVec 32) :
    ((v &&& 0x7FFF8000) <<< 1) ||| (w &&& 0xFFFF) = highHalf v ++ lowHalf w ∧
      ((v &&& 0x7FFF8000) <<< 1) &&& (w &&& 0xFFFF) = 0 := by
  have hbits : ∀ i < 32, ((v &&& 0x7FFF8000) <<< 1).getLsbD i =
      (decide (16 ≤ i) && v.getLsbD (i - 1)) := by
    intro i hi
    rw [BitVec.getLsbD_shiftLeft, BitVec.getLsbD_and, getLsbD_highMask (by omega)]
    by_cases h : i < 16
    · have hmask : ¬ 15 ≤ i - 1 := by omega
      simp [hmask, Nat.not_le.mpr h]
    · have hmask : 15 ≤ i - 1 ∧ i - 1 < 31 := by omega
      have hpos : ¬ i = 0 := by omega
      simp [hmask.1, hmask.2, hi, hpos, Nat.not_lt.mp h]
  constructor <;> refine BitVec.eq_of_getLsbD_eq fun i hi => ?_
  · rw [BitVec.getLsbD_or, hbits i hi, BitVec.getLsbD_and, getLsbD_lowMask hi,
      BitVec.getLsbD_append]
    by_cases h : i < 16
    · simp [h, lowHalf]
    · have hindex : 15 + (i - 16) = i - 1 := by omega
      have hlow : i - 16 < 16 := by omega
      simp [h, highHalf, hindex, hlow, Nat.not_lt.mp h]
  · rw [BitVec.getLsbD_and, hbits i hi, BitVec.getLsbD_and, getLsbD_lowMask hi]
    by_cases h : i < 16
    · simp [h]
    · simp [h]

theorem reorganized {g : Registers} (hg : Ranged g.lfsrS) :
    Reorganized g.lfsrS (bitReorganization g) where
  x0 := (high_low _ _).1
  x1 := (low_high _ (hg 9)).1
  x2 := (low_high _ (hg 5)).1
  x3 := (low_high _ (hg 0)).1
  apart0 := (high_low _ _).2
  apart1 := (low_high _ (hg 9)).2
  apart2 := (low_high _ (hg 5)).2
  apart3 := (low_high _ (hg 0)).2

/-- After any number of steps the cells are in their range, the next step feeds the right residue
back and keeps the range, and the words for `F` are concatenations of halves of cells. -/
theorem keystream_invariant (g : Registers) (hg : Ranged g.lfsrS) (n : ℕ) :
    let h := (keystreamWords n g).2
    Ranged h.lfsrS ∧ WorkStep h (lfsrWithWorkMode h) ∧ Ranged (lfsrWithWorkMode h).lfsrS ∧
      Reorganized h.lfsrS (bitReorganization h) := by
  have hn := ranged_keystreamWords hg n
  exact ⟨hn, workStep hn, ranged_workMode hn, reorganized hn⟩

def onesRegisters : Registers := ⟨fun _ => 1, 0, 0, 0, 0, 0, 0⟩

theorem ranged_onesRegisters : Ranged onesRegisters.lfsrS :=
  fun _ => (by decide : IsCell (1 : BitVec 32))

theorem keystream_invariant_ones :
    let h := (keystreamWords 3 onesRegisters).2
    Ranged h.lfsrS ∧ WorkStep h (lfsrWithWorkMode h) ∧ Ranged (lfsrWithWorkMode h).lfsrS ∧
      Reorganized h.lfsrS (bitReorganization h) :=
  keystream_invariant onesRegisters ranged_onesRegisters 3

end PacketBench.Zuc

import Mathlib.Data.Nat.ModEq
import Mathlib.Tactic.Linarith
import Mathlib.Tactic.Ring

/-! # One's-complement sums

`fold b s` adds the carries above base `b` back in until the value fits below
`b`. It keeps the residue modulo `b - 1`, so it is `b - 1` exactly on the
positive multiples of `b - 1`. A single carry step is complete exactly when it
does not itself carry.
-/

namespace OnesComplement

/-- Add the digits above base `b` to the lowest digit. -/
def carry (b s : ℕ) : ℕ := s % b + s / b

theorem carry_lt {b s : ℕ} (hb : 1 < b) (hs : b ≤ s) : carry b s < s := by
  have hdiv : 0 < s / b := Nat.div_pos hs (by omega)
  have hsplit := Nat.mod_add_div s b
  have hmul : s / b < b * (s / b) := by nlinarith
  unfold carry
  omega

theorem carry_modEq {b : ℕ} (hb : 1 < b) (s : ℕ) : carry b s ≡ s [MOD b - 1] := by
  have hbase : b ≡ 1 [MOD b - 1] := by
    have h := Nat.add_modEq_left (a := 1) (n := b - 1)
    rwa [show b - 1 + 1 = b by omega] at h
  have h := (hbase.mul_right (s / b)).add_left (s % b)
  rw [Nat.mod_add_div, one_mul] at h
  exact h.symm

@[simp] theorem carry_eq_zero_iff {b s : ℕ} : carry b s = 0 ↔ s = 0 := by
  constructor
  · intro h
    obtain ⟨hmod, hdiv⟩ := Nat.add_eq_zero_iff.mp h
    rw [← Nat.mod_add_div s b, hmod, hdiv, mul_zero, add_zero]
  · rintro rfl
    simp [carry]

/-- One carry step rotates the digits of a number below `c * d`. -/
theorem carry_mul {c d x : ℕ} (hd : 0 < d) (hx : x < c * d) :
    carry (c * d) (x * c) = x % d * c + x / d := by
  have hdiv : x / d < c := (Nat.div_lt_iff_lt_mul hd).mpr hx
  have hc : 0 < c := Nat.pos_of_ne_zero fun h => by rw [h] at hdiv; exact Nat.not_lt_zero _ hdiv
  have hlow : x % d * c < c * d := by
    rw [Nat.mul_comm c d]
    exact Nat.mul_lt_mul_of_pos_right (Nat.mod_lt x hd) hc
  have hsplit : x * c = x % d * c + c * d * (x / d) := by
    conv_lhs => rw [← Nat.mod_add_div x d]
    ring
  rw [carry, hsplit, Nat.add_mul_mod_self_left, Nat.mod_eq_of_lt hlow,
    Nat.add_mul_div_left _ _ (Nat.mul_pos hc hd), Nat.div_eq_of_lt hlow, Nat.zero_add]

theorem carry_carry_mul {c d x : ℕ} (hd : 0 < d) (hx : x < c * d) :
    carry (c * d) (carry (c * d) (x * c) * d) = x := by
  have hdiv : x / d < c := (Nat.div_lt_iff_lt_mul hd).mpr hx
  have hc : 0 < c := Nat.zero_lt_of_lt hdiv
  have hmod : (x % d * c + x / d) % c = x / d := by
    rw [Nat.mul_add_mod', Nat.mod_eq_of_lt hdiv]
  have hlow : (x % d * c + x / d) / c = x % d := by
    rw [Nat.add_comm, Nat.add_mul_div_right _ _ hc, Nat.div_eq_of_lt hdiv, Nat.zero_add]
  have hrot : x % d * c + x / d < d * c := by
    have hle : (x % d + 1) * c ≤ d * c := Nat.mul_le_mul_right c (Nat.mod_lt x hd)
    rw [Nat.add_mul] at hle
    omega
  rw [carry_mul hd hx, Nat.mul_comm c d, carry_mul hc hrot, hmod, hlow, Nat.mul_comm,
    Nat.div_add_mod]

theorem carry_mul_eq_max_iff {c d x : ℕ} (hd : 0 < d) (hx : x < c * d) :
    carry (c * d) (x * c) = c * d - 1 ↔ x = c * d - 1 := by
  have hdiv : x / d < c := (Nat.div_lt_iff_lt_mul hd).mpr hx
  have hmod := Nat.mod_lt x hd
  have hsplit := Nat.mod_add_div x d
  obtain ⟨c, rfl⟩ := Nat.exists_eq_add_one_of_ne_zero (Nat.ne_zero_of_lt hdiv)
  obtain ⟨d, rfl⟩ := Nat.exists_eq_add_one_of_ne_zero hd.ne'
  have hmax : (c + 1) * (d + 1) - 1 = d * (c + 1) + c := by
    have hform : (c + 1) * (d + 1) = d * (c + 1) + c + 1 := by ring
    omega
  rw [carry_mul hd hx, hmax]
  constructor
  · intro h
    have hlow : d ≤ x % (d + 1) := by
      by_contra hlt
      have hle : (x % (d + 1) + 1) * (c + 1) ≤ d * (c + 1) := Nat.mul_le_mul_right _ (by omega)
      rw [Nat.add_mul] at hle
      omega
    have heq : x % (d + 1) = d := by omega
    rw [heq] at h hsplit
    have hhigh : x / (d + 1) = c := by omega
    rw [← hsplit, hhigh]
    ring
  · rintro rfl
    have hform : d * (c + 1) + c = d + (d + 1) * c := by ring
    rw [hform, Nat.add_mul_mod_self_left, Nat.mod_eq_of_lt d.lt_succ_self,
      Nat.add_mul_div_left _ _ hd, Nat.div_eq_of_lt d.lt_succ_self]
    ring

/-- `v` is the residue of `n` modulo `b - 1` among the numbers from 1 on. -/
structure IsResidue (b n v : ℕ) : Prop where
  pos : 0 < v
  lt : v < b
  modEq : v ≡ n [MOD b - 1]

theorem IsResidue.unique {b n v w : ℕ} (hv : IsResidue b n v) (hw : IsResidue b n w) : v = w := by
  have hmod := hv.modEq.trans hw.modEq.symm
  have hlt := hv.lt
  have hlt' := hw.lt
  have hpos := hv.pos
  have hpos' := hw.pos
  rcases Nat.lt_or_ge v w with h | h
  · have := Nat.le_of_dvd (by omega) ((Nat.modEq_iff_dvd' h.le).mp hmod)
    omega
  · have hdvd := (Nat.modEq_iff_dvd' h).mp hmod.symm
    rcases Nat.eq_zero_or_pos (v - w) with hzero | hlarge
    · omega
    · have := Nat.le_of_dvd hlarge hdvd
      omega

/-- The one's-complement sum of a plain sum `s`: end-around carry until it fits below `b`. -/
def fold (b s : ℕ) : ℕ :=
  if _h : s < b ∨ b ≤ 1 then s else fold b (carry b s)
termination_by s
decreasing_by exact carry_lt (by omega) (by omega)

theorem fold_of_lt {b s : ℕ} (h : s < b) : fold b s = s := by
  rw [fold, dif_pos (Or.inl h)]

theorem fold_of_le {b s : ℕ} (hb : 1 < b) (h : b ≤ s) : fold b s = fold b (carry b s) := by
  rw [fold, dif_neg (by omega)]

theorem fold_lt {b : ℕ} (hb : 1 < b) (s : ℕ) : fold b s < b := by
  induction s using Nat.strong_induction_on with
  | _ s ih =>
    rcases Nat.lt_or_ge s b with h | h
    · rwa [fold_of_lt h]
    · rw [fold_of_le hb h]
      exact ih _ (carry_lt hb h)

theorem fold_modEq {b : ℕ} (hb : 1 < b) (s : ℕ) : fold b s ≡ s [MOD b - 1] := by
  induction s using Nat.strong_induction_on with
  | _ s ih =>
    rcases Nat.lt_or_ge s b with h | h
    · rw [fold_of_lt h]
    · rw [fold_of_le hb h]
      exact (ih _ (carry_lt hb h)).trans (carry_modEq hb s)

theorem fold_eq_zero_iff {b : ℕ} (hb : 1 < b) (s : ℕ) : fold b s = 0 ↔ s = 0 := by
  induction s using Nat.strong_induction_on with
  | _ s ih =>
    rcases Nat.lt_or_ge s b with h | h
    · rw [fold_of_lt h]
    · rw [fold_of_le hb h, ih _ (carry_lt hb h), carry_eq_zero_iff]

/-- The folded sum is all ones exactly on the positive multiples of `b - 1`. -/
theorem fold_eq_max_iff {b : ℕ} (hb : 1 < b) (s : ℕ) :
    fold b s = b - 1 ↔ 0 < s ∧ b - 1 ∣ s := by
  have hlt := fold_lt hb s
  have hmod := fold_modEq hb s
  have hzero := fold_eq_zero_iff hb s
  constructor
  · intro h
    refine ⟨Nat.pos_of_ne_zero fun hs => ?_, ?_⟩
    · have := hzero.mpr hs
      omega
    · exact (Nat.modEq_zero_iff_dvd).mp ((h ▸ hmod).symm.trans (Nat.modEq_zero_iff_dvd.mpr dvd_rfl))
  · rintro ⟨hs, hd⟩
    have hdvd : b - 1 ∣ fold b s :=
      (Nat.modEq_zero_iff_dvd).mp (hmod.trans (Nat.modEq_zero_iff_dvd.mpr hd))
    have hpos : 0 < fold b s := Nat.pos_of_ne_zero fun h => by have := hzero.mp h; omega
    have hle := Nat.le_of_dvd hpos hdvd
    omega

/-- Adding the complement of the low digit of one carry step gives all ones exactly when that
step does not carry again: a lost carry leaves the sum one too large. -/
theorem fold_add_compl_iff {b : ℕ} (hb : 2 < b) {s : ℕ} (hs : carry b s < 2 * b - 1) :
    fold b (s + (b - 1 - carry b s % b)) = b - 1 ↔ carry b s < b := by
  have hmod := Nat.mod_add_div s b
  have hb₁ : b - 1 ∣ b * (s / b) - s / b := ⟨s / b, by rw [Nat.sub_mul, one_mul]⟩
  have hle : s / b ≤ b * (s / b) := Nat.le_mul_of_pos_left _ (by omega)
  obtain ⟨c, hc⟩ := hb₁
  have hsum : s = (b - 1) * c + carry b s := by
    unfold carry
    omega
  rw [fold_eq_max_iff (by omega)]
  constructor
  · rintro ⟨_, hd⟩
    by_contra hge
    have hrem : carry b s % b = carry b s - b := by
      rw [Nat.mod_eq_sub_mod (by omega), Nat.mod_eq_of_lt (by omega)]
    have heq : s + (b - 1 - carry b s % b) = (b - 1) * (c + 2) + 1 := by
      rw [hrem, mul_add]
      omega
    rw [heq, Nat.dvd_add_right (Dvd.intro _ rfl)] at hd
    have := Nat.le_of_dvd one_pos hd
    omega
  · intro hlt
    have heq : s + (b - 1 - carry b s % b) = (b - 1) * (c + 1) := by
      rw [Nat.mod_eq_of_lt hlt, mul_add]
      omega
    rw [heq]
    exact ⟨Nat.mul_pos (by omega) (by omega), Dvd.intro _ rfl⟩

end OnesComplement

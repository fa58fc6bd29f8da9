import Mathlib.Algebra.Ring.Divisibility.Basic
import Mathlib.Data.BitVec
import Mathlib.Algebra.BigOperators.Group.List.Lemmas

/-! # Counters and sums that wrap

A `w`-bit register holds a sum modulo `2 ^ w`. Divisors of `2 ^ w` do not see
the overflows, whether the register is read as a signed or as an unsigned
number. A C remainder has the sign of the dividend, so it survives the cut to a
narrower register in some cases only.
-/

namespace Wrapping

variable {w p : ℕ}

theorem dvd_bmod_iff {m : ℕ} (hp : p ∣ m) (x : ℤ) : (p : ℤ) ∣ x.bmod m ↔ (p : ℤ) ∣ x :=
  dvd_iff_dvd_of_dvd_sub ((Int.natCast_dvd_natCast.mpr hp).trans Int.dvd_bmod_sub_self)

/-- The C remainder of a signed counter by a divisor of its range is that of the number of steps. -/
theorem tmod_toInt_ofNat_eq_zero_iff (hp : p ∣ 2 ^ w) (n : ℕ) :
    (BitVec.ofNat w n).toInt.tmod p = 0 ↔ p ∣ n := by
  rw [← Int.dvd_iff_tmod_eq_zero, BitVec.toInt_ofNat', dvd_bmod_iff hp, Int.natCast_dvd_natCast]

theorem toInt_emod_of_dvd (hp : p ∣ 2 ^ w) (v : BitVec w) : v.toInt % p = (v.toNat : ℤ) % p := by
  rw [Int.emod_eq_emod_iff_emod_sub_eq_zero, ← Int.dvd_iff_emod_eq_zero,
    BitVec.toInt_eq_toNat_bmod]
  exact (Int.natCast_dvd_natCast.mpr hp).trans Int.dvd_bmod_sub_self

theorem sub_emod_eq_left_iff {r n m : ℤ} (hr : 0 ≤ r) (hm : 0 < m) :
    (r - n) % m = r ↔ r < m ∧ m ∣ n := by
  constructor
  · intro h
    have hlt : r < m := h ▸ Int.emod_lt_of_pos _ hm
    have hcongr : r % m = (r - n) % m := by rw [h, Int.emod_eq_of_lt hr hlt]
    rw [Int.emod_eq_emod_iff_emod_sub_eq_zero, ← Int.dvd_iff_emod_eq_zero, sub_sub_cancel] at hcongr
    exact ⟨hlt, hcongr⟩
  · rintro ⟨hlt, hdvd⟩
    rw [Int.sub_emod, Int.emod_eq_zero_of_dvd hdvd, sub_zero, Int.emod_emod,
      Int.emod_eq_of_lt hr hlt]

/-- The C remainder, cut to a modulus `m`, is the non-negative residue when that is below `m` and
at most a multiple of `m` has been subtracted from it. -/
theorem tmod_emod_eq_emod_iff {n m : ℤ} (hn : 0 < n) (hm : 0 < m) (x : ℤ) :
    x.tmod n % m = x % n ↔ x % n < m ∧ (0 ≤ x ∨ n ∣ x ∨ m ∣ n) := by
  have hnat : (n.natAbs : ℤ) = n := Int.natAbs_of_nonneg hn.le
  have hpos := Int.emod_nonneg x hn.ne'
  rw [Int.tmod_eq_emod, ← or_assoc]
  by_cases h : 0 ≤ x ∨ n ∣ x
  · rw [if_pos h, Nat.cast_zero, sub_emod_eq_left_iff hpos hm]
    exact and_congr_right fun _ => iff_of_true (dvd_zero m) (Or.inl h)
  · rw [if_neg h, hnat, sub_emod_eq_left_iff hpos hm, or_iff_right h]

theorem toNat_sum (l : List (BitVec w)) :
    l.sum.toNat = (l.map BitVec.toNat).sum % 2 ^ w := by
  induction l with
  | nil => exact (Nat.zero_mod _).symm
  | cons v l ih =>
    rw [List.sum_cons, BitVec.toNat_add, ih, List.map_cons, List.sum_cons, Nat.add_mod_mod]

end Wrapping

import Mathlib.Algebra.Ring.Hom.Defs
import Mathlib.Data.BitVec
import Mathlib.Data.Finset.Card
import Mathlib.Data.Nat.Cast.Basic
import Mathlib.Data.Nat.Count
import Mathlib.Order.Interval.Finset.Nat

/-! # Multiplicative hashes

A multiplicative hash is Horner's rule over the characters of its argument, in
a machine word up to the modulus. Among the values of a function along the
numbers those are new that have not come up before. For the hash of the two
digits of a number these are the first blocks, as many as the multiplier, and
after them the last number of each block.
-/

namespace Hashing

section Horner

variable {R S : Type*} [Semiring R] [Semiring S]

/-- Horner's rule: the first character takes the highest power of the multiplier. -/
def horner (m : R) (cs : List R) : R := cs.foldl (fun h c => h * m + c) 0

theorem map_horner (φ : R →+* S) (m : R) (cs : List R) :
    φ (horner m cs) = horner (φ m) (cs.map φ) := by
  rw [horner, horner, List.foldl_map, ← map_zero φ]
  exact (List.foldl_hom φ fun h c => by rw [map_add, map_mul]).symm

theorem map_horner_of_leftInverse (φ : R →+* S) {g : S → R} (hg : Function.LeftInverse φ g)
    (m : S) (cs : List S) : φ (horner (g m) (cs.map g)) = horner m cs := by
  rw [map_horner, List.map_map, hg.comp_eq_id, List.map_id, hg]

variable {w : ℕ}

theorem toNat_horner (m : BitVec w) (cs : List (BitVec w)) :
    (horner m cs).toNat = horner m.toNat (cs.map BitVec.toNat) % 2 ^ w := by
  have hcast : Function.LeftInverse (Nat.castRingHom (BitVec w)) BitVec.toNat := fun c => by
    rw [Nat.coe_castRingHom, BitVec.natCast_eq_ofNat, BitVec.ofNat_toNat, BitVec.setWidth_eq]
  rw [← map_horner_of_leftInverse _ hcast]
  exact BitVec.toNat_ofNat _ w

theorem toInt_horner (m : BitVec w) (cs : List (BitVec w)) :
    (horner m cs).toInt = (horner m.toInt (cs.map BitVec.toInt)).bmod (2 ^ w) := by
  have hcast : Function.LeftInverse (Int.castRingHom (BitVec w)) BitVec.toInt :=
    fun c => c.ofInt_toInt
  rw [← map_horner_of_leftInverse _ hcast]
  exact BitVec.toInt_ofInt _

end Horner

section Fresh

variable {α : Type*} [DecidableEq α] {f : ℕ → α}

def Fresh (f : ℕ → α) (n : ℕ) : Prop := ∀ i < n, f i ≠ f n

instance : DecidablePred (Fresh f) := fun n => Nat.decidableBallLT n fun i _ => f i ≠ f n

theorem fresh_iff_notMem {n : ℕ} : Fresh f n ↔ f n ∉ (Finset.range n).image f := by
  simp only [Fresh, Finset.mem_image, Finset.mem_range, not_exists, not_and]

theorem card_image_range (f : ℕ → α) (n : ℕ) :
    ((Finset.range n).image f).card = Nat.count (Fresh f) n := by
  induction n with
  | zero => rfl
  | succ n ih =>
    rw [Finset.range_add_one, Finset.image_insert, Nat.count_succ, ← ih]
    by_cases h : Fresh f n
    · rw [if_pos h, Finset.card_insert_of_notMem (fresh_iff_notMem.mp h)]
    · have hmem : f n ∈ (Finset.range n).image f := by
        by_contra hnot
        exact h (fresh_iff_notMem.mpr hnot)
      rw [if_neg h, Finset.insert_eq_of_mem hmem, Nat.add_zero]

end Fresh

section Digits

variable {m b : ℕ}

/-- The hash of the two digits of `i` in base `b`, the lower one first. -/
def digitHash (m b i : ℕ) : ℕ := horner m [i % b, i / b]

theorem digitHash_eq (m b i : ℕ) : digitHash m b i = i % b * m + i / b := by
  simp [digitHash, horner]

theorem digitHash_mul_add {l : ℕ} (hl : l < b) (m h : ℕ) :
    digitHash m b (b * h + l) = l * m + h := by
  rw [digitHash_eq, Nat.mul_add_mod, Nat.mod_eq_of_lt hl, Nat.mul_add_div (Nat.zero_lt_of_lt hl),
    Nat.div_eq_of_lt hl, Nat.add_zero]

theorem low_eq_of_hash_eq {l h l' h' : ℕ} (hm : 0 < m) (hle : h' ≤ h)
    (heq : l' * m + h' = l * m + h) (hcases : h < m ∨ l' ≤ l) : l' = l := by
  rcases Nat.lt_trichotomy l' l with hlt | hl | hgt
  · have hstep := Nat.mul_le_mul_right m (Nat.succ_le_of_lt hlt)
    rw [Nat.succ_mul] at hstep
    omega
  · exact hl
  · have hstep := Nat.mul_le_mul_right m (Nat.succ_le_of_lt hgt)
    rw [Nat.succ_mul] at hstep
    omega

/-- A hash beyond the first `m` blocks came up `m` blocks before, one number on, unless that lies
in the next block. -/
theorem fresh_digitHash_iff (hm : 0 < m) (hb : 0 < b) (i : ℕ) :
    Fresh (digitHash m b) i ↔ i / b < m ∨ i % b = b - 1 := by
  have hlow := Nat.mod_lt i hb
  have hsplit := Nat.div_add_mod i b
  constructor
  · intro hfresh
    by_contra hnot
    obtain ⟨hblock, hlast⟩ := not_or.mp hnot
    obtain ⟨h, hh⟩ : ∃ h, i / b = h + m := ⟨i / b - m, by omega⟩
    have hnext : i % b + 1 < b := by omega
    have hpos : b ≤ b * m := Nat.le_mul_of_pos_right b hm
    rw [hh, Nat.mul_add] at hsplit
    refine hfresh (b * h + (i % b + 1)) (by omega) ?_
    rw [digitHash_mul_add hnext, digitHash_eq, hh, Nat.add_mul]
    omega
  · intro hcases j hj heq
    rw [digitHash_eq, digitHash_eq] at heq
    have hlow' := Nat.mod_lt j hb
    have hsplit' := Nat.div_add_mod j b
    have hblock : j / b ≤ i / b := Nat.div_le_div_right hj.le
    have hdigit : j % b = i % b :=
      low_eq_of_hash_eq hm hblock heq (hcases.imp_right fun hlast => by omega)
    rw [hdigit] at heq hsplit'
    have hblocks : j / b = i / b := by omega
    rw [hblocks] at hsplit'
    omega

theorem mod_eq_pred_iff (hb : 0 < b) (t : ℕ) : t % b = b - 1 ↔ b ∣ t + 1 := by
  have hlow := Nat.mod_lt t hb
  have hdvd : b ≤ t % b + 1 ↔ b ∣ t + 1 := by
    exact_mod_cast Int.le_emod_self_add_one_iff (a := t) (Int.natCast_pos.mpr hb)
  rw [← hdvd]
  omega

theorem count_fresh_digitHash (hm : 0 < m) (hb : 0 < b) (n : ℕ) :
    Nat.count (Fresh (digitHash m b)) n = min n (m * b) + (n - m * b) / b := by
  induction n with
  | zero => simp
  | succ n ih =>
    rw [Nat.count_succ, ih, if_congr (fresh_digitHash_iff hm hb n) rfl rfl]
    rcases Nat.lt_or_ge n (m * b) with hlt | hge
    · have hblock : n / b < m := (Nat.div_lt_iff_lt_mul hb).mpr hlt
      rw [if_pos (Or.inl hblock), Nat.sub_eq_zero_of_le hlt.le, Nat.sub_eq_zero_of_le hlt]
      omega
    · obtain ⟨t, rfl⟩ := Nat.exists_eq_add_of_le hge
      have hblock : ¬ (m * b + t) / b < m := by
        rw [Nat.not_lt, Nat.le_div_iff_mul_le hb]
        exact hge
      have hmod : (m * b + t) % b = t % b := Nat.mul_add_mod' m b t
      rw [if_congr (or_iff_right hblock) rfl rfl, hmod, Nat.add_assoc, Nat.add_assoc,
        Nat.add_sub_cancel_left, Nat.add_sub_cancel_left, Nat.succ_div,
        if_congr (mod_eq_pred_iff hb t) rfl rfl, Nat.min_eq_right hge,
        Nat.min_eq_right (Nat.le_add_right _ _)]

theorem exists_digitHash_iff (hm : 0 < m) (hb : 0 < b) {c : ℕ} (hc : m ≤ c) (v : ℕ) :
    (∃ i < b * c, digitHash m b i = v) ↔ v < (b - 1) * m + c := by
  have hindex : ∀ {h l}, h < c → l < b → b * h + l < b * c := by
    intro h l hh hl
    have hle := Nat.mul_le_mul_left b (Nat.succ_le_of_lt hh)
    rw [Nat.mul_succ] at hle
    omega
  constructor
  · rintro ⟨i, hi, rfl⟩
    have hblock : i / b < c := Nat.div_lt_of_lt_mul hi
    have hlow := Nat.mod_lt i hb
    have hle := Nat.mul_le_mul_right m (by omega : i % b ≤ b - 1)
    rw [digitHash_eq]
    omega
  · intro hv
    rcases Nat.lt_or_ge v ((b - 1) * m) with hlt | hge
    · have hlow : v / m < b - 1 := (Nat.div_lt_iff_lt_mul hm).mpr hlt
      refine ⟨b * (v % m) + v / m, hindex ((Nat.mod_lt v hm).trans_le hc) (by omega), ?_⟩
      rw [digitHash_mul_add (by omega), Nat.mul_comm, Nat.div_add_mod]
    · refine ⟨b * (v - (b - 1) * m) + (b - 1), hindex (by omega) (by omega), ?_⟩
      rw [digitHash_mul_add (by omega)]
      omega

theorem card_image_digitHash (hm : 0 < m) (hb : 0 < b) (n : ℕ) :
    ((Finset.range n).image (digitHash m b)).card = min n (m * b) + (n - m * b) / b := by
  rw [card_image_range, count_fresh_digitHash hm hb]

end Digits

end Hashing

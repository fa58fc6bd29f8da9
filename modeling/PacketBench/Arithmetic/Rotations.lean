import Mathlib.Data.Nat.ModEq

/-! # Sums of rotations

An exclusive or of rotations of one word is a linear map, and applying it twice
doubles every rotation amount, as the mixed terms cancel. When the width is a
power of two, repeating this turns every rotation into the identity, so an odd
number of rotations makes an injective map.
-/

namespace Rotations

variable {w : ℕ}

theorem getLsbD_rotateLeft_add (x : BitVec w) (k : ℕ) {i : ℕ} (hi : i < w) :
    (x.rotateLeft k).getLsbD ((i + k) % w) = x.getLsbD i := by
  have hk := Nat.mod_lt k (Nat.zero_lt_of_lt hi)
  have hplace : (i + k) % w = if i + k % w < w then i + k % w else i + k % w - w := by
    rw [← Nat.add_mod_mod]
    split_ifs with h
    · exact Nat.mod_eq_of_lt h
    · rw [Nat.mod_eq_sub_mod (Nat.not_lt.mp h), Nat.mod_eq_of_lt (by omega)]
  rw [hplace, BitVec.getLsbD_rotateLeft]
  split_ifs with h
  · simp [Nat.not_lt.mpr (Nat.le_add_left _ i), h]
  · have hlow : i + k % w - w < k % w := by omega
    have hindex : w - k % w + (i + k % w - w) = i := by omega
    simp [hlow, hindex]

theorem eq_rotateLeft {x y : BitVec w} {k : ℕ}
    (h : ∀ i < w, y.getLsbD ((i + k) % w) = x.getLsbD i) : y = x.rotateLeft k := by
  refine BitVec.eq_of_getLsbD_eq fun j hj => ?_
  have hk := Nat.mod_lt k (Nat.zero_lt_of_lt hj)
  have hi : (j + (w - k % w)) % w < w := Nat.mod_lt _ (Nat.zero_lt_of_lt hj)
  have hplace : ((j + (w - k % w)) % w + k) % w = j := by
    rw [Nat.mod_add_mod, ← Nat.add_mod_mod]
    have hsum : j + (w - k % w) + k % w = j + w := by omega
    rw [hsum, Nat.add_mod_right, Nat.mod_eq_of_lt hj]
  have hleft := h _ hi
  have hright := getLsbD_rotateLeft_add x k hi
  rw [hplace] at hleft hright
  exact hleft.trans hright.symm

theorem rotateLeft_rotateLeft (x : BitVec w) (j k : ℕ) :
    (x.rotateLeft j).rotateLeft k = x.rotateLeft (j + k) := by
  refine eq_rotateLeft fun i hi => ?_
  have hj : (i + j) % w < w := Nat.mod_lt _ (Nat.zero_lt_of_lt hi)
  rw [← Nat.add_assoc, ← Nat.mod_add_mod, getLsbD_rotateLeft_add _ k hj,
    getLsbD_rotateLeft_add x j hi]

theorem xor_rotateLeft (x y : BitVec w) (k : ℕ) :
    (x ^^^ y).rotateLeft k = x.rotateLeft k ^^^ y.rotateLeft k := by
  refine (eq_rotateLeft fun i hi => ?_).symm
  rw [BitVec.getLsbD_xor, BitVec.getLsbD_xor, getLsbD_rotateLeft_add x k hi,
    getLsbD_rotateLeft_add y k hi]

theorem rotateLeft_of_dvd (x : BitVec w) {k : ℕ} (hk : w ∣ k) : x.rotateLeft k = x := by
  refine (eq_rotateLeft fun i hi => ?_).symm
  rw [Nat.add_mod, Nat.mod_eq_zero_of_dvd hk, Nat.add_zero, Nat.mod_mod, Nat.mod_eq_of_lt hi]

@[simp] theorem zero_rotateLeft (k : ℕ) : (0#w).rotateLeft k = 0#w :=
  (eq_rotateLeft fun _ _ => by rw [BitVec.getLsbD_zero, BitVec.getLsbD_zero]).symm

def rotations (ks : List ℕ) (x : BitVec w) : BitVec w :=
  ks.foldr (fun k y => x.rotateLeft k ^^^ y) 0#w

@[simp] theorem rotations_nil (x : BitVec w) : rotations [] x = 0#w := rfl

@[simp] theorem rotations_cons (k : ℕ) (ks : List ℕ) (x : BitVec w) :
    rotations (k :: ks) x = x.rotateLeft k ^^^ rotations ks x := rfl

theorem rotations_xor (ks : List ℕ) (x y : BitVec w) :
    rotations ks (x ^^^ y) = rotations ks x ^^^ rotations ks y := by
  induction ks with
  | nil => simp
  | cons k ks ih =>
    rw [rotations_cons, ih, xor_rotateLeft, rotations_cons, rotations_cons]
    ac_rfl

theorem rotations_rotateLeft (ks : List ℕ) (x : BitVec w) (j : ℕ) :
    rotations ks (x.rotateLeft j) = (rotations ks x).rotateLeft j := by
  induction ks with
  | nil => simp
  | cons k ks ih =>
    rw [rotations_cons, ih, rotateLeft_rotateLeft, Nat.add_comm, ← rotateLeft_rotateLeft,
      ← xor_rotateLeft, rotations_cons]

/-- Applying an exclusive or of rotations twice doubles the amounts: the mixed terms come in
pairs. -/
theorem rotations_rotations (ks : List ℕ) (x : BitVec w) :
    rotations ks (rotations ks x) = rotations (ks.map (2 * ·)) x := by
  induction ks with
  | nil => rfl
  | cons k ks ih =>
    have hmixed : rotations ks (x.rotateLeft k) = (rotations ks x).rotateLeft k :=
      rotations_rotateLeft ks x k
    calc rotations (k :: ks) (rotations (k :: ks) x)
        = (x.rotateLeft k).rotateLeft k ^^^ (rotations ks x).rotateLeft k ^^^
            (rotations ks (x.rotateLeft k) ^^^ rotations ks (rotations ks x)) := by
          rw [rotations_cons, rotations_cons, xor_rotateLeft, rotations_xor]
      _ = (x.rotateLeft k).rotateLeft k ^^^ rotations ks (rotations ks x) := by
          rw [hmixed, BitVec.xor_assoc, ← BitVec.xor_assoc ((rotations ks x).rotateLeft k),
            BitVec.xor_self, BitVec.zero_xor]
      _ = rotations ((k :: ks).map (2 * ·)) x := by
          rw [ih, rotateLeft_rotateLeft, ← Nat.two_mul, List.map_cons, rotations_cons]

theorem rotations_of_dvd {ks : List ℕ} (hk : ∀ k ∈ ks, w ∣ k) (x : BitVec w) :
    rotations ks x = if ks.length % 2 = 1 then x else 0#w := by
  induction ks with
  | nil => rfl
  | cons k ks ih =>
    obtain ⟨hk, hks⟩ := List.forall_mem_cons.mp hk
    rw [rotations_cons, ih hks, rotateLeft_of_dvd x hk, List.length_cons]
    rcases Nat.mod_two_eq_zero_or_one ks.length with h | h
    · rw [if_neg (by omega), if_pos (by omega), BitVec.xor_zero]
    · rw [if_pos h, if_neg (by omega), BitVec.xor_self]

/-- An odd number of rotations makes an injective map, when the amounts times a power of two are
multiples of the width. -/
theorem rotations_injective_of_dvd (m : ℕ) {ks : List ℕ} (hk : ∀ k ∈ ks, w ∣ 2 ^ m * k)
    (hodd : ks.length % 2 = 1) : Function.Injective (rotations (w := w) ks) := by
  induction m generalizing ks with
  | zero =>
    have hid : rotations (w := w) ks = id := funext fun x => by
      rw [rotations_of_dvd (fun k h => by simpa using hk k h), if_pos hodd, id]
    exact hid ▸ Function.injective_id
  | succ m ih =>
    have hdouble : ∀ k ∈ ks.map (2 * ·), w ∣ 2 ^ m * k := by
      rw [List.forall_mem_map]
      intro k h
      rw [← Nat.mul_assoc, ← Nat.pow_succ]
      exact hk k h
    have htwice := ih hdouble (by rwa [List.length_map])
    have hcomp : rotations (w := w) ks ∘ rotations ks = rotations (ks.map (2 * ·)) :=
      funext (rotations_rotations ks)
    exact (hcomp ▸ htwice).of_comp

theorem rotations_injective {m : ℕ} {ks : List ℕ} (hodd : ks.length % 2 = 1) :
    Function.Injective (rotations (w := 2 ^ m) ks) :=
  rotations_injective_of_dvd m (fun _ _ => Nat.dvd_mul_right _ _) hodd

end Rotations

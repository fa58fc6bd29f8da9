import PacketBench.Zuc.Register

/-! # The feedback of the initialisation mode

`LFSRWithInitialisationMode` lacks the assignment of `S0` to its local variable
that `LFSRWithWorkMode` starts with. It feeds back what the variable happens to
hold in place of `S0`, and a value from `2 ^ 31` on can even leave the range of
the cells.
-/

namespace PacketBench.Zuc

open OnesComplement

/-- The sum that the initialisation mode should feed back, as a number. -/
def initialisationSum (s : Fin 16 → BitVec 32) (u : BitVec 32) : ℕ := feedbackSum s + u.toNat

/-- Every cell has the value of the next one, and the last one the value of its range with the
residue of the feedback. -/
structure InitialisationStep (u : BitVec 32) (g g' : Registers) : Prop where
  shifted : ∀ i : Fin 16, ∀ h : i.val + 1 < 16, g'.lfsrS i = g.lfsrS ⟨i.val + 1, h⟩
  newest : IsResidue (2 ^ 31) (initialisationSum g.lfsrS u) (g'.lfsrS 15).toNat

/-- `MulByPow2(2 ^ 31 + m, 8)`: the top bit lands on bit 8. -/
def leftoverProduct (m : ℕ) : ℕ := carry (2 ^ 31) (m * 2 ^ 8) + 2 ^ 8 * (1 - m % 2)

/-- What a leftover `2 ^ 31 + m` adds to the feedback. -/
def leftoverTerm (m : ℕ) : ℕ :=
  let sum := m + leftoverProduct m
  if sum < 2 ^ 31 then sum + 1 else sum - 2 ^ 31

theorem or_one (a : ℕ) : a ||| 1 = a + (1 - a % 2) := by
  have hbit : ∀ b, 2 ^ 1 * b ||| 1 = 2 ^ 1 * b + 1 :=
    fun b => (Nat.two_pow_add_eq_or_of_lt (by decide) b).symm
  have hsplit := Nat.mod_add_div a 2
  rcases Nat.mod_two_eq_zero_or_one a with heven | hodd
  · have ha : a = 2 ^ 1 * (a / 2) := by omega
    conv_lhs => rw [ha, hbit]
    omega
  · have ha : a = 2 ^ 1 * (a / 2) + 1 := by omega
    conv_lhs => rw [ha, ← hbit, Nat.or_assoc, Nat.or_self, hbit]
    omega

theorem mulByPow2_leftover {l : BitVec 32} (hl : 2 ^ 31 ≤ l.toNat) :
    (mulByPow2 l 8).toNat = leftoverProduct (l.toNat - 2 ^ 31) := by
  obtain ⟨m, hm⟩ : ∃ m, l.toNat = 2 ^ 31 + m := ⟨l.toNat - 2 ^ 31, by omega⟩
  have hlt : m < 2 ^ 31 := by
    have := l.isLt
    omega
  have hhigh : m / 2 ^ 23 < 2 ^ 8 := by omega
  have hlow : (2 ^ 31 + m) % 2 ^ (31 - 8) = m % 2 ^ 23 := by omega
  have hdiv : (2 ^ 31 + m) / 2 ^ (31 - 8) = 2 ^ 8 * 1 + m / 2 ^ 23 := by omega
  have hbit : m % 2 ^ 23 % 2 = m % 2 := by omega
  have hor : m % 2 ^ 23 * 2 ^ 8 ||| 2 ^ 8 * 1 = 2 ^ 8 * (m % 2 ^ 23 + (1 - m % 2)) := by
    rw [← hbit, ← or_one, Nat.mul_comm (2 ^ 8), Nat.mul_comm (2 ^ 8), ← Nat.shiftLeft_eq,
      ← Nat.shiftLeft_eq, ← Nat.shiftLeft_eq, Nat.shiftLeft_or_distrib]
  have hrot : carry (2 ^ 31) (m * 2 ^ 8) = m % 2 ^ 23 * 2 ^ 8 + m / 2 ^ 23 :=
    carry_mul (c := 2 ^ 8) (d := 2 ^ 23) (by decide) hlt
  rw [toNat_mulByPow2 l (by decide), hm, hlow, hdiv, Nat.two_pow_add_eq_or_of_lt hhigh,
    ← Nat.or_assoc, hor, ← Nat.two_pow_add_eq_or_of_lt hhigh, Nat.add_sub_cancel_left,
    leftoverProduct, hrot]
  ring

theorem contribution_leftover {l : BitVec 32} (hl : 2 ^ 31 ≤ l.toNat) :
    (contribution l).toNat = leftoverTerm (l.toNat - 2 ^ 31) := by
  have hproduct := mulByPow2_leftover hl
  have hlt := toNat_mulByPow2_lt l 8
  have hsum : (l + mulByPow2 l 8).toNat = (l.toNat + (mulByPow2 l 8).toNat) % 2 ^ 32 :=
    BitVec.toNat_add _ _
  rw [contribution, toNat_addM, hsum, leftoverTerm, ← hproduct]
  split_ifs <;> omega

theorem contribution_le (l : BitVec 32) : (contribution l).toNat ≤ 2 ^ 31 := by
  rw [contribution, toNat_addM]
  have hlt := (l + mulByPow2 l 8).isLt
  omega

theorem initialisation_eq_foldl (l u : BitVec 32) (g : Registers) :
    (lfsrWithInitialisationMode l u g).lfsrS 15 =
      (terms g.lfsrS ++ [u]).foldl addM (contribution l) := by
  rw [List.foldl_append, ← feedback_eq_foldl]
  rfl

theorem mulByPow2_eq_max_iff {x : BitVec 32} (hx : IsCell x) {k : ℕ} (hk : k ≤ 30) :
    (mulByPow2 x k).toNat = 2 ^ 31 - 1 ↔ x.toNat = 2 ^ 31 - 1 := by
  have hsplit : (2 : ℕ) ^ 31 = 2 ^ k * 2 ^ (31 - k) := (pow_mul_pow_sub 2 (by omega)).symm
  have hmax := carry_mul_eq_max_iff (c := 2 ^ k) (Nat.two_pow_pos (31 - k)) (hsplit ▸ hx.2)
  rw [← hsplit] at hmax
  rw [mulByPow2_eq_carry hx.2 hk, hmax]

/-- All that the initialisation mode adds is `2 ^ 31 - 1`. -/
def AllMax (s : Fin 16 → BitVec 32) (u : BitVec 32) : Prop :=
  (∀ i ∈ [4, 10, 13, 15], (cell s i).toNat = 2 ^ 31 - 1) ∧ u.toNat = 2 ^ 31 - 1

theorem allMax_cells (s : Fin 16 → BitVec 32) (u : BitVec 32) : AllMax s u ↔
    ((s 4).toNat = 2 ^ 31 - 1 ∧ (s 10).toNat = 2 ^ 31 - 1 ∧ (s 13).toNat = 2 ^ 31 - 1 ∧
      (s 15).toNat = 2 ^ 31 - 1) ∧ u.toNat = 2 ^ 31 - 1 := by
  simp only [AllMax, List.forall_mem_cons, List.not_mem_nil, false_implies, implies_true, and_true]
  exact Iff.rfl

theorem allMax_iff {s : Fin 16 → BitVec 32} (hs : Ranged s) (u : BitVec 32) :
    (∀ a ∈ terms s ++ [u], a.toNat = 2 ^ 31 - 1) ↔ AllMax s u := by
  rw [List.forall_mem_append, List.forall_mem_singleton, allMax_cells,
    ← mulByPow2_eq_max_iff (hs 4) (by decide : 20 ≤ 30),
    ← mulByPow2_eq_max_iff (hs 10) (by decide : 21 ≤ 30),
    ← mulByPow2_eq_max_iff (hs 13) (by decide : 17 ≤ 30),
    ← mulByPow2_eq_max_iff (hs 15) (by decide : 15 ≤ 30)]
  simp only [terms_eq, List.forall_mem_cons, List.not_mem_nil, false_implies, implies_true,
    and_true]

section NewCell

variable {g : Registers} {u : BitVec 32}

theorem summed_terms (l : BitVec 32) (hu : u.toNat < 2 ^ 31) :
    Summed (contribution l) (terms g.lfsrS ++ [u]) :=
  summed (contribution_le l)
    (List.forall_mem_append.mpr ⟨terms_lt g.lfsrS, List.forall_mem_singleton.mpr hu⟩)

theorem newest_pos (hg : Ranged g.lfsrS) (l : BitVec 32) (hu : u.toNat < 2 ^ 31) :
    0 < ((lfsrWithInitialisationMode l u g).lfsrS 15).toNat := by
  refine Nat.pos_of_ne_zero fun hzero => ?_
  rw [initialisation_eq_foldl] at hzero
  have hterm : (mulByPow2 (g.lfsrS 4) 20).toNat = 0 :=
    ((summed_terms l hu).eq_zero.mp hzero).2 _ List.mem_cons_self
  exact (((hg 4).mulByPow2 (k := 20) (by decide)).1.1).ne' hterm

theorem newest_lt_iff (hg : Ranged g.lfsrS) (l : BitVec 32) (hu : u.toNat < 2 ^ 31) :
    ((lfsrWithInitialisationMode l u g).lfsrS 15).toNat < 2 ^ 31 ↔
      ¬ ((contribution l).toNat = 2 ^ 31 ∧ AllMax g.lfsrS u) := by
  have hsum := summed_terms (g := g) l hu
  rw [← allMax_iff hg u, ← hsum.eq_top, initialisation_eq_foldl]
  exact hsum.le.lt_iff_ne

theorem newest_modEq (hg : Ranged g.lfsrS) (l : BitVec 32) (hu : u.toNat < 2 ^ 31) :
    ((lfsrWithInitialisationMode l u g).lfsrS 15).toNat ≡
      (contribution l).toNat + (termsSum g.lfsrS + u.toNat) [MOD 2 ^ 31 - 1] := by
  have htotal : ((terms g.lfsrS ++ [u]).map BitVec.toNat).sum ≡ termsSum g.lfsrS + u.toNat
      [MOD 2 ^ 31 - 1] := by
    rw [List.map_append, List.sum_append, List.map_singleton, List.sum_singleton]
    exact (sum_terms hg).add_right _
  rw [initialisation_eq_foldl]
  exact (summed_terms l hu).modEq.trans (htotal.add_left _)

theorem newest_modEq_iff (hg : Ranged g.lfsrS) (l : BitVec 32) (hu : u.toNat < 2 ^ 31) :
    ((lfsrWithInitialisationMode l u g).lfsrS 15).toNat ≡ initialisationSum g.lfsrS u
        [MOD 2 ^ 31 - 1] ↔
      (contribution l).toNat ≡ (1 + 2 ^ 8) * (g.lfsrS 0).toNat [MOD 2 ^ 31 - 1] := by
  have hnewest := newest_modEq hg l hu
  have hform : initialisationSum g.lfsrS u =
      (1 + 2 ^ 8) * (g.lfsrS 0).toNat + (termsSum g.lfsrS + u.toNat) := by
    rw [initialisationSum, feedbackSum_eq]
    ring
  rw [hform]
  constructor
  · exact fun h => (hnewest.symm.trans h).add_right_cancel'
  · exact fun h => hnewest.trans (h.add_right _)

/-- The new cell is right exactly when the leftover adds the residue of `(1 + 2 ^ 8) * S0` and does
not lift the sum out of the range. -/
theorem initialisationStep_iff_contribution (hg : Ranged g.lfsrS) (l : BitVec 32)
    (hu : u.toNat < 2 ^ 31) :
    InitialisationStep u g (lfsrWithInitialisationMode l u g) ↔
      (contribution l).toNat ≡ (1 + 2 ^ 8) * (g.lfsrS 0).toNat [MOD 2 ^ 31 - 1] ∧
        ¬ ((contribution l).toNat = 2 ^ 31 ∧ AllMax g.lfsrS u) := by
  rw [← newest_modEq_iff hg l hu, ← newest_lt_iff hg l hu]
  constructor
  · rintro ⟨-, -, hrange, hresidue⟩
    exact ⟨hresidue, hrange⟩
  · rintro ⟨hresidue, hrange⟩
    exact ⟨fun i h => shift_of_lt _ _ i h, newest_pos hg l hu, hrange, hresidue⟩

end NewCell

/-- The leftover stands for `S0`: below `2 ^ 31` it has its residue, and from there on what it adds
has the residue of `(1 + 2 ^ 8) * S0` and leaves the sum in the range. -/
def StandsForS0 (l u : BitVec 32) (s : Fin 16 → BitVec 32) : Prop :=
  if l.toNat < 2 ^ 31 then l.toNat ≡ (cell s 0).toNat [MOD 2 ^ 31 - 1]
  else leftoverTerm (l.toNat - 2 ^ 31) ≡ (1 + 2 ^ 8) * (cell s 0).toNat [MOD 2 ^ 31 - 1] ∧
    ¬ (leftoverTerm (l.toNat - 2 ^ 31) = 2 ^ 31 ∧ AllMax s u)

/-- The initialisation mode feeds the right value back exactly when the leftover stands for `S0`. -/
theorem initialisationStep_iff (g : Registers) (hg : Ranged g.lfsrS) (l u : BitVec 32)
    (hu : u.toNat < 2 ^ 31) :
    InitialisationStep u g (lfsrWithInitialisationMode l u g) ↔ StandsForS0 l u g.lfsrS := by
  rw [initialisationStep_iff_contribution hg l hu, StandsForS0]
  split_ifs with hl
  · obtain ⟨hlt, hmod⟩ := contribution_of_lt hl
    rw [and_iff_left fun h => hlt.ne h.1, ← mul_257_modEq_iff l.toNat]
    exact ⟨fun h => hmod.symm.trans h, fun h => hmod.trans h⟩
  · rw [contribution_leftover (Nat.le_of_not_lt hl)]
    exact Iff.rfl

theorem initialisationStep_iff_ones :
    InitialisationStep 5 onesRegisters (lfsrWithInitialisationMode 1 5 onesRegisters) :=
  (initialisationStep_iff onesRegisters ranged_onesRegisters 1 5 (by decide)).mpr <| by
    rw [StandsForS0, if_pos (by decide)]
    exact Nat.ModEq.refl _

/-- A leftover 0 loses the cell `S0`. -/
theorem not_initialisationStep : Ranged onesRegisters.lfsrS ∧
    ¬ InitialisationStep 5 onesRegisters (lfsrWithInitialisationMode 0 5 onesRegisters) := by
  refine ⟨ranged_onesRegisters, fun h => ?_⟩
  have hcontribution := ((initialisationStep_iff_contribution ranged_onesRegisters 0
    (by decide)).mp h).1
  revert hcontribution
  decide

end PacketBench.Zuc

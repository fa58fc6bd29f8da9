import PacketBench.Zuc.Register
import Mathlib

/-! # The shift register as a linear recurrence

The residues of the cells are a window that moves along one sequence, the
solution of a linear recurrence of order 16 modulo `2 ^ 31 - 1`. So the cells
after any number of steps are determined by the terms of this sequence alone.
-/

namespace PacketBench.Zuc

open OnesComplement

/-- The residues that the cells stand for. -/
abbrev Residue := ZMod (2 ^ 31 - 1)

def tap : ℕ → ℕ
  | 15 => 2 ^ 15
  | 13 => 2 ^ 17
  | 10 => 2 ^ 21
  | 4 => 2 ^ 20
  | 0 => 1 + 2 ^ 8
  | _ => 0

def taps : Fin 16 → Residue := fun i => tap i

def recurrence : LinearRecurrence Residue := ⟨16, taps⟩

def residues (s : Fin 16 → BitVec 32) : Fin 16 → Residue := fun i => (s i).toNat

/-- The sequence that starts with the residues of the cells. -/
def sequence (s : Fin 16 → BitVec 32) : ℕ → Residue := recurrence.mkSol (residues s)

variable {g : Registers} {s : Fin 16 → BitVec 32}

theorem sum_taps (x : Fin 16 → Residue) : ∑ i, taps i * x i =
    2 ^ 15 * x 15 + 2 ^ 17 * x 13 + 2 ^ 21 * x 10 + 2 ^ 20 * x 4 + (1 + 2 ^ 8) * x 0 := by
  have hrest (i : Fin 16) (h : i ∉ ({15, 13, 10, 4, 0} : Finset (Fin 16))) : taps i * x i = 0 := by
    have hzero : tap i = 0 := by
      revert i
      decide
    rw [taps, hzero, Nat.cast_zero, zero_mul]
  rw [← Finset.sum_subset (Finset.subset_univ {15, 13, 10, 4, 0}) fun i _ hi => hrest i hi,
    Finset.sum_insert (by decide), Finset.sum_insert (by decide), Finset.sum_insert (by decide),
    Finset.sum_insert (by decide), Finset.sum_singleton]
  norm_num [taps, tap, add_assoc]

theorem natCast_feedbackSum (s : Fin 16 → BitVec 32) :
    (feedbackSum s : Residue) = ∑ i, taps i * residues s i := by
  rw [sum_taps, feedbackSum_eq, termsSum_eq]
  push_cast
  rfl

theorem sequence_of_lt (i : Fin 16) : sequence s i = residues s i :=
  recurrence.mkSol_eq_init (residues s) i

theorem sequence_add (n : ℕ) : sequence s (n + 16) = ∑ i : Fin 16, taps i * sequence s (n + i) :=
  recurrence.is_sol_mkSol (residues s) n

/-- The window at the terms from index `n` on. -/
def Window (s : Fin 16 → BitVec 32) (n : ℕ) (t : Fin 16 → BitVec 32) : Prop :=
  ∀ i, residues t i = sequence s (n + i)

theorem window_zero : Window s 0 s := by
  intro i
  rw [Nat.zero_add, sequence_of_lt]

theorem Window.feedback {n : ℕ} {t : Fin 16 → BitVec 32} (h : Window s n t) (ht : Ranged t) :
    ((feedback (t 0) t).toNat : Residue) = sequence s (n + 16) := by
  have hmod := (isResidue_feedback ht).modEq
  rw [sequence_add]
  calc ((Zuc.feedback (t 0) t).toNat : Residue) = (feedbackSum t : Residue) :=
        (ZMod.natCast_eq_natCast_iff _ _ _).mpr hmod
    _ = ∑ i, taps i * residues t i := natCast_feedbackSum t
    _ = ∑ i : Fin 16, taps i * sequence s (n + i) := by simp only [h _]

/-- The work mode moves the window on by one term. -/
theorem Window.workMode {n : ℕ} (h : Window s n g.lfsrS) (hg : Ranged g.lfsrS) :
    Window s (n + 1) (lfsrWithWorkMode g).lfsrS := by
  intro i
  by_cases hi : i.val + 1 < 16
  · have hshift : (lfsrWithWorkMode g).lfsrS i = g.lfsrS ⟨i.val + 1, hi⟩ :=
      (workStep hg).shifted i hi
    have hnext := h ⟨i.val + 1, hi⟩
    rw [residues, hshift, Nat.add_right_comm]
    exact hnext
  · have hlast : (lfsrWithWorkMode g).lfsrS i = Zuc.feedback (g.lfsrS 0) g.lfsrS := dif_neg hi
    have hindex : n + 1 + i.val = n + 16 := by omega
    rw [residues, hlast, hindex]
    exact h.feedback hg

theorem Window.keystreamWords {k : ℕ} (h : Window s k g.lfsrS) (hg : Ranged g.lfsrS) (n : ℕ) :
    Window s (k + n) (keystreamWords n g).2.lfsrS := by
  induction n generalizing g k with
  | zero => exact h
  | succ n ih =>
    have hnext : Window s (k + 1) (keystreamStep g).2.lfsrS := h.workMode hg
    have hrest := ih hnext (ranged_workMode hg)
    rw [Nat.add_right_comm] at hrest
    exact hrest

/-- After any number of steps a cell holds the only value of its range that stands for its term of
the sequence. -/
theorem keystream_recurrence (g : Registers) (hg : Ranged g.lfsrS) (n : ℕ) (i : Fin 16)
    (v : BitVec 32) : v = (keystreamWords n g).2.lfsrS i ↔
      IsCell v ∧ (v.toNat : Residue) = sequence g.lfsrS (n + i) := by
  have hwindow := (window_zero.keystreamWords hg n) i
  have hcell := ranged_keystreamWords hg n i
  rw [Nat.zero_add] at hwindow
  rw [← hwindow]
  constructor
  · rintro rfl
    exact ⟨hcell, rfl⟩
  · rintro ⟨hv, hmod⟩
    have hmod := (ZMod.natCast_eq_natCast_iff _ _ _).mp hmod
    have hresidue : IsResidue (2 ^ 31) v.toNat ((Zuc.keystreamWords n g).2.lfsrS i).toNat :=
      ⟨hcell.1, hcell.2, hmod.symm⟩
    apply BitVec.eq_of_toNat_eq
    exact IsResidue.unique ⟨hv.1, hv.2, Nat.ModEq.refl _⟩ hresidue

theorem keystream_recurrence_ones :
    IsCell ((keystreamWords 5 onesRegisters).2.lfsrS 3) ∧
      (((keystreamWords 5 onesRegisters).2.lfsrS 3).toNat : Residue) =
        sequence onesRegisters.lfsrS (5 + 3) :=
  (keystream_recurrence onesRegisters ranged_onesRegisters 5 3 _).mp rfl

end PacketBench.Zuc

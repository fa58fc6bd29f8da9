import PacketBench.Arithmetic.Rotations
import PacketBench.Zuc.Register

/-! # No two states merge

Every layer of a keystream step can be undone. The feedback gives `S0` back as
257 has an inverse, the two linear maps are sums of five rotations, the s-boxes
are permutations, and `F` only regroups the halves of its two words.
-/

namespace PacketBench.Zuc

open OnesComplement Rotations

theorem rot_eq_rotateLeft (a : BitVec 32) {k : ℕ} (hk : k < 32) : rot a k = a.rotateLeft k := by
  rw [BitVec.rotateLeft_def, Nat.mod_eq_of_lt hk]
  rfl

theorem xor_rot_injective {a b c d : ℕ} (ha : a < 32) (hb : b < 32) (hc : c < 32) (hd : d < 32) :
    Function.Injective fun x => x ^^^ rot x a ^^^ rot x b ^^^ rot x c ^^^ rot x d := by
  have hrotations : ∀ x : BitVec 32, x ^^^ rot x a ^^^ rot x b ^^^ rot x c ^^^ rot x d =
      rotations [0, a, b, c, d] x := by
    intro x
    simp only [rotations_cons, rotations_nil, BitVec.xor_zero, ← BitVec.xor_assoc]
    rw [rotateLeft_of_dvd x (Nat.dvd_zero 32), rot_eq_rotateLeft x ha, rot_eq_rotateLeft x hb,
      rot_eq_rotateLeft x hc, rot_eq_rotateLeft x hd]
  rw [funext hrotations]
  exact rotations_injective (m := 5) (by simp)

theorem l1_injective : Function.Injective l1 :=
  xor_rot_injective (by decide) (by decide) (by decide) (by decide)

theorem l2_injective : Function.Injective l2 :=
  xor_rot_injective (by decide) (by decide) (by decide) (by decide)

/-- No number of the list repeats, and none has its bit set in `seen`. -/
def distinctFrom : ℕ → List ℕ → Bool
  | _, [] => true
  | seen, n :: ns => !seen.testBit n && distinctFrom (seen ||| 2 ^ n) ns

theorem nodup_of_distinctFrom {seen : ℕ} {ns : List ℕ} (h : distinctFrom seen ns) :
    ns.Nodup ∧ ∀ n ∈ ns, seen.testBit n = false := by
  induction ns generalizing seen with
  | nil => exact ⟨List.nodup_nil, List.forall_mem_nil _⟩
  | cons n ns ih =>
    obtain ⟨hn, hns⟩ := Bool.and_eq_true_iff.mp h
    obtain ⟨hnodup, hseen⟩ := ih hns
    simp only [Nat.testBit_or, Bool.or_eq_false_iff] at hseen
    refine ⟨List.nodup_cons.mpr ⟨fun hmem => ?_, hnodup⟩,
      List.forall_mem_cons.mpr ⟨by simpa using hn, fun i hi => (hseen i hi).1⟩⟩
    simpa using (hseen n hmem).2

theorem sbox_injective {s : Array (BitVec 8)} (hsize : s.size = 256)
    (hs : distinctFrom 0 (s.toList.map BitVec.toNat)) : Function.Injective (sbox s) := by
  have hnodup := (nodup_of_distinctFrom hs).1.of_map
  have hlen : ∀ i : BitVec 8, i.toNat < s.toList.length := by
    intro i
    rw [Array.length_toList, hsize]
    exact i.isLt
  have hget : ∀ i : BitVec 8, sbox s i = s.toList.get ⟨i.toNat, hlen i⟩ := by
    intro i
    simp [sbox, Array.getD, Array.length_toList ▸ hlen i]
  intro i j h
  rw [hget, hget] at h
  exact BitVec.eq_of_toNat_eq (hnodup.getElem_inj_iff.mp h)

theorem sbox_s0_injective : Function.Injective (sbox s0) :=
  sbox_injective (by decide +kernel) (by decide +kernel)

theorem sbox_s1_injective : Function.Injective (sbox s1) :=
  sbox_injective (by decide +kernel) (by decide +kernel)

theorem append_eq_append_iff {v w : ℕ} {a a' : BitVec v} {b b' : BitVec w} :
    a ++ b = a' ++ b' ↔ a = a' ∧ b = b' := by
  constructor
  · intro h
    have hleft := congrArg (BitVec.extractLsb' w v) h
    have hright := congrArg (BitVec.extractLsb' 0 w) h
    rw [BitVec.extractLsb'_append_eq_left, BitVec.extractLsb'_append_eq_left] at hleft
    rw [BitVec.extractLsb'_append_eq_right, BitVec.extractLsb'_append_eq_right] at hright
    exact ⟨hleft, hright⟩
  · rintro ⟨rfl, rfl⟩
    rfl

theorem makeU32_eq_append (a b c d : BitVec 8) : makeU32 a b c d = a ++ b ++ c ++ d := by
  unfold makeU32
  ext i hi
  simp only [BitVec.getElem_or, BitVec.getElem_shiftLeft, BitVec.getElem_setWidth]
  grind

theorem append_bytes (u : BitVec 32) :
    (u >>> 24).setWidth 8 ++ (u >>> 16 &&& 0xFF).setWidth 8 ++
      (u >>> 8 &&& 0xFF).setWidth 8 ++ (u &&& 0xFF).setWidth 8 = u := by
  have hmask : ∀ i < 8, (0xFF : BitVec 32).getLsbD i = true := by decide
  refine BitVec.eq_of_getLsbD_eq fun i hi => ?_
  simp only [BitVec.getLsbD_append, BitVec.getLsbD_setWidth, BitVec.getLsbD_and,
    BitVec.getLsbD_ushiftRight]
  grind

theorem substitute_injective : Function.Injective substitute := by
  intro u v h
  rw [substitute, substitute, makeU32_eq_append, makeU32_eq_append, append_eq_append_iff,
    append_eq_append_iff, append_eq_append_iff] at h
  obtain ⟨⟨⟨h₃, h₂⟩, h₁⟩, h₀⟩ := h
  rw [← append_bytes u, ← append_bytes v, sbox_s0_injective h₃, sbox_s1_injective h₂,
    sbox_s0_injective h₁, sbox_s1_injective h₀]

theorem crossed_halves (w₁ w₂ : BitVec 32) :
    (w₁ <<< 16) ||| (w₂ >>> 16) = lowHalf w₁ ++ w₂.extractLsb' 16 16 := by
  refine BitVec.eq_of_getLsbD_eq fun i hi => ?_
  simp only [BitVec.getLsbD_append, BitVec.getLsbD_or, BitVec.getLsbD_shiftLeft,
    BitVec.getLsbD_ushiftRight, lowHalf, BitVec.getLsbD_extractLsb']
  grind

theorem append_halves (w : BitVec 32) : w.extractLsb' 16 16 ++ lowHalf w = w := by
  unfold lowHalf
  exact BitVec.extractLsb'_append_extractLsb'

theorem crossed_inj {w₁ w₂ w₁' w₂' : BitVec 32}
    (hu : (w₁ <<< 16) ||| (w₂ >>> 16) = (w₁' <<< 16) ||| (w₂' >>> 16))
    (hv : (w₂ <<< 16) ||| (w₁ >>> 16) = (w₂' <<< 16) ||| (w₁' >>> 16)) : w₁ = w₁' ∧ w₂ = w₂' := by
  rw [crossed_halves, crossed_halves, append_eq_append_iff] at hu hv
  obtain ⟨hlow₁, hhigh₂⟩ := hu
  obtain ⟨hlow₂, hhigh₁⟩ := hv
  constructor
  · rw [← append_halves w₁, ← append_halves w₁', hlow₁, hhigh₁]
  · rw [← append_halves w₂, ← append_halves w₂', hlow₂, hhigh₂]

theorem f_inj {g g' : Registers} (hX₁ : g.brcX1 = g'.brcX1) (hX₂ : g.brcX2 = g'.brcX2)
    (h₁ : (f g).2.fR1 = (f g').2.fR1) (h₂ : (f g).2.fR2 = (f g').2.fR2) :
    g.fR1 = g'.fR1 ∧ g.fR2 = g'.fR2 := by
  have hu := l1_injective (substitute_injective h₁)
  have hv := l2_injective (substitute_injective h₂)
  obtain ⟨hw₁, hw₂⟩ := crossed_inj hu hv
  rw [hX₁] at hw₁
  rw [hX₂] at hw₂
  exact ⟨(BitVec.add_left_inj _).mp hw₁, (BitVec.xor_left_inj _).mp hw₂⟩

theorem eq_of_shift_eq {s s' : Fin 16 → BitVec 32} {v v' : BitVec 32}
    (h : shift s v = shift s' v') : (∀ i : Fin 16, 0 < i.val → s i = s' i) ∧ v = v' := by
  constructor
  · intro i hi
    have hcell := congrFun h ⟨i.val - 1, by omega⟩
    have hlt : i.val - 1 + 1 < 16 := by omega
    rw [shift_of_lt s v _ hlt, shift_of_lt s' v' _ hlt] at hcell
    have hindex : (⟨i.val - 1 + 1, hlt⟩ : Fin 16) = i := Fin.ext (Nat.sub_add_cancel hi)
    rwa [hindex] at hcell
  · exact congrFun h 15

theorem feedback_inj {s s' : Fin 16 → BitVec 32} (hs : Ranged s) (hs' : Ranged s')
    (hcells : ∀ i : Fin 16, 0 < i.val → s i = s' i)
    (h : feedback (s 0) s = feedback (s' 0) s') : s 0 = s' 0 := by
  have hterms : termsSum s = termsSum s' := by
    rw [termsSum_eq, termsSum_eq, hcells 4 (by decide), hcells 10 (by decide),
      hcells 13 (by decide), hcells 15 (by decide)]
  have hsum := (isResidue_feedback hs).modEq.symm.trans (h ▸ (isResidue_feedback hs').modEq)
  rw [feedbackSum_eq, feedbackSum_eq, hterms] at hsum
  have hmod := (mul_257_modEq_iff _ _).mp (Nat.ModEq.add_left_cancel' _ hsum)
  have hcell : IsResidue (2 ^ 31) (s' 0).toNat (s 0).toNat := ⟨(hs 0).1, (hs 0).2, hmod⟩
  have hcell' : IsResidue (2 ^ 31) (s' 0).toNat (s' 0).toNat := ⟨(hs' 0).1, (hs' 0).2, rfl⟩
  exact BitVec.eq_of_toNat_eq (hcell.unique hcell')

theorem agree_of_keystreamStep {g g' : Registers} (hg : Ranged g.lfsrS) (hg' : Ranged g'.lfsrS)
    (h : Agree 16 (keystreamStep g).2 (keystreamStep g').2) : Agree 16 g g' := by
  have hshift : shift g.lfsrS (feedback (g.lfsrS 0) g.lfsrS) =
      shift g'.lfsrS (feedback (g'.lfsrS 0) g'.lfsrS) := h.lfsrS_eq
  obtain ⟨hcells, hlast⟩ := eq_of_shift_eq hshift
  have hfirst := feedback_inj hg hg' hcells hlast
  have hX₁ : (bitReorganization g).brcX1 = (bitReorganization g').brcX1 := by
    simp only [bitReorganization, hcells 11 (by decide), hcells 9 (by decide)]
  have hX₂ : (bitReorganization g).brcX2 = (bitReorganization g').brcX2 := by
    simp only [bitReorganization, hcells 7 (by decide), hcells 5 (by decide)]
  obtain ⟨h₁, h₂⟩ := f_inj hX₁ hX₂ h.fR1 h.fR2
  refine ⟨fun i _ => ?_, h₁, h₂⟩
  rcases Nat.eq_zero_or_pos i.val with hi | hi
  · obtain rfl : i = 0 := Fin.ext hi
    exact hfirst
  · exact hcells i hi

theorem agree_of_keystreamWords {g g' : Registers} (hg : Ranged g.lfsrS) (hg' : Ranged g'.lfsrS)
    (n : ℕ) (h : Agree 16 (keystreamWords n g).2 (keystreamWords n g').2) : Agree 16 g g' := by
  induction n generalizing g g' with
  | zero => exact h
  | succ n ih =>
    exact agree_of_keystreamStep hg hg' (ih (ranged_workMode hg) (ranged_workMode hg') h)

theorem agree_of_generateKeystream {g g' : Registers} (hg : Ranged g.lfsrS)
    (hg' : Ranged g'.lfsrS) (n : ℕ)
    (h : Agree 16 (generateKeystream n g).2 (generateKeystream n g').2) : Agree 16 g g' :=
  agree_of_keystreamStep hg hg'
    (agree_of_keystreamWords (ranged_workMode hg) (ranged_workMode hg') n h)

/-- Two states that agree after a step, after any number of steps or after the generator agreed
before. -/
theorem keystream_injective (g g' : Registers) (hg : Ranged g.lfsrS) (hg' : Ranged g'.lfsrS) :
    (Agree 16 (keystreamStep g).2 (keystreamStep g').2 → Agree 16 g g') ∧
      ∀ n, (Agree 16 (keystreamWords n g).2 (keystreamWords n g').2 → Agree 16 g g') ∧
        (Agree 16 (generateKeystream n g).2 (generateKeystream n g').2 → Agree 16 g g') :=
  ⟨agree_of_keystreamStep hg hg', fun n =>
    ⟨agree_of_keystreamWords hg hg' n, agree_of_generateKeystream hg hg' n⟩⟩

theorem keystream_injective_ones : ¬ Agree 16 (keystreamWords 5 onesRegisters).2
    (keystreamWords 5 { onesRegisters with fR1 := 1 }).2 := fun h =>
  absurd ((keystream_injective onesRegisters { onesRegisters with fR1 := 1 }
    ranged_onesRegisters ranged_onesRegisters).2 5 |>.1 h).fR1 (by decide)

end PacketBench.Zuc

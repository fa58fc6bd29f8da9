import PacketBench.Zuc.Cipher

/-! # Two calls of `EEA3` with one key

Nothing that the registers hold before a call reaches its keystream. What the
uninitialised variable holds does: every round of the initialisation adds it to
the new cell of the shift register, and two calls need not find the same.
-/

namespace PacketBench.Zuc

/-- What the uninitialised variable adds to the new cell. -/
def contribution (l : BitVec 32) : BitVec 32 := addM l (mulByPow2 l 8)

theorem feedback_eq (l : BitVec 32) (s : Fin 16 → BitVec 32) :
    feedback l s = addM (addM (addM (addM (contribution l) (mulByPow2 (s 4) 20))
      (mulByPow2 (s 10) 21)) (mulByPow2 (s 13) 17)) (mulByPow2 (s 15) 15) := rfl

def newCell (l : BitVec 32) (g : Registers) : BitVec 32 :=
  addM (feedback l g.lfsrS) ((f (bitReorganization g)).1 >>> 1)

def initRound (l : BitVec 32) (g : Registers) : Registers :=
  { (f (bitReorganization g)).2 with lfsrS := shift g.lfsrS (newCell l g) }

theorem initRounds_concat (ls : List (BitVec 32)) (l : BitVec 32) (g : Registers) :
    initRounds (ls ++ [l]) g = initRound l (initRounds ls g) := by
  induction ls generalizing g with
  | nil => rfl
  | cons k ls ih => exact ih (initRound k g)

/-- Agreement in the cells below `n` and the registers of `F`; the words of the bit
reorganization are free. -/
structure Agree (n : ℕ) (g g' : Registers) : Prop where
  lfsrS : ∀ i : Fin 16, i.val < n → g.lfsrS i = g'.lfsrS i
  fR1 : g.fR1 = g'.fR1
  fR2 : g.fR2 = g'.fR2

namespace Agree

variable {n : ℕ} {g g' : Registers}

theorem lfsrS_eq (h : Agree 16 g g') : g.lfsrS = g'.lfsrS := funext fun i => h.lfsrS i i.isLt

theorem bitReorganization_eq (h : Agree 16 g g') : bitReorganization g = bitReorganization g' := by
  simp only [bitReorganization, h.lfsrS_eq, h.fR1, h.fR2]

theorem keystreamStep_eq (h : Agree 16 g g') : keystreamStep g = keystreamStep g' := by
  simp only [keystreamStep, h.bitReorganization_eq]

theorem shift (h : Agree (n + 1) g g') (hn : 11 ≤ n) (hn' : n ≤ 15) (v v' : BitVec 32) :
    Agree n { (f (bitReorganization g)).2 with lfsrS := Zuc.shift g.lfsrS v }
      { (f (bitReorganization g')).2 with lfsrS := Zuc.shift g'.lfsrS v' } := by
  have h₁ : (bitReorganization g).brcX1 = (bitReorganization g').brcX1 := by
    simp only [bitReorganization, h.lfsrS 11 (by simp; omega), h.lfsrS 9 (by simp; omega)]
  have h₂ : (bitReorganization g).brcX2 = (bitReorganization g').brcX2 := by
    simp only [bitReorganization, h.lfsrS 7 (by simp; omega), h.lfsrS 5 (by simp; omega)]
  have hR₁ : (bitReorganization g).fR1 = (bitReorganization g').fR1 := h.fR1
  have hR₂ : (bitReorganization g).fR2 = (bitReorganization g').fR2 := h.fR2
  constructor
  · intro i hi
    have hi' : i.val + 1 < 16 := by omega
    simp only [Zuc.shift, hi', dite_true]
    exact h.lfsrS _ (Nat.succ_lt_succ hi)
  · simp only [f, h₁, h₂, hR₁, hR₂]
  · simp only [f, h₁, h₂, hR₁, hR₂]

theorem initRound (h : Agree 16 g g') {l l' : BitVec 32} (hl : contribution l = contribution l') :
    Agree 16 (initRound l g) (initRound l' g') := by
  have hr : Zuc.initRound l g = Zuc.initRound l' g' := by
    simp only [Zuc.initRound, newCell, feedback_eq, hl, h.lfsrS_eq, h.bitReorganization_eq]
  rw [hr]
  exact ⟨fun _ _ => rfl, rfl, rfl⟩

theorem initRounds (h : Agree 16 g g') {ls ls' : List (BitVec 32)}
    (hl : ls.map contribution = ls'.map contribution) :
    Agree 16 (initRounds ls g) (initRounds ls' g') := by
  induction ls generalizing ls' g g' with
  | nil =>
    obtain rfl := List.map_eq_nil_iff.mp hl.symm
    exact h
  | cons l ls ih =>
    obtain ⟨l', ls', rfl, hl', hls⟩ := List.map_eq_cons_iff.mp hl.symm
    exact ih (h.initRound hl'.symm) hls.symm

end Agree

theorem zuc_eq_of_contribution_eq {locals locals' : Vector (BitVec 32) 32}
    (h : ∀ i, contribution (locals.get i) = contribution (locals'.get i))
    (k iv : Fin 16 → BitVec 8) (len : ℕ) (g g' : Registers) :
    (zuc locals k iv len g).1 = (zuc locals' k iv len g').1 := by
  have hl : locals.toList.map contribution = locals'.toList.map contribution := by
    refine List.ext_getElem (by simp) fun i hi _ => ?_
    have hi : i < 32 := by simpa using hi
    simpa [Vector.get] using h ⟨i, hi⟩
  have ha : Agree 16 (initialization locals k iv g) (initialization locals' k iv g') := by
    unfold initialization
    apply Agree.initRounds _ hl
    exact ⟨fun _ _ => rfl, rfl, rfl⟩
  simp only [zuc, generateKeystream, ha.keystreamStep_eq]

theorem toNat_lowBits (c : BitVec 32) : (c &&& 0x7FFFFFFF).toNat = c.toNat % 2 ^ 31 := by
  rw [BitVec.toNat_and]
  exact Nat.and_two_pow_sub_one_eq_mod _ 31

theorem toNat_carryBit (c : BitVec 32) : (c >>> 31).toNat = c.toNat / 2 ^ 31 := by
  rw [BitVec.toNat_ushiftRight, Nat.shiftRight_eq_div_pow]

theorem toNat_addM_parts (a b : BitVec 32) :
    (addM a b).toNat = ((a + b) &&& 0x7FFFFFFF).toNat + ((a + b) >>> 31).toNat := by
  have hdef : addM a b = ((a + b) &&& (0x7FFFFFFF : BitVec 32)) + ((a + b) >>> 31) := rfl
  have hlt := (a + b).isLt
  rw [hdef, BitVec.toNat_add, Nat.mod_eq_of_lt]
  rw [toNat_lowBits, toNat_carryBit]
  omega

theorem toNat_addM (a b : BitVec 32) :
    (addM a b).toNat = (a + b).toNat % 2 ^ 31 + (a + b).toNat / 2 ^ 31 := by
  rw [toNat_addM_parts, toNat_lowBits, toNat_carryBit]

/-- A sum is the sum of the numbers, less the modulus at most once. -/
theorem addM_spec {a b : BitVec 32} (ha : a.toNat < 2 ^ 31) (hb : b.toNat < 2 ^ 31) :
    (addM a b).toNat < 2 ^ 31 ∧ ∃ n, (addM a b).toNat + n * (2 ^ 31 - 1) = a.toNat + b.toNat := by
  have hsum : (a + b).toNat = a.toNat + b.toNat := by
    rw [BitVec.toNat_add]
    omega
  rw [toNat_addM, hsum]
  refine ⟨by omega, (a.toNat + b.toNat) / 2 ^ 31, by omega⟩

theorem toNat_mulByPow2_lt (x : BitVec 32) (k : ℕ) : (mulByPow2 x k).toNat < 2 ^ 31 := by
  unfold mulByPow2
  rw [BitVec.toNat_and]
  exact Nat.and_lt_two_pow _ (by decide)

theorem foldl_addM_spec (as : List (BitVec 32)) {x : BitVec 32} (hx : x.toNat < 2 ^ 31)
    (ha : ∀ a ∈ as, a.toNat < 2 ^ 31) :
    (as.foldl addM x).toNat < 2 ^ 31 ∧
      ∃ n, (as.foldl addM x).toNat + n * (2 ^ 31 - 1) = x.toNat + (as.map BitVec.toNat).sum := by
  induction as generalizing x with
  | nil => exact ⟨hx, 0, rfl⟩
  | cons a as ih =>
    obtain ⟨hlt, n, hn⟩ := addM_spec hx (ha a List.mem_cons_self)
    obtain ⟨hlt', n', hn'⟩ := ih hlt fun b hb => ha b (List.mem_cons_of_mem a hb)
    refine ⟨hlt', n' + n, ?_⟩
    rw [List.foldl_cons, List.map_cons, List.sum_cons, ← Nat.add_assoc, ← hn, Nat.add_mul,
      ← Nat.add_assoc, hn']
    exact Nat.add_right_comm _ _ _

theorem newCell_eq_foldl (g : Registers) : ∃ terms : List (BitVec 32),
    (∀ a ∈ terms, a.toNat < 2 ^ 31) ∧ ∀ l, newCell l g = terms.foldl addM (contribution l) := by
  have hw : ((f (bitReorganization g)).1 >>> 1).toNat < 2 ^ 31 := by
    rw [BitVec.toNat_ushiftRight, Nat.shiftRight_eq_div_pow]
    have := (f (bitReorganization g)).1.isLt
    omega
  refine ⟨[mulByPow2 (g.lfsrS 4) 20, mulByPow2 (g.lfsrS 10) 21, mulByPow2 (g.lfsrS 13) 17,
    mulByPow2 (g.lfsrS 15) 15, (f (bitReorganization g)).1 >>> 1], ?_, fun l => rfl⟩
  simp only [List.forall_mem_cons, toNat_mulByPow2_lt, hw, true_and]
  exact List.forall_mem_nil _

/-- 0 and 1 in the variable make cells that differ by 257, or by 257 less the modulus. -/
theorem newCell_zero_ne_one (g : Registers) :
    (newCell 0 g).setWidth 16 ≠ (newCell 1 g).setWidth 16 := by
  have hc₀ : (contribution 0).toNat = 0 := by decide
  have hc₁ : (contribution 1).toNat = 257 := by decide
  obtain ⟨terms, hterms, hcell⟩ := newCell_eq_foldl g
  obtain ⟨hlt₀, n₀, hn₀⟩ := foldl_addM_spec terms (x := contribution 0) (by omega) hterms
  obtain ⟨hlt₁, n₁, hn₁⟩ := foldl_addM_spec terms (x := contribution 1) (by omega) hterms
  rw [← hcell, hc₀] at hn₀
  rw [← hcell, hc₁] at hn₁
  rw [← hcell] at hlt₀ hlt₁
  intro h
  have hmod := congrArg BitVec.toNat h
  rw [BitVec.toNat_setWidth, BitVec.toNat_setWidth] at hmod
  omega

/-- The word that `GenerateKeystream` stores first, after the one that it discards. -/
def firstWord (g : Registers) : BitVec 32 := (keystreamStep (keystreamStep g).2).1

theorem setWidth_brcX0 (g : Registers) :
    (bitReorganization g).brcX0.setWidth 16 = (g.lfsrS 14).setWidth 16 := by
  have hhigh : ∀ i < 15, (0x7FFF8000#32).getLsbD i = false := by decide
  have hlow : ∀ i < 16, (0xFFFF#32).getLsbD i = true := by decide
  simp only [bitReorganization]
  ext i hi
  simp only [BitVec.getElem_setWidth, BitVec.getLsbD_or, BitVec.getLsbD_shiftLeft,
    BitVec.getLsbD_and]
  rcases i with _ | i
  · simp
  · simp [hhigh i (by omega), hlow (i + 1) hi]

theorem keystreamStep_fst (g : Registers) : (keystreamStep g).1 =
    (((bitReorganization g).brcX0 ^^^ g.fR1) + g.fR2) ^^^ (bitReorganization g).brcX3 := rfl

/-- The newest cell reaches the first word through its lower half: it is the one before the
newest then. -/
theorem firstWord_ne {g g' : Registers} (h : Agree 15 g g')
    (hne : (g.lfsrS 15).setWidth 16 ≠ (g'.lfsrS 15).setWidth 16) : firstWord g ≠ firstWord g' := by
  have ha : Agree 14 (keystreamStep g).2 (keystreamStep g').2 :=
    h.shift (by omega) (by omega) (feedback (g.lfsrS 0) g.lfsrS) (feedback (g'.lfsrS 0) g'.lfsrS)
  have h₃ : (bitReorganization (keystreamStep g).2).brcX3 =
      (bitReorganization (keystreamStep g').2).brcX3 := by
    simp only [bitReorganization, ha.lfsrS 2 (by decide), ha.lfsrS 0 (by decide)]
  intro hw
  rw [firstWord, firstWord, keystreamStep_fst, keystreamStep_fst (keystreamStep g').2, ha.fR1,
    ha.fR2, h₃, BitVec.xor_left_inj, BitVec.add_left_inj, BitVec.xor_left_inj] at hw
  have hlow := congrArg (BitVec.setWidth 16) hw
  rw [setWidth_brcX0, setWidth_brcX0] at hlow
  exact hne hlow

theorem head?_zuc (locals : Vector (BitVec 32) 32) (k iv : Fin 16 → BitVec 8) {len : ℕ}
    (hlen : 0 < len) (g : Registers) :
    (zuc locals k iv len g).1.head? = some (firstWord (initialization locals k iv g)) := by
  cases len with
  | zero => exact absurd hlen (lt_irrefl 0)
  | succ n => rfl

theorem initialization_set_last (locals : Vector (BitVec 32) 32) (l : BitVec 32)
    (k iv : Fin 16 → BitVec 8) (g : Registers) :
    initialization (locals.set 31 l) k iv g = initRound l (initRounds (locals.toList.take 31)
      { g with lfsrS := fun i => makeU31 (k i) (ekD.get i) (iv i), fR1 := 0, fR2 := 0 }) := by
  have hl : (locals.set 31 l).toList = locals.toList.take 31 ++ [l] := by
    rw [Vector.toList_set, List.set_eq_take_append_cons_drop]
    simp
  rw [initialization, hl, initRounds_concat]

theorem head?_zuc_set_last_ne (locals : Vector (BitVec 32) 32) (k iv : Fin 16 → BitVec 8) {len : ℕ}
    (hlen : 0 < len) (g g' : Registers) :
    (zuc (locals.set 31 0) k iv len g).1.head? ≠ (zuc (locals.set 31 1) k iv len g').1.head? := by
  rw [zuc_eq_of_contribution_eq (fun _ => rfl) k iv len g' g, head?_zuc _ _ _ hlen,
    head?_zuc _ _ _ hlen, initialization_set_last, initialization_set_last]
  generalize initRounds (locals.toList.take 31) _ = r
  have hr : Agree 16 r r := ⟨fun _ _ => rfl, rfl, rfl⟩
  have ha : Agree 15 (initRound 0 r) (initRound 1 r) :=
    hr.shift (by decide) (by decide) (newCell 0 r) (newCell 1 r)
  intro h
  exact firstWord_ne ha (newCell_zero_ne_one r) (Option.some.inj h)

/-- A second call makes the message of the ciphertext that a first one wrote. -/
def Decrypts (ck : Fin 16 → BitVec 8) (length : BitVec 32) (locals locals' : Vector (BitVec 32) 32)
    (m : ℕ → BitVec 32) (g g' : Registers) : Prop :=
  (eea3 locals' ck length (fun i => (eea3 locals ck length m g).1.getD i 0) g').1 =
    (List.range (eea3Words length)).map m

theorem length_zuc (locals : Vector (BitVec 32) 32) (k iv : Fin 16 → BitVec 8) (len : ℕ)
    (g : Registers) : (zuc locals k iv len g).1.length = len := length_keystreamWords len _

theorem xor_xor_eq_iff {w : ℕ} (m a b : BitVec w) : m ^^^ a ^^^ b = m ↔ a = b := by
  constructor
  · intro h
    have hab : m ^^^ (a ^^^ b) = m ^^^ 0#w := by rw [← BitVec.xor_assoc, h, BitVec.xor_zero]
    have := (BitVec.xor_right_inj m).mp hab
    rwa [← BitVec.xor_self (x := b), BitVec.xor_left_inj] at this
  · rintro rfl
    rw [BitVec.xor_assoc, BitVec.xor_self, BitVec.xor_zero]

theorem mapIdx_xor_xor_iff {w : ℕ} (m : ℕ → BitVec w) {z z' : List (BitVec w)}
    (hz : z.length = z'.length) :
    (z'.mapIdx fun i a => (z.mapIdx fun i a => m i ^^^ a).getD i 0 ^^^ a) =
      (List.range z.length).map m ↔ z = z' := by
  have hword : ∀ i (hi : i < z.length) (hi' : i < z'.length),
      (z'.mapIdx fun i a => (z.mapIdx fun i a => m i ^^^ a).getD i 0 ^^^ a)[i]? =
        some (m i ^^^ z[i] ^^^ z'[i]) := by
    intro i hi hi'
    simp [hi, hi']
  constructor
  · intro h
    refine List.ext_getElem hz fun i hi hi' => ?_
    have hi'' := hword i hi hi'
    rw [h, List.getElem?_map, List.getElem?_range hi] at hi''
    exact (xor_xor_eq_iff _ _ _).mp (Option.some.inj hi'').symm
  · rintro rfl
    refine List.ext_getElem? fun i => ?_
    by_cases hi : i < z.length
    · rw [hword i hi hi, (xor_xor_eq_iff _ _ _).mpr rfl, List.getElem?_map, List.getElem?_range hi]
      rfl
    · simp [hi]

theorem eea3_fst (locals : Vector (BitVec 32) 32) (ck : Fin 16 → BitVec 8) (length : BitVec 32)
    (m : ℕ → BitVec 32) (g : Registers) : (eea3 locals ck length m g).1 =
      (zuc locals ck eea3Iv (eea3Words length) g).1.mapIdx fun i z => m i ^^^ z := rfl

theorem decrypts_iff (ck : Fin 16 → BitVec 8) (length : BitVec 32)
    (locals locals' : Vector (BitVec 32) 32) (m : ℕ → BitVec 32) (g g' : Registers) :
    Decrypts ck length locals locals' m g g' ↔
      (zuc locals ck eea3Iv (eea3Words length) g).1 =
        (zuc locals' ck eea3Iv (eea3Words length) g').1 := by
  have hz := length_zuc locals ck eea3Iv (eea3Words length) g
  rw [← mapIdx_xor_xor_iff m (hz.trans (length_zuc locals' ck eea3Iv _ g').symm), hz, Decrypts,
    eea3_fst, eea3_fst]

theorem not_decrypts_set_last (ck : Fin 16 → BitVec 8) {length : BitVec 32}
    (hlength : 0 < eea3Words length) (locals : Vector (BitVec 32) 32) (m : ℕ → BitVec 32)
    (g g' : Registers) : ¬ Decrypts ck length (locals.set 31 0) (locals.set 31 1) m g g' := by
  rw [decrypts_iff]
  exact fun h => head?_zuc_set_last_ne locals ck eea3Iv hlength g g' (congrArg List.head? h)

/-- Two calls whose leftovers make the same contributions undo each other. Whatever the first call
and 31 rounds of the second find, some value in the last round of the second undoes nothing. -/
theorem eea3_decrypts (ck : Fin 16 → BitVec 8) (length : BitVec 32) :
    (∀ locals locals' : Vector (BitVec 32) 32,
      (eea3Words length = 0 ∨
        ∀ i, contribution (locals.get i) = contribution (locals'.get i)) →
      ∀ m g g', Decrypts ck length locals locals' m g g') ∧
    (0 < eea3Words length → ∀ locals locals' : Vector (BitVec 32) 32,
      ∃ l, ∀ m g g', ¬ Decrypts ck length locals (locals'.set 31 l) m g g') := by
  constructor
  · rintro locals locals' (h | h) m g g'
    · have hz := List.eq_nil_of_length_eq_zero (length_zuc locals ck eea3Iv 0 g)
      have hz' := List.eq_nil_of_length_eq_zero (length_zuc locals' ck eea3Iv 0 g')
      rw [decrypts_iff, h, hz, hz']
    · rw [decrypts_iff]
      exact zuc_eq_of_contribution_eq h ck eea3Iv _ g g'
  · intro hlen locals locals'
    by_contra hall
    push Not at hall
    -- with both 0 and 1 the second keystream would be the first one
    obtain ⟨m₀, g₀, g₀', h₀⟩ := hall 0
    obtain ⟨m₁, g₁, g₁', h₁⟩ := hall 1
    rw [decrypts_iff] at h₀ h₁
    rw [zuc_eq_of_contribution_eq (fun _ => rfl) ck eea3Iv _ g₁ g₀, h₀] at h₁
    exact head?_zuc_set_last_ne locals' ck eea3Iv hlen g₀' g₁' (congrArg List.head? h₁)

def clearRegisters : Registers := ⟨fun _ => 0, 0, 0, 0, 0, 0, 0⟩

theorem eea3_decrypts_zeroKey :
    Decrypts (fun _ => 0) 32 (.replicate 32 7) (.replicate 32 7) (fun _ => 5) clearRegisters
        clearRegisters ∧
      ∃ l, ¬ Decrypts (fun _ => 0) 32 (.replicate 32 7) ((Vector.replicate 32 7).set 31 l)
        (fun _ => 5) clearRegisters clearRegisters :=
  ⟨(eea3_decrypts (fun _ => 0) 32).1 _ _ (Or.inr fun _ => rfl) _ _ _,
    let ⟨l, hl⟩ := (eea3_decrypts (fun _ => 0) 32).2 (by decide) (.replicate 32 7)
      (.replicate 32 7)
    ⟨l, hl _ _ _⟩⟩

theorem not_eea3_decrypts_leftover :
    ¬ ∀ locals locals' g g',
      Decrypts (fun _ => 0) 32 locals locals' (fun _ => 5) g g' :=
  fun h => not_decrypts_set_last _ (by decide) (.replicate 32 0) _ _ _
    (h _ _ clearRegisters clearRegisters)

end PacketBench.Zuc

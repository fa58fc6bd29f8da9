import Mathlib.Analysis.Real.Sqrt
import Mathlib.Data.List.Sort

/-! # The confidence bounds of `calculate.py`

The script reads the samples of one size after another into one list that it
never clears, and its cursor takes fewer lines for a size than the results file
has. So from the second size on the bounds are those of the samples read so far,
all of them from the first block of the file.
-/

namespace PacketBench.DataAnalysis

def ns : List ℕ := [1024, 2048, 16384]

def sizes : List ℕ := [1024, 512, 64]

def fileSize : ℕ := 1048576

/-- The entries of `intervals`. None of the numbers rounded is close to an integer, so they do not
depend on the precision of the script. -/
def intervals : List ℕ := [474, 551, 971, 1078, 8043, 8342]

/-- The two ranks of a confidence interval for the median of `n` samples. -/
noncomputable def ranks (z : ℝ) (n : ℕ) : List ℤ :=
  [⌊(n - z * √n) / 2⌋, ⌈(n + z * √n) / 2 + 1⌉]

theorem ranks_eq {z : ℝ} (hz : 0 < z) {n : ℕ} {s t : ℝ} (hs : s ≤ √n) (ht : √n ≤ t) {a b : ℤ}
    (ha : a ≤ (n - z * t) / 2) (ha' : (n - z * s) / 2 < a + 1) (hb : b - 1 < (n + z * s) / 2 + 1)
    (hb' : (n + z * t) / 2 + 1 ≤ b) : ranks z n = [a, b] := by
  have hlow := mul_le_mul_of_nonneg_left hs hz.le
  have hhigh := mul_le_mul_of_nonneg_left ht hz.le
  have hfloor : ⌊(n - z * √n) / 2⌋ = a := by
    rw [Int.floor_eq_iff]
    constructor <;> linarith
  have hceil : ⌈(n + z * √n) / 2 + 1⌉ = b := by
    rw [Int.ceil_eq_iff]
    constructor <;> linarith
  rw [ranks, hfloor, hceil]

theorem intervals_eq : intervals.map Int.ofNat = ns.flatMap (ranks 2.3263) := by
  have h₁ : ranks 2.3263 1024 = [474, 551] := by
    have hroot : √((1024 : ℕ) : ℝ) = 32 := by
      rw [Real.sqrt_eq_iff_mul_self_eq (by norm_num) (by norm_num)]
      norm_num
    refine ranks_eq (by norm_num) hroot.ge hroot.le ?_ ?_ ?_ ?_ <;> norm_num
  have h₂ : ranks 2.3263 2048 = [971, 1078] := by
    have hs : (45.2 : ℝ) ≤ √((2048 : ℕ) : ℝ) := Real.le_sqrt_of_sq_le (by norm_num)
    have ht : √((2048 : ℕ) : ℝ) ≤ (45.3 : ℝ) := Real.sqrt_le_iff.mpr (by norm_num)
    refine ranks_eq (by norm_num) hs ht ?_ ?_ ?_ ?_ <;> norm_num
  have h₃ : ranks 2.3263 16384 = [8043, 8342] := by
    have hroot : √((16384 : ℕ) : ℝ) = 128 := by
      rw [Real.sqrt_eq_iff_mul_self_eq (by norm_num) (by norm_num)]
      norm_num
    refine ranks_eq (by norm_num) hroot.ge hroot.le ?_ ?_ ?_ ?_ <;> norm_num
  simp only [ns, List.flatMap_cons, List.flatMap_nil, h₁, h₂, h₃]
  rfl

/-- The state of the loop over the sizes: the rest of the file, and the variables `j`, `values_med`
and `o`. -/
structure State where
  file : List ℤ
  j : ℕ
  valuesMed : List ℤ
  o : ℕ

/-- What is done for one size: the lines read, from `first` up to `last`, and the two numbers
printed. -/
structure Turn where
  first : ℕ
  last : ℕ
  b1 : ℤ
  b2 : ℤ
  deriving DecidableEq, Repr

/-- Read `k` more lines; the end of the file is no number. -/
def readLines : ℕ → State → Option State
  | 0, s => some s
  | k + 1, s =>
    match s.file with
    | [] => none
    | val :: file =>
      readLines k { s with file := file, j := s.j + 1, valuesMed := s.valuesMed ++ [val] }

def atRank (values : List ℤ) (i : ℕ) : Option ℤ := do values[← intervals[i]?]?

def sizeTurn (size : ℕ) (s : State) : Option (Turn × State) := do
  let r ← readLines (fileSize / size) s
  let valuesMed := r.valuesMed.mergeSort
  let b1 ← atRank valuesMed (2 * r.o)
  let b2 ← atRank valuesMed (2 * r.o + 1)
  some (⟨s.j, r.j, b1, b2⟩, { r with valuesMed := valuesMed, o := r.o + 1 })

def sizeTurns : List ℕ → State → Option (List Turn)
  | [], _ => some []
  | size :: sizes, s => do
    let (turn, s) ← sizeTurn size s
    let turns ← sizeTurns sizes s
    some (turn :: turns)

def calculate (file : List ℤ) : Option (List Turn) := sizeTurns sizes ⟨file, 0, [], 0⟩

theorem mergeSort_eq_of_perm {l l' : List ℤ} (h : l.Perm l') : l.mergeSort = l'.mergeSort :=
  ((l.mergeSort_perm _).trans (h.trans (l'.mergeSort_perm _).symm)).eq_of_sortedLE
    List.sortedLE_mergeSort List.sortedLE_mergeSort

/-- The cursor stands before line `j`, and the list has the lines before it. -/
structure Reads (lines : List ℤ) (s : State) : Prop where
  file : s.file = lines.drop s.j
  values : s.valuesMed.Perm (lines.take s.j)
  le : s.j ≤ lines.length

/-- The turn of a size that reads the lines from `first` up to `last`: the ranks are taken among
all lines before `last`. -/
def turnFrom (lines : List ℤ) (o first last : ℕ) : Option Turn :=
  if last ≤ lines.length then do
    let values := (lines.take last).mergeSort
    let b1 ← atRank values (2 * o)
    let b2 ← atRank values (2 * o + 1)
    some ⟨first, last, b1, b2⟩
  else none

def turnsFrom (lines : List ℤ) : ℕ → ℕ → List ℕ → Option (List Turn)
  | _, _, [] => some []
  | o, j, size :: sizes => do
    let turn ← turnFrom lines o j (j + fileSize / size)
    let turns ← turnsFrom lines (o + 1) (j + fileSize / size) sizes
    some (turn :: turns)

theorem readLines_eq (k : ℕ) (s : State) : readLines k s =
    if k ≤ s.file.length then
      some ⟨s.file.drop k, s.j + k, s.valuesMed ++ s.file.take k, s.o⟩
    else none := by
  induction k generalizing s with
  | zero => simp [readLines]
  | succ k ih =>
    rw [readLines]
    cases hfile : s.file with
    | nil => simp
    | cons val file =>
      dsimp only
      rw [ih]
      simp [Nat.add_assoc, Nat.add_comm 1]

/-- The state after the lines before `j` for the first `o` sizes. -/
def stateAt (lines : List ℤ) (o j : ℕ) : State :=
  ⟨lines.drop j, j, (lines.take j).mergeSort, o⟩

theorem reads_stateAt {lines : List ℤ} {o j : ℕ} (hj : j ≤ lines.length) :
    Reads lines (stateAt lines o j) := ⟨rfl, List.mergeSort_perm _ _, hj⟩

theorem sizeTurn_eq {lines : List ℤ} {s : State} (h : Reads lines s) (size : ℕ) :
    sizeTurn size s = (turnFrom lines s.o s.j (s.j + fileSize / size)).map fun turn =>
      (turn, stateAt lines (s.o + 1) (s.j + fileSize / size)) := by
  have hle := h.le
  have hroom : fileSize / size ≤ s.file.length ↔ s.j + fileSize / size ≤ lines.length := by
    rw [h.file, List.length_drop]
    omega
  rw [sizeTurn, readLines_eq, turnFrom]
  simp only [hroom]
  split_ifs
  · have hvalues : (s.valuesMed ++ s.file.take (fileSize / size)).mergeSort =
        (lines.take (s.j + fileSize / size)).mergeSort := by
      refine mergeSort_eq_of_perm ?_
      rw [List.take_add, h.file]
      exact h.values.append_right _
    have hfile : s.file.drop (fileSize / size) = lines.drop (s.j + fileSize / size) := by
      rw [h.file, List.drop_drop]
    simp only [Option.bind_eq_bind, Option.bind_some, hvalues, hfile]
    cases atRank (lines.take (s.j + fileSize / size)).mergeSort (2 * s.o) with
    | none => rfl
    | some b1 =>
      cases atRank (lines.take (s.j + fileSize / size)).mergeSort (2 * s.o + 1) with
      | none => rfl
      | some b2 => rfl
  · rfl

theorem sizeTurns_eq {lines : List ℤ} (sizes : List ℕ) {s : State} (h : Reads lines s) :
    sizeTurns sizes s = turnsFrom lines s.o s.j sizes := by
  induction sizes generalizing s with
  | nil => rfl
  | cons size sizes ih =>
    rw [sizeTurns, turnsFrom, sizeTurn_eq h]
    cases hturn : turnFrom lines s.o s.j (s.j + fileSize / size) with
    | none => rfl
    | some turn =>
      have hlast : s.j + fileSize / size ≤ lines.length := by
        by_contra hlt
        rw [turnFrom, if_neg hlt] at hturn
        cases hturn
      simp only [Option.map_some, Option.bind_eq_bind, Option.bind_some]
      rw [ih (reads_stateAt hlast)]
      rfl

theorem calculate_eq (lines : List ℤ) : calculate lines = turnsFrom lines 0 0 sizes :=
  sizeTurns_eq sizes ⟨rfl, List.Perm.refl _, Nat.zero_le _⟩

structure TurnOf (lines : List ℤ) (o first last : ℕ) (t : Turn) : Prop where
  first_eq : t.first = first
  last_eq : t.last = last
  b1 : atRank (lines.take last).mergeSort (2 * o) = some t.b1
  b2 : atRank (lines.take last).mergeSort (2 * o + 1) = some t.b2

theorem turnOf_of_turnFrom {lines : List ℤ} {o first last : ℕ} {t : Turn}
    (h : turnFrom lines o first last = some t) : TurnOf lines o first last t := by
  unfold turnFrom at h
  split_ifs at h
  obtain ⟨b1, hb1, h⟩ := Option.bind_eq_some_iff.mp h
  obtain ⟨b2, hb2, h⟩ := Option.bind_eq_some_iff.mp h
  obtain rfl := Option.some.inj h
  exact ⟨rfl, rfl, hb1, hb2⟩

def InRange (n i : ℕ) : Prop := ∃ rank ∈ intervals[i]?, rank < n

instance (n i : ℕ) : Decidable (InRange n i) :=
  inferInstanceAs (Decidable (∃ rank ∈ intervals[i]?, rank < n))

theorem exists_atRank {values : List ℤ} {i : ℕ} (h : InRange values.length i) :
    ∃ b, atRank values i = some b := by
  obtain ⟨rank, hrank, hlt⟩ := h
  refine ⟨values[rank], ?_⟩
  rw [atRank, hrank]
  exact List.getElem?_eq_getElem hlt

theorem exists_turnFrom {lines : List ℤ} {o last : ℕ} (first : ℕ) (hlast : last ≤ lines.length)
    (h₁ : InRange last (2 * o)) (h₂ : InRange last (2 * o + 1)) :
    ∃ t, turnFrom lines o first last = some t := by
  have hlength : (lines.take last).mergeSort.length = last := by
    rw [List.length_mergeSort, List.length_take, Nat.min_eq_left hlast]
  obtain ⟨b1, hb1⟩ := exists_atRank (hlength.symm ▸ h₁)
  obtain ⟨b2, hb2⟩ := exists_atRank (hlength.symm ▸ h₂)
  refine ⟨⟨first, last, b1, b2⟩, ?_⟩
  rw [turnFrom, if_pos hlast]
  dsimp only
  rw [hb1, hb2]
  rfl

def positions : ℕ → List ℕ → List (ℕ × ℕ)
  | _, [] => []
  | j, size :: sizes => (j, j + fileSize / size) :: positions (j + fileSize / size) sizes

theorem map_positions {lines : List ℤ} {sizes : List ℕ} {o j : ℕ} {ts : List Turn}
    (h : turnsFrom lines o j sizes = some ts) :
    ts.map (fun t => (t.first, t.last)) = positions j sizes := by
  induction sizes generalizing o j ts with
  | nil =>
    obtain rfl := Option.some.inj h
    rfl
  | cons size sizes ih =>
    obtain ⟨t, ht, h⟩ := Option.bind_eq_some_iff.mp h
    obtain ⟨ts', hts, h⟩ := Option.bind_eq_some_iff.mp h
    obtain rfl := Option.some.inj h
    have hturn := turnOf_of_turnFrom ht
    rw [List.map_cons, ih hts, hturn.first_eq, hturn.last_eq, positions]

/-- The file is long enough for all sizes, and the ranks of each are below the lines read. -/
def Feasible (n : ℕ) : ℕ → ℕ → List ℕ → Prop
  | _, _, [] => True
  | o, j, size :: sizes =>
    (j + fileSize / size ≤ n ∧ InRange (j + fileSize / size) (2 * o) ∧
      InRange (j + fileSize / size) (2 * o + 1)) ∧
    Feasible n (o + 1) (j + fileSize / size) sizes

theorem exists_turnsFrom {lines : List ℤ} {sizes : List ℕ} {o j : ℕ}
    (h : Feasible lines.length o j sizes) : ∃ ts, turnsFrom lines o j sizes = some ts := by
  induction sizes generalizing o j with
  | nil => exact ⟨[], rfl⟩
  | cons size sizes ih =>
    obtain ⟨⟨hlast, h₁, h₂⟩, hrest⟩ := h
    obtain ⟨t, ht⟩ := exists_turnFrom j hlast h₁ h₂
    obtain ⟨ts, hts⟩ := ih hrest
    refine ⟨t :: ts, ?_⟩
    rw [turnsFrom, ht]
    dsimp only [Option.bind_eq_bind, Option.bind_some]
    rw [hts]
    rfl

def blockLines : ℕ := 32768

/-- A results file with one block for each size. -/
structure ResultsFile where
  block : Fin 3 → List ℤ
  length_block : ∀ i, (block i).length = blockLines

def ResultsFile.lines (f : ResultsFile) : List ℤ := f.block 0 ++ f.block 1 ++ f.block 2

theorem ResultsFile.length_lines (f : ResultsFile) : f.lines.length = 3 * blockLines := by
  rw [lines, List.length_append, List.length_append, f.length_block, f.length_block,
    f.length_block]
  rfl

/-- The turn of a size reads one sample for each chunk, all of them from the block of the size, and
its two numbers have the ranks of the size among these samples. -/
structure RightTurn (lines : List ℤ) (i size : ℕ) (t : Turn) : Prop where
  count : t.last = t.first + fileSize / size
  b1 : atRank ((lines.take t.last).drop t.first).mergeSort (2 * i) = some t.b1
  b2 : atRank ((lines.take t.last).drop t.first).mergeSort (2 * i + 1) = some t.b2
  block : ∀ n, t.first ≤ n → n < t.last → n / blockLines = i

def Right (f : ResultsFile) (i : ℕ) : Prop :=
  ∃ turns ∈ calculate f.lines, ∃ t ∈ turns[i]?, ∃ size ∈ sizes[i]?, RightTurn f.lines i size t

/-- All lines that are read are in the first block. -/
theorem eq_zero_of_right {f : ResultsFile} {i : ℕ} (h : Right f i) : i = 0 := by
  obtain ⟨turns, hturns, t, ht, size, -, hright⟩ := h
  rw [calculate_eq] at hturns
  have hfirst : ∀ p ∈ positions 0 sizes, p.1 < p.2 ∧ p.1 < blockLines := by decide
  have hmem : (t.first, t.last) ∈ positions 0 sizes := by
    rw [← map_positions hturns]
    exact List.mem_map_of_mem (List.mem_of_getElem? ht)
  obtain ⟨hlt, hblock⟩ := hfirst _ hmem
  rw [← hright.block t.first le_rfl hlt]
  exact Nat.div_eq_of_lt hblock

theorem feasible_sizes (f : ResultsFile) : Feasible f.lines.length 0 0 sizes := by
  rw [f.length_lines]
  exact ⟨by decide, by decide, by decide, trivial⟩

theorem right_zero (f : ResultsFile) : Right f 0 := by
  obtain ⟨turns, hturns⟩ := exists_turnsFrom (feasible_sizes f)
  have hcalculate : calculate f.lines = some turns := (calculate_eq _).trans hturns
  obtain ⟨t, ht, hturns⟩ := Option.bind_eq_some_iff.mp hturns
  obtain ⟨ts, -, hturns⟩ := Option.bind_eq_some_iff.mp hturns
  obtain rfl := Option.some.inj hturns
  obtain ⟨hfirst, hlast, hb1, hb2⟩ := turnOf_of_turnFrom ht
  refine ⟨t :: ts, hcalculate, t, rfl, 1024, rfl, ?_⟩
  constructor
  · rw [hlast, hfirst]
  · rwa [hlast, hfirst, List.drop_zero]
  · rwa [hlast, hfirst, List.drop_zero]
  · intro n _ hn
    have hshort : 0 + fileSize / 1024 < blockLines := by decide
    rw [hlast] at hn
    exact Nat.div_eq_of_lt (hn.trans hshort)

/-- The numbers printed for a size are right exactly for the first size. -/
theorem right_iff (f : ResultsFile) (i : Fin 3) : Right f i ↔ i = 0 := by
  refine ⟨fun h => Fin.ext (eq_zero_of_right h), ?_⟩
  rintro rfl
  exact right_zero f

def zeros : ResultsFile := ⟨fun _ => List.replicate blockLines 0, fun _ => List.length_replicate⟩

theorem not_right : ¬ ∀ i : Fin 3, Right zeros i := fun h =>
  absurd (eq_zero_of_right (h 1)) (by decide)

end PacketBench.DataAnalysis

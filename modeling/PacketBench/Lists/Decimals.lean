import Mathlib.Data.List.Infix

/-! # Lines of decimal numbers

A program prints one number a line, and another one reads them back line by
line. It gets the numbers that were printed. A text that was cut off somewhere
has no more lines than all of it, and its last line may be the beginning of one.
-/

namespace Decimals

def newline : Char := Char.ofNat 10

def printLine (n : ℕ) : List Char := Nat.toDigits 10 n ++ [newline]

def printLines (ns : List ℕ) : List Char := ns.flatMap printLine

/-- The first line with its line break, and the rest of the text. -/
def readline : List Char → List Char × List Char
  | [] => ([], [])
  | c :: text =>
    if c = newline then ([c], text)
    else
      let (line, rest) := readline text
      (c :: line, rest)

/-- The number that a line of digits stands for. The empty line at the end of a text has none. -/
def int (line : List Char) : Option ℕ :=
  let digits := line.takeWhile (· ≠ newline)
  if digits ≠ [] ∧ digits.all Char.isDigit then some (Nat.ofDigitChars 10 digits 0) else none

theorem newline_notMem_toDigits (n : ℕ) : newline ∉ Nat.toDigits 10 n := by
  intro h
  have hdigit := Nat.isDigit_of_mem_toDigits (by decide) (by decide) h
  exact absurd hdigit (by decide)

@[simp] theorem int_nil : int [] = none := rfl

@[simp] theorem int_printLine (n : ℕ) : int (printLine n) = some n := by
  have hdigits : (printLine n).takeWhile (· ≠ newline) = Nat.toDigits 10 n := by
    unfold printLine
    rw [List.takeWhile_append_of_pos fun c hc => ?_]
    · simp
    · exact decide_eq_true fun heq => newline_notMem_toDigits n (heq ▸ hc)
  have hall : (Nat.toDigits 10 n).all Char.isDigit :=
    List.all_eq_true.mpr fun c hc => Nat.isDigit_of_mem_toDigits (by decide) (by decide) hc
  unfold int
  simp only [hdigits, if_pos (And.intro Nat.toDigits_ne_nil hall), Nat.ofDigitChars_ten_toDigits]

theorem readline_of_notMem {text : List Char} (h : newline ∉ text) :
    readline text = (text, []) := by
  induction text with
  | nil => rfl
  | cons c text ih =>
    obtain ⟨hne, hrest⟩ := List.ne_and_not_mem_of_not_mem_cons h
    rw [readline, if_neg hne.symm, ih hrest]

theorem readline_append {line : List Char} (h : newline ∉ line) (text : List Char) :
    readline (line ++ newline :: text) = (line ++ [newline], text) := by
  induction line with
  | nil => rfl
  | cons c line ih =>
    obtain ⟨hne, hrest⟩ := List.ne_and_not_mem_of_not_mem_cons h
    rw [List.cons_append, readline, if_neg hne.symm, ih hrest, List.cons_append]

theorem readline_printLine_append (n : ℕ) (text : List Char) :
    readline (printLine n ++ text) = (printLine n, text) := by
  rw [printLine, List.append_assoc]
  exact readline_append (newline_notMem_toDigits n) text

@[simp] theorem printLines_nil : printLines [] = [] := rfl

@[simp] theorem printLines_cons (n : ℕ) (ns : List ℕ) :
    printLines (n :: ns) = printLine n ++ printLines ns := List.flatMap_cons

theorem count_newline_printLines (ns : List ℕ) : (printLines ns).count newline = ns.length := by
  induction ns with
  | nil => rfl
  | cons n ns ih =>
    rw [printLines_cons, List.count_append, ih, printLine, List.count_append,
      List.count_eq_zero.mpr (newline_notMem_toDigits n), List.count_singleton_self,
      List.length_cons, Nat.zero_add, Nat.add_comm]

theorem prefix_printLines_cons {text : List Char} {n : ℕ} {ns : List ℕ}
    (h : text <+: printLines (n :: ns)) :
    newline ∉ text ∨ ∃ rest, text = printLine n ++ rest ∧ rest <+: printLines ns := by
  rw [printLines_cons] at h
  rcases List.prefix_or_prefix_of_prefix h (List.prefix_append (printLine n) (printLines ns)) with
    hshort | ⟨rest, rfl⟩
  · rcases List.prefix_concat_iff.mp hshort with rfl | hdigits
    · exact Or.inr ⟨[], (List.append_nil _).symm, List.nil_prefix⟩
    · exact Or.inl fun hmem => newline_notMem_toDigits n (hdigits.subset hmem)
  · exact Or.inr ⟨rest, rfl, (List.prefix_append_right_inj _).mp h⟩

end Decimals

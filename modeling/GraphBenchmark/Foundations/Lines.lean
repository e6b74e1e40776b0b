import Mathlib.Data.List.Basic

/-! # Numbers on lines

A text with one number on each line, in decimal. Reading the numbers back returns them all
(`readNumbers_lines`), so a text determines its numbers. -/
namespace GraphBenchmark.Lines
set_option autoImplicit false

def line (n : ℕ) : List Char := Nat.toDigits 10 n ++ ['\n']

def lines (ns : List ℕ) : List Char := ns.flatMap line

/-- The numbers of a text, where `acc` is the value of the digits already read of the first one. -/
def readFrom (acc : ℕ) : List Char → List ℕ
  | [] => []
  | c :: cs => if c = '\n' then acc :: readFrom 0 cs else readFrom (10 * acc + (c.toNat - '0'.toNat)) cs

def readNumbers (text : List Char) : List ℕ := readFrom 0 text

theorem newline_not_mem_toDigits (n : ℕ) : '\n' ∉ Nat.toDigits 10 n := by
  intro h
  exact absurd (Nat.isDigit_of_mem_toDigits (by omega) (by omega) h) (by decide)

/-- Up to the next newline the digits are collected. -/
theorem readFrom_append (digits rest : List Char) (h : '\n' ∉ digits) (acc : ℕ) :
    readFrom acc (digits ++ '\n' :: rest) = Nat.ofDigitChars 10 digits acc :: readFrom 0 rest := by
  induction digits generalizing acc with
  | nil => rw [List.nil_append, readFrom, if_pos rfl, Nat.ofDigitChars_nil]
  | cons c cs ih =>
    obtain ⟨hc, hcs⟩ := not_or.mp (mt List.mem_cons.mpr h)
    rw [List.cons_append, readFrom, if_neg (Ne.symm hc), ih hcs, Nat.ofDigitChars_cons]

theorem lines_cons (n : ℕ) (ns : List ℕ) : lines (n :: ns) = Nat.toDigits 10 n ++ '\n' :: lines ns := by
  rw [lines, List.flatMap_cons, line, List.append_assoc]
  rfl

theorem readNumbers_lines (ns : List ℕ) : readNumbers (lines ns) = ns := by
  induction ns with
  | nil => rfl
  | cons n ns ih =>
    rw [lines_cons, readNumbers, readFrom_append _ _ (newline_not_mem_toDigits n), Nat.ofDigitChars_ten_toDigits]
    exact congrArg _ ih

end GraphBenchmark.Lines

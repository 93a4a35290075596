import BashInC.Clib.Strings

/-!
The numbers of `<stdlib.h>` and `<stdio.h>`: `strtol` for a 64-bit `long`, the
conversion to a 32-bit `int`, and `%d`.
-/
namespace Clib.Numbers
open Clib.Strings

/-- `isspace` in the C locale. -/
def isspace (b : Byte) : Bool := b == 32 || (9 ≤ b && b ≤ 13)

def isdigit (b : Byte) : Bool := 48 ≤ b && b ≤ 57

/-- The number that decimal digits denote. -/
def digitsValue (digits : List Byte) : Nat := digits.foldl (fun n d => 10 * n + (d.toNat - 48)) 0

def LONG_MAX : Int := 9223372036854775807

def LONG_MIN : Int := -9223372036854775808

/-- A number cut off at the limits of a 64-bit `long`. -/
def clampLong (n : Int) : Int := max LONG_MIN (min n LONG_MAX)

/-- `strtol(nptr, &endptr, 10)`: the number and the string at `endptr`, which is the whole string when
    there are no digits. -/
def strtol (nptr : List Byte) : Int × List Byte :=
  let signed := nptr.dropWhile isspace
  let (negative, unsigned) :=
    match signed with
    | [] => (false, [])
    | b :: rest => if b = chr '-' then (true, rest) else if b = chr '+' then (false, rest) else (false, b :: rest)
  let digits := unsigned.takeWhile isdigit
  if digits = [] then (0, nptr)
  else (clampLong (if negative then -digitsValue digits else digitsValue digits), unsigned.dropWhile isdigit)

/-- The number of values of a 32-bit `int`. -/
def INT_RANGE : Nat := 4294967296

def INT_MAX : Nat := 2147483647

/-- A `long` assigned to an `int`. -/
def toInt (n : Int) : Int := n.bmod INT_RANGE

/-- `%d` for a count. -/
def decimal (n : Nat) : List Byte := lit (toString n)

example : strtol (lit "-12x") = (-12, lit "x") := by decide

/-- A string that denotes an integer: blanks, a sign, and digits. -/
inductive Denotes : List Byte → Int → Prop
  | plain {blanks digits : List Byte} : (∀ b ∈ blanks, isspace b = true) → digits ≠ [] →
      (∀ b ∈ digits, isdigit b = true) → Denotes (blanks ++ digits) (digitsValue digits)
  | plus {blanks digits : List Byte} : (∀ b ∈ blanks, isspace b = true) → digits ≠ [] →
      (∀ b ∈ digits, isdigit b = true) → Denotes (blanks ++ chr '+' :: digits) (digitsValue digits)
  | minus {blanks digits : List Byte} : (∀ b ∈ blanks, isspace b = true) → digits ≠ [] →
      (∀ b ∈ digits, isdigit b = true) → Denotes (blanks ++ chr '-' :: digits) (-digitsValue digits)

theorem denotes_digits {digits : List Byte} (nonempty : digits ≠ []) (digit : ∀ b ∈ digits, isdigit b = true) :
    Denotes digits (digitsValue digits) := by
  have denotes : Denotes ([] ++ digits) (digitsValue digits) := .plain (by simp) nonempty digit
  rwa [List.nil_append] at denotes

private theorem digit_plain {b : Byte} (digit : isdigit b = true) :
    isspace b = false ∧ b ≠ chr '-' ∧ b ≠ chr '+' := by
  refine ⟨?_, ?_, ?_⟩
  · rw [← Bool.not_eq_true]
    simp only [isdigit, Bool.and_eq_true, decide_eq_true_eq, UInt8.le_iff_toNat_le] at digit
    simp only [isspace, Bool.or_eq_true, beq_iff_eq, Bool.and_eq_true, decide_eq_true_eq, UInt8.le_iff_toNat_le,
      ← UInt8.toNat_inj]
    simp only [UInt8.reduceToNat] at digit ⊢
    omega
  · rintro rfl
    exact absurd digit (by decide)
  · rintro rfl
    exact absurd digit (by decide)

/-- Blanks in front are skipped. -/
private theorem dropWhile_blanks {blanks : List Byte} (spaces : ∀ b ∈ blanks, isspace b = true) {b : Byte}
    (other : isspace b = false) (rest : List Byte) : (blanks ++ b :: rest).dropWhile isspace = b :: rest := by
  rw [List.dropWhile_append_of_pos spaces, List.dropWhile_cons_of_neg (by simp [other])]

/-- The integer that a sign and digits denote. -/
private def signedValue : List Byte → Int
  | [] => 0
  | b :: rest => if b = chr '-' then -digitsValue rest else if b = chr '+' then digitsValue rest else digitsValue (b :: rest)

/-- A string denotes one integer. -/
theorem denotes_unique {nptr : List Byte} {n m : Int} (denotes : Denotes nptr n) (denotes' : Denotes nptr m) : n = m := by
  have read : ∀ {n : Int}, Denotes nptr n → n = signedValue (nptr.dropWhile isspace) := by
    intro n denotes
    cases denotes with
    | @plain blanks digits spaces nonempty digit =>
      obtain ⟨b, rest, rfl⟩ := List.exists_cons_of_ne_nil nonempty
      obtain ⟨notSpace, notMinus, notPlus⟩ := digit_plain (digit b (by simp))
      rw [dropWhile_blanks spaces notSpace]
      simp only [signedValue, notMinus, notPlus, ↓reduceIte]
    | plus spaces nonempty digit =>
      have notMinus : chr '+' ≠ chr '-' := by decide
      rw [dropWhile_blanks spaces (by decide)]
      simp only [signedValue, notMinus, ↓reduceIte]
    | minus spaces nonempty digit =>
      rw [dropWhile_blanks spaces (by decide)]
      simp only [signedValue, ↓reduceIte]
  rw [read denotes, read denotes']

/-- `strtol` reads a string that denotes an integer to its end. -/
theorem strtol_denotes {nptr : List Byte} {n : Int} (denotes : Denotes nptr n) : strtol nptr = (clampLong n, []) := by
  have whole : ∀ {digits : List Byte}, (∀ b ∈ digits, isdigit b = true) → digits.takeWhile isdigit = digits :=
    fun digit => List.takeWhile_eq_self_iff.mpr digit
  have behind : ∀ {digits : List Byte}, (∀ b ∈ digits, isdigit b = true) → digits.dropWhile isdigit = [] :=
    fun digit => List.dropWhile_eq_nil_iff.mpr digit
  cases denotes with
  | @plain blanks digits spaces nonempty digit =>
    obtain ⟨b, rest, rfl⟩ := List.exists_cons_of_ne_nil nonempty
    obtain ⟨notSpace, notMinus, notPlus⟩ := digit_plain (digit b (by simp))
    rw [strtol, dropWhile_blanks spaces notSpace]
    simp only [notMinus, notPlus, ↓reduceIte, whole digit, behind digit, nonempty, Bool.false_eq_true]
  | @plus blanks digits spaces nonempty digit =>
    have notMinus : chr '+' ≠ chr '-' := by decide
    rw [strtol, dropWhile_blanks spaces (by decide)]
    simp only [notMinus, ↓reduceIte, whole digit, behind digit, nonempty, Bool.false_eq_true]
  | @minus blanks digits spaces nonempty digit =>
    rw [strtol, dropWhile_blanks spaces (by decide)]
    simp only [↓reduceIte, whole digit, behind digit, nonempty]

/-- A string that `strtol` reads to its end denotes an integer. -/
theorem denotes_of_strtol {nptr : List Byte} (nonempty : nptr ≠ []) (read : (strtol nptr).2 = []) : ∃ n, Denotes nptr n := by
  have split : nptr.takeWhile isspace ++ nptr.dropWhile isspace = nptr := List.takeWhile_append_dropWhile
  have spaces : ∀ b ∈ nptr.takeWhile isspace, isspace b = true := fun b => List.mem_takeWhile_imp
  have ended : ∀ {unsigned : List Byte} {n : Int},
      (if unsigned.takeWhile isdigit = [] then ((0 : Int), nptr) else (n, unsigned.dropWhile isdigit)).2 = [] →
        unsigned ≠ [] ∧ ∀ b ∈ unsigned, isdigit b = true := by
    intro unsigned n all
    by_cases none : unsigned.takeWhile isdigit = []
    · rw [if_pos none] at all
      exact absurd all nonempty
    · rw [if_neg none] at all
      refine ⟨?_, List.dropWhile_eq_nil_iff.mp all⟩
      rintro rfl
      exact none rfl
  rw [← split]
  unfold strtol at read
  cases signed : nptr.dropWhile isspace with
  | nil =>
    rw [signed] at read
    exact absurd rfl (ended read).1
  | cons b rest =>
    rw [signed] at read
    by_cases minus : b = chr '-'
    · subst minus
      simp only [↓reduceIte] at read
      obtain ⟨some, digit⟩ := ended read
      exact ⟨_, .minus spaces some digit⟩
    · by_cases plus : b = chr '+'
      · subst plus
        simp only [minus, ↓reduceIte] at read
        obtain ⟨some, digit⟩ := ended read
        exact ⟨_, .plus spaces some digit⟩
      · simp only [plus, minus, ↓reduceIte] at read
        obtain ⟨some, digit⟩ := ended read
        exact ⟨_, .plain spaces some digit⟩

/-- `strtol` reads decimal digits to their end. -/
theorem strtol_digits {digits : List Byte} (nonempty : digits ≠ []) (digit : ∀ b ∈ digits, isdigit b = true)
    (fits : digitsValue digits ≤ INT_MAX) : strtol digits = ((digitsValue digits : Int), []) := by
  have clamped : clampLong (digitsValue digits) = digitsValue digits := by
    simp only [clampLong, LONG_MIN, LONG_MAX]
    unfold INT_MAX at fits
    omega
  rw [strtol_denotes (denotes_digits nonempty digit), clamped]

theorem toInt_of_fits {n : Nat} (fits : n ≤ INT_MAX) : toInt n = n := by
  unfold INT_MAX at fits
  exact Int.bmod_eq_of_le (by unfold INT_RANGE; omega) (by unfold INT_RANGE; omega)

private theorem decimal_eq (n : Nat) : decimal n = (Nat.toDigits 10 n).map chr := by
  simp [decimal, lit]

/-- A larger number has as many digits or more. -/
theorem length_decimal_le {n m : Nat} (le : n ≤ m) : (decimal n).length ≤ (decimal m).length := by
  rw [decimal_eq, decimal_eq, List.length_map, List.length_map]
  have some : 0 < (Nat.toDigits 10 m).length := Nat.length_toDigits_pos
  rw [Nat.length_toDigits_le_iff (by omega) some]
  exact Nat.lt_of_le_of_lt le ((Nat.length_toDigits_le_iff (by omega) some).mp (Nat.le_refl _))

theorem decimal_noNul (n : Nat) : 0 ∉ decimal n := by
  rw [decimal_eq, List.mem_map]
  rintro ⟨c, member, nul⟩
  have digit := Nat.isDigit_of_mem_toDigits (by omega) (by omega) member
  simp only [Char.isDigit, ge_iff_le, Bool.and_eq_true, decide_eq_true_eq, UInt32.le_iff_toNat_le] at digit
  have low : 48 ≤ c.toNat := digit.1
  have high : c.toNat ≤ 57 := digit.2
  have value := congrArg UInt8.toNat nul
  simp [chr] at value
  omega

end Clib.Numbers

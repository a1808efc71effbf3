/-
Module: LinuxKernel.Lib.Vsprintf
Purpose: `strict_strtoul` of `lib/vsprintf.c` and what it calls. A string is the list of its bytes before
  the NUL, a pointer into it what is left of the list. The digit loop wraps, and a prefix without digits
  counts as read.
Trusted boundary: human-reviewed spec
Main exports: strictStrtoul, Numeral, Strict, strictStrtoul_strict_iff
-/
import Mathlib

namespace LinuxKernel.Lib.Vsprintf

def isdigit (c : UInt8) : Bool := 48 ≤ c && c ≤ 57

def isxdigit (c : UInt8) : Bool := isdigit c || (65 ≤ c && c ≤ 70) || (97 ≤ c && c ≤ 102)

/-- `TOLOWER`. -/
def tolower (c : UInt8) : UInt8 := c ||| 0x20

/-- `simple_guess_base`. -/
def simpleGuessBase (cp : List UInt8) : Nat :=
  if cp.getD 0 0 = 48 then
    if tolower (cp.getD 1 0) = 120 ∧ isxdigit (cp.getD 2 0) then 16 else 8
  else 10

/-- The `value` of a digit. -/
def value (c : UInt8) : Nat := if isdigit c then c.toNat - 48 else (tolower c).toNat - 97 + 10

/-- The loop of `simple_strtoul`: the result, and where it stops. -/
def strtoulLoop (bits base : Nat) : (result : Nat) → List UInt8 → Nat × List UInt8
  | result, [] => (result, [])
  | result, c :: cp =>
    if isxdigit c then
      if value c ≥ base then (result, c :: cp)
      else strtoulLoop bits base ((result * base + value c) % 2 ^ bits) cp
    else (result, c :: cp)

/-- The base that `simple_strtoul` reads in, and where it starts. -/
def strtoulStart (cp : List UInt8) (base : Nat) : Nat × List UInt8 :=
  let base := if base = 0 then simpleGuessBase cp else base
  (base, if base = 16 ∧ cp.getD 0 0 = 48 ∧ tolower (cp.getD 1 0) = 120 then cp.drop 2 else cp)

/-- `simple_strtoul`: the result, and `*endp`. -/
def simpleStrtoul (bits : Nat) (cp : List UInt8) (base : Nat) : Nat × List UInt8 :=
  strtoulLoop bits (strtoulStart cp base).1 0 (strtoulStart cp base).2

/-- `strict_strtoul`: the return value, with `-EINVAL` as -22, and `*res`. -/
def strictStrtoul (bits : Nat) (cp : List UInt8) (base : Nat) : Int × Nat :=
  if cp.length = 0 then (-22, 0)
  else
    let (val, tail) := simpleStrtoul bits cp base
    if tail.length = cp.length then (-22, 0)
    else if tail = [] ∨ cp.length = cp.length - tail.length + 1 ∧ tail.getD 0 0 = 10 then (0, val)
    else (-22, 0)

def isDigitOf (base : Nat) (c : UInt8) : Bool := isxdigit c && decide (value c < base)

/-- The value of a row of digits, the highest first. -/
def valueOf (base : Nat) (digits : List UInt8) : Nat := digits.foldl (fun n c => n * base + value c) 0

/-- Nothing, or one newline. -/
def Ends (tail : List UInt8) : Prop := tail = [] ∨ tail = [10]
deriving Decidable

/-- A nonempty row of digits, then nothing or one newline. -/
def Digits (base : Nat) (cp : List UInt8) (n : Nat) : Prop :=
  (cp.takeWhile (isDigitOf base) ≠ [] ∧ Ends (cp.dropWhile (isDigitOf base))) ∧
    valueOf base (cp.takeWhile (isDigitOf base)) = n

/-- A numeral of the base, optionally followed by a newline; base 0 stands for the notation of C. -/
inductive Numeral : (base : Nat) → List UInt8 → Nat → Prop
  | plain {base cp n} : base ≠ 0 → Digits base cp n → Numeral base cp n
  | hex {base x cp n} : base = 0 ∨ base = 16 → x = 120 ∨ x = 88 → Digits 16 cp n →
    Numeral base (48 :: x :: cp) n
  | octal {cp n} : cp.getD 0 0 = 48 → Digits 8 cp n → Numeral 0 cp n
  | decimal {cp n} : cp.getD 0 0 ≠ 48 → Digits 10 cp n → Numeral 0 cp n

/-- `0x` without a digit, optionally followed by a newline. -/
def BareHex (cp : List UInt8) : Prop := ∃ x tail, (x = 120 ∨ x = 88) ∧ Ends tail ∧ cp = 48 :: x :: tail

/-- What is asked of a call: the value of the numeral if there is one that fits, an error and 0 else. -/
def Strict (bits base : Nat) (cp : List UInt8) (result : Int × Nat) : Prop :=
  (∃ n < 2 ^ bits, Numeral base cp n ∧ result = (0, n)) ∨
    (¬ ∃ n < 2 ^ bits, Numeral base cp n) ∧ result = (-22, 0)

theorem strtoulLoop_eq (bits base n : Nat) (cp : List UInt8) :
    strtoulLoop bits base (n % 2 ^ bits) cp =
      ((cp.takeWhile (isDigitOf base)).foldl (fun n c => n * base + value c) n % 2 ^ bits,
        cp.dropWhile (isDigitOf base)) := by
  induction cp generalizing n with
  | nil => rfl
  | cons c cp ih =>
    have wrap : (n % 2 ^ bits * base + value c) % 2 ^ bits = (n * base + value c) % 2 ^ bits := by
      rw [Nat.add_mod, Nat.mod_mul_mod, ← Nat.add_mod]
    rw [strtoulLoop, wrap, ih]
    by_cases digit : isxdigit c <;> by_cases fits : value c < base <;> simp [isDigitOf, digit, fits]

theorem tolower_eq_x {c : UInt8} : tolower c = 120 ↔ c = 120 ∨ c = 88 := by
  revert c
  decide +kernel

variable {base n : Nat} {cp : List UInt8}

/-- After `0x` the digits are read in base 16, and the base is 16 then or a digit follows; the string is
read from its start else. -/
theorem strtoulStart_cases (base : Nat) (cp : List UInt8) :
    (∃ x rest, cp = 48 :: x :: rest ∧ (x = 120 ∨ x = 88) ∧ strtoulStart cp base = (16, rest) ∧
      (base = 16 ∨ base = 0 ∧ isxdigit (rest.getD 0 0))) ∨
    strtoulStart cp base = (base, cp) ∧ base ≠ 0 ∨
    strtoulStart cp base = (8, cp) ∧ base = 0 ∧ cp.getD 0 0 = 48 ∨
    strtoulStart cp base = (10, cp) ∧ base = 0 ∧ cp.getD 0 0 ≠ 48 := by
  by_cases prefixed : cp.getD 0 0 = 48 ∧ tolower (cp.getD 1 0) = 120
  · rcases cp with - | ⟨c, - | ⟨x, rest⟩⟩
    · simp at prefixed
    · simp [tolower_eq_x] at prefixed
    · obtain ⟨rfl, prefixed⟩ : c = 48 ∧ tolower x = 120 := prefixed
      have := tolower_eq_x.mp prefixed
      by_cases zero : base = 0 <;> by_cases hex : base = 16 <;> by_cases digit : isxdigit (rest.getD 0 0) <;>
        simp_all [strtoulStart, simpleGuessBase]
  · by_cases zero : base = 0 <;> by_cases first : cp.getD 0 0 = 48 <;>
      simp_all [strtoulStart, simpleGuessBase]

theorem Digits.isxdigit_first (digits : Digits base cp n) : isxdigit (cp.getD 0 0) := by
  obtain ⟨⟨nonempty, -⟩, -⟩ := digits
  rcases cp with - | ⟨c, cp⟩
  · contradiction
  · by_contra digit
    exact nonempty (List.takeWhile_cons_of_neg fun both => digit (Bool.and_elim_left both))

/-- A row of digits does not start with `0x`. -/
theorem Digits.not_hex (digits : Digits base cp n) : tolower (cp.getD 1 0) ≠ 120 := by
  obtain ⟨⟨nonempty, ends⟩, -⟩ := digits
  rcases cp with - | ⟨c, - | ⟨x, cp⟩⟩
  · contradiction
  · rw [List.getD_cons_succ]
    decide
  · by_cases digit : isDigitOf base c
    · rw [List.dropWhile_cons_of_pos digit] at ends
      rw [Ne, tolower_eq_x]
      rintro (rfl | rfl) <;> simp [isDigitOf, isxdigit, isdigit, Ends] at ends
    · exact absurd (List.takeWhile_cons_of_neg digit) nonempty

theorem numeral_iff : Numeral base cp n ↔ Digits (strtoulStart cp base).1 (strtoulStart cp base).2 n := by
  constructor
  · intro numeral
    cases numeral with
    | hex based _ digits =>
      have := digits.isxdigit_first
      rcases based with rfl | rfl <;> simp_all [strtoulStart, simpleGuessBase, tolower_eq_x]
    | plain _ digits | octal _ digits | decimal _ digits =>
      have := digits.not_hex
      simp_all [strtoulStart, simpleGuessBase]
  · rcases strtoulStart_cases base cp with ⟨x, rest, rfl, hex, start, based⟩ | ⟨start, nonzero⟩ |
      ⟨start, rfl, first⟩ | ⟨start, rfl, first⟩ <;> rw [start]
    exacts [.hex (based.symm.imp And.left id) hex, .plain nonzero, .octal first, .decimal first]

theorem bareHex_iff : base = 16 ∧ BareHex cp ↔
    ((strtoulStart cp base).2 ≠ cp ∧
      (strtoulStart cp base).2.takeWhile (isDigitOf (strtoulStart cp base).1) = []) ∧
      Ends ((strtoulStart cp base).2.dropWhile (isDigitOf (strtoulStart cp base).1)) := by
  constructor
  · rintro ⟨rfl, x, tail, rfl | rfl, rfl | rfl, rfl⟩ <;> decide +kernel
  · rintro ⟨⟨skipped, empty⟩, ends⟩
    rcases strtoulStart_cases base cp with ⟨x, rest, rfl, hex, start, based⟩ | ⟨start, -⟩ | ⟨start, -⟩
      | ⟨start, -⟩ <;>
      rw [start] at skipped empty ends
    · rw [← List.nil_append (rest.dropWhile _), ← empty, List.takeWhile_append_dropWhile] at ends
      have digit : ¬ isxdigit (rest.getD 0 0) := by rcases ends with rfl | rfl <;> decide
      exact ⟨based.resolve_right fun zero => digit zero.2, x, rest, hex, ends, rfl⟩
    all_goals exact absurd rfl skipped

/-- A call succeeds if a prefix or a digit is read and at most a newline is left. -/
theorem strictStrtoul_eq (bits base : Nat) (cp : List UInt8) :
    strictStrtoul bits cp base =
      let start := strtoulStart cp base
      let digits := start.2.takeWhile (isDigitOf start.1)
      if (start.2 ≠ cp ∨ digits ≠ []) ∧ Ends (start.2.dropWhile (isDigitOf start.1)) then
        (0, valueOf start.1 digits % 2 ^ bits)
      else (-22, 0) := by
  have shorter : (strtoulStart cp base).2 = cp ∨ (strtoulStart cp base).2.length < cp.length := by
    rcases strtoulStart_cases base cp with
      ⟨x, rest, rfl, -, start, -⟩ | ⟨start, -⟩ | ⟨start, -⟩ | ⟨start, -⟩ <;>
      simp [start]
  have loop := strtoulLoop_eq bits (strtoulStart cp base).1 0 (strtoulStart cp base).2
  rw [Nat.zero_mod] at loop
  rw [strictStrtoul, simpleStrtoul, loop]
  generalize strtoulStart cp base = start at *
  have whole := congrArg List.length (@List.takeWhile_append_dropWhile _ (isDigitOf start.1) start.2)
  have ends (tail : List UInt8) : Ends tail ↔ tail = [] ∨ tail.length = 1 ∧ tail.getD 0 0 = 10 := by
    rcases tail with - | ⟨c, - | ⟨d, tail⟩⟩ <;> simp [Ends]
  simp only [ends, valueOf]
  generalize start.2.dropWhile (isDigitOf start.1) = tail at *
  generalize start.2.takeWhile (isDigitOf start.1) = digits at *
  grind [List.length_eq_zero_iff]

/-- A call does what is asked of it exactly if the string is no numeral that does not fit, and not a bare
`0x` in base 16. -/
theorem strictStrtoul_strict_iff (bits base : Nat) (cp : List UInt8) :
    Strict bits base cp (strictStrtoul bits cp base) ↔
      (∀ n, Numeral base cp n → n < 2 ^ bits) ∧ ¬ (base = 16 ∧ BareHex cp) := by
  simp only [Strict, strictStrtoul_eq, numeral_iff, Digits, bareHex_iff]
  generalize strtoulStart cp base = start
  generalize start.2.dropWhile (isDigitOf start.1) = tail
  generalize start.2.takeWhile (isDigitOf start.1) = digits
  by_cases ends : Ends tail <;> by_cases empty : digits = [] <;> by_cases skipped : start.2 = cp <;>
    by_cases fits : valueOf start.1 digits < 2 ^ bits <;> simp_all [Nat.mod_eq_of_lt]

/-- `0x` is accepted as 0. -/
theorem strictStrtoul_not_strict :
    strictStrtoul 64 [48, 120] 16 = (0, 0) ∧ ¬ Strict 64 16 [48, 120] (0, 0) := by
  refine ⟨by decide, ?_⟩
  rintro (⟨n, -, numeral, -⟩ | ⟨-, error⟩)
  · exact (numeral_iff.mp numeral).1.1 (by decide)
  · cases error

end LinuxKernel.Lib.Vsprintf

set_option relaxedAutoImplicit false
set_option autoImplicit false

/-!
# Numerals

A number is written with the fewest digits of its base. It is read from decimal digits, with
one optional plus sign before them and any number of leading zeros; a reader for words of a
fixed width refuses a number that does not fit.

## Main definitions

* `OctalTape.Text.decimal`, `OctalTape.Text.octal` — the text of a number.
* `OctalTape.Text.decimalList` — the numbers of a list, separated by commas.
* `OctalTape.Text.readNat?` — the number that a text denotes.
* `OctalTape.Text.readBelow?` — the same, if the number lies below a bound.

## Main results

* `OctalTape.Text.readNat?_decimalDigits` — reading what `decimalDigits` writes gives the number
  back.
-/

namespace OctalTape.Text

/-! ## Writing -/

/-- The decimal digits of a number. -/
def decimalDigits (n : Nat) : List Char := Nat.toDigits 10 n

/-- The number in decimal. -/
def decimal (n : Nat) : String := String.ofList (decimalDigits n)

/-- The number in octal. -/
def octal (n : Nat) : String := String.ofList (Nat.toDigits 8 n)

/-- The numbers in decimal, with a comma between neighbours. -/
def decimalList (ns : List UInt8) : String :=
  String.ofList ([','].intercalate (ns.map fun n => decimalDigits n.toNat))

/-! ## Reading -/

/-- The text without one leading plus sign. -/
def dropPlus : List Char → List Char
  | '+' :: cs => cs
  | cs => cs

/-- The number denoted by one or more decimal digits with an optional plus sign before them;
nothing if the text has another form. -/
def readNat? (cs : List Char) : Option Nat :=
  let digits := dropPlus cs
  if !digits.isEmpty && digits.all Char.isDigit then some (Nat.ofDigitChars 10 digits 0) else none

/-- The number that the text denotes, if it is below `bound`. -/
def readBelow? (bound : Nat) (cs : List Char) : Option Nat :=
  (readNat? cs).filter (· < bound)

/-- The byte that the text denotes. -/
def readByte? (cs : List Char) : Option UInt8 :=
  (readBelow? UInt8.size cs).map UInt8.ofNat

/-- The 64-bit word that the text denotes. -/
def readWord? (cs : List Char) : Option UInt64 :=
  (readBelow? UInt64.size cs).map UInt64.ofNat

/-! ## Reading what was written -/

/-- A written number has a digit. -/
theorem decimalDigits_ne_nil (n : Nat) : decimalDigits n ≠ [] := Nat.toDigits_ne_nil

/-- A written number has nothing but digits. -/
theorem isDigit_of_mem_decimalDigits {n : Nat} {c : Char} (h : c ∈ decimalDigits n) :
    c.isDigit :=
  Nat.isDigit_of_mem_toDigits (by decide) (by decide) h

/-- Digits alone have no plus sign to be dropped. -/
theorem dropPlus_eq_self {cs : List Char} (h : ∀ c ∈ cs, c.isDigit) : dropPlus cs = cs := by
  unfold dropPlus
  split
  · next cs =>
    have : Char.isDigit '+' = true := h '+' (by simp)
    exact absurd this (by decide)
  · rfl

/-- A written number reads back. -/
theorem readNat?_decimalDigits (n : Nat) : readNat? (decimalDigits n) = some n := by
  have hdig : ∀ c ∈ decimalDigits n, c.isDigit := fun _ => isDigit_of_mem_decimalDigits
  have hne : (decimalDigits n).isEmpty = false := by simpa using decimalDigits_ne_nil n
  have hread : Nat.ofDigitChars 10 (decimalDigits n) 0 = n :=
    Nat.ofDigitChars_toDigits (by decide) (by decide)
  simp [readNat?, dropPlus_eq_self hdig, List.all_eq_true.mpr hdig, hne, hread]

/-- A written number below the bound reads back. -/
theorem readBelow?_decimalDigits {bound n : Nat} (h : n < bound) :
    readBelow? bound (decimalDigits n) = some n := by
  rw [readBelow?, readNat?_decimalDigits, Option.filter_some, if_pos (decide_eq_true h)]

/-- A written byte reads back. -/
theorem readByte?_decimalDigits (b : UInt8) : readByte? (decimalDigits b.toNat) = some b := by
  rw [readByte?, readBelow?_decimalDigits b.toNat_lt_size, Option.map_some, UInt8.ofNat_toNat]

/-- A written word reads back. -/
theorem readWord?_decimalDigits (w : UInt64) : readWord? (decimalDigits w.toNat) = some w := by
  rw [readWord?, readBelow?_decimalDigits w.toNat_lt_size, Option.map_some, UInt64.ofNat_toNat]

end OctalTape.Text

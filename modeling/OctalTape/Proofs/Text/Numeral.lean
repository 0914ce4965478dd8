import Mathlib.Data.Nat.Digits.Defs
import OctalTape.Text.Numeral

set_option relaxedAutoImplicit false
set_option autoImplicit false

/-!
# The grammar of numerals

A numeral is one or more decimal digits with perhaps a plus sign before them. It denotes the sum of
its digits, each weighted with the power of ten of its place; so leading zeros do not matter. The
readers accept exactly the numerals, and of those only the ones whose number lies below the bound.

## Main definitions

* `OctalTape.Text.Denotes` — a text is a numeral of a number.

## Main results

* `OctalTape.Text.readNat?_eq_some_iff` — the numerals are exactly the texts that are read.
* `OctalTape.Text.readBelow?_eq_some_iff`, `OctalTape.Text.readByte?_eq_some_iff`,
  `OctalTape.Text.readWord?_eq_some_iff` — the same for readers with a bound.
-/

namespace OctalTape.Text

/-- The number that a decimal digit stands for. -/
def digitValue (d : Char) : ℕ := d.toNat - '0'.toNat

/-- A text is a numeral of a number: one or more decimal digits, perhaps behind a plus sign, whose
values weighted with the powers of ten, from the last digit on, add up to the number. -/
def Denotes (cs : List Char) (n : ℕ) : Prop :=
  ∃ digits, (cs = digits ∨ cs = '+' :: digits) ∧ digits ≠ [] ∧ (∀ d ∈ digits, d.isDigit) ∧
    Nat.ofDigits 10 (digits.map digitValue).reverse = n

/-- Digits read one by one from the first are weighted with the powers of ten. -/
lemma ofDigitChars_eq_ofDigits (digits : List Char) (n : ℕ) :
    Nat.ofDigitChars 10 digits n =
      n * 10 ^ digits.length + Nat.ofDigits 10 (digits.map digitValue).reverse := by
  induction digits generalizing n with
  | nil => simp [Nat.ofDigitChars]
  | cons d digits ih =>
    rw [Nat.ofDigitChars_cons, ih, List.map_cons, Nat.ofDigits_reverse_cons, List.length_map,
      List.length_cons, pow_succ, digitValue]
    ring

/-- Behind a plus sign that is dropped, or without one, stand the digits. -/
lemma dropPlus_eq_iff {cs digits : List Char} (h : ∀ d ∈ digits, d.isDigit) :
    dropPlus cs = digits ↔ cs = digits ∨ cs = '+' :: digits := by
  constructor
  · rintro rfl
    unfold dropPlus
    split
    · exact .inr rfl
    · exact .inl rfl
  · rintro (rfl | rfl)
    · exact dropPlus_eq_self h
    · rfl

/-- The numerals are exactly the texts that are read, and they are read as what they denote.

**Proof sketch.** A text of digits is what is left of a numeral without its sign
(`dropPlus_eq_iff`), and what is read is the value of the digits from the last to the first. -/
theorem readNat?_eq_some_iff {cs : List Char} {n : ℕ} : readNat? cs = some n ↔ Denotes cs n := by
  have hvalue : ∀ digits : List Char, Nat.ofDigitChars 10 digits 0 =
      Nat.ofDigits 10 (digits.map digitValue).reverse := fun digits => by
    rw [ofDigitChars_eq_ofDigits, Nat.zero_mul, Nat.zero_add]
  unfold readNat?
  simp only [Bool.and_eq_true, Bool.not_eq_true', List.isEmpty_eq_false_iff, List.all_eq_true,
    Option.ite_none_right_eq_some, Option.some.injEq, hvalue]
  constructor
  · rintro ⟨⟨hne, hdigits⟩, hn⟩
    exact ⟨dropPlus cs, (dropPlus_eq_iff hdigits).mp rfl, hne, hdigits, hn⟩
  · rintro ⟨digits, hcs, hne, hdigits, hn⟩
    rw [(dropPlus_eq_iff hdigits).mpr hcs]
    exact ⟨⟨hne, hdigits⟩, hn⟩

/-- With a bound, exactly the numerals of numbers below it are read. -/
theorem readBelow?_eq_some_iff {bound n : ℕ} {cs : List Char} :
    readBelow? bound cs = some n ↔ Denotes cs n ∧ n < bound := by
  rw [readBelow?, Option.filter_eq_some_iff, readNat?_eq_some_iff, decide_eq_true_iff]

/-- With a bound, nothing is read exactly if the text denotes no number below it. -/
lemma readBelow?_eq_none_iff {bound : ℕ} {cs : List Char} :
    readBelow? bound cs = none ↔ ∀ n < bound, ¬ Denotes cs n := by
  rw [Option.eq_none_iff_forall_ne_some]
  simp only [Ne, readBelow?_eq_some_iff, not_and, imp_not_comm]

/-- Exactly the numerals of the numbers that fit into a byte are read as bytes. -/
theorem readByte?_eq_some_iff {cs : List Char} {b : UInt8} :
    readByte? cs = some b ↔ Denotes cs b.toNat := by
  simp only [readByte?, Option.map_eq_some_iff, readBelow?_eq_some_iff]
  constructor
  · rintro ⟨n, ⟨hn, hlt⟩, rfl⟩
    rwa [UInt8.toNat_ofNat_of_lt' hlt]
  · intro hb
    exact ⟨b.toNat, ⟨hb, b.toNat_lt_size⟩, UInt8.ofNat_toNat⟩

/-- Nothing is read as a byte exactly if the text denotes no number up to the greatest byte. -/
lemma readByte?_eq_none_iff {cs : List Char} : readByte? cs = none ↔ ∀ n ≤ 255, ¬ Denotes cs n := by
  rw [readByte?, Option.map_eq_none_iff, readBelow?_eq_none_iff]
  simp only [UInt8.size, Nat.lt_succ_iff]

/-- Exactly the numerals of the numbers that fit into a word are read as words. -/
theorem readWord?_eq_some_iff {cs : List Char} {w : UInt64} :
    readWord? cs = some w ↔ Denotes cs w.toNat := by
  simp only [readWord?, Option.map_eq_some_iff, readBelow?_eq_some_iff]
  constructor
  · rintro ⟨n, ⟨hn, hlt⟩, rfl⟩
    rwa [UInt64.toNat_ofNat_of_lt' hlt]
  · intro hw
    exact ⟨w.toNat, ⟨hw, w.toNat_lt_size⟩, UInt64.ofNat_toNat⟩

/-- Nothing is read as a word exactly if the text denotes no number that fits into one. -/
lemma readWord?_eq_none_iff {cs : List Char} :
    readWord? cs = none ↔ ∀ n < 2 ^ 64, ¬ Denotes cs n := by
  rw [readWord?, Option.map_eq_none_iff, readBelow?_eq_none_iff]
  rfl

end OctalTape.Text

set_option relaxedAutoImplicit false
set_option autoImplicit false

/-!
# Words

A register holds a word of 64 bits. The machine divides words by powers of two and cuts them
down to their lowest octal digit; both are integer operations on the number that the word
holds, whatever the other word is.

## Main definitions

* `OctalTape.Word` — a 64-bit word.
* `OctalTape.Word.divPow2` — division by a power of two.
* `OctalTape.Word.lowDigit` — the lowest octal digit.

## Main results

* `OctalTape.Word.toNat_divPow2` — division by `2 ^ k` is that of the numbers for every exponent
  `k`, those beyond the width included.
* `OctalTape.Word.toNat_lowDigit` — the lowest octal digit is the remainder modulo `8`.
-/

namespace OctalTape

/-- A word of 64 bits, the content of a register. -/
abbrev Word := UInt64

namespace Word

/-- The quotient of `a` by `2 ^ k`. A shift takes its amount modulo the width, so the exponents
from `64` on, where the quotient is `0`, are a case of their own. -/
def divPow2 (a k : Word) : Word :=
  if k < 64 then a >>> k else 0

/-- The lowest octal digit of a word. -/
def lowDigit (w : Word) : Word := w % 8

/-! ## The numbers behind the words -/

/-- The quotient is that of the numbers, also for exponents beyond the width. -/
theorem toNat_divPow2 (a k : Word) : (a.divPow2 k).toNat = a.toNat >>> k.toNat := by
  unfold divPow2
  split
  · next h =>
    have hk : k.toNat < 64 := by simpa [UInt64.lt_iff_toNat_lt] using h
    rw [UInt64.toNat_shiftRight, Nat.mod_eq_of_lt hk]
  · next h =>
    have hk : 64 ≤ k.toNat := by simpa [UInt64.lt_iff_toNat_lt] using h
    have ha := Nat.lt_of_lt_of_le a.toNat_lt (Nat.pow_le_pow_right (by decide) hk)
    rw [Nat.shiftRight_eq_div_pow, Nat.div_eq_of_lt ha]
    rfl

/-- A quotient is no greater than what is divided. -/
theorem toNat_divPow2_le (a k : Word) : (a.divPow2 k).toNat ≤ a.toNat := by
  rw [toNat_divPow2, Nat.shiftRight_eq_div_pow]
  exact Nat.div_le_self _ _

/-- The lowest octal digit is the remainder modulo eight. -/
theorem toNat_lowDigit (w : Word) : w.lowDigit.toNat = w.toNat % 8 := by
  simp [lowDigit, UInt64.toNat_mod]

/-- The lowest octal digit loses nothing when it is kept in a byte. -/
theorem toNat_toUInt8_lowDigit (w : Word) : w.lowDigit.toUInt8.toNat = w.toNat % 8 := by
  rw [UInt64.toNat_toUInt8, toNat_lowDigit]
  omega

end Word

end OctalTape

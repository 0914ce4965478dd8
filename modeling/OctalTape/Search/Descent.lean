import OctalTape.Search.Report

set_option relaxedAutoImplicit false
set_option autoImplicit false

/-!
# The descent through octal digits

A program that shifts one octal digit out of its seed for each value that it emits, emits the
last values of a target already from the first digits of the seed. So the seed of a target is
sought digit by digit from the highest: a number whose output is a part of the end of the
target, and a longer one than before, is extended by another digit.

## Main definitions

* `OctalTape.extensions` — the numbers with one more octal digit.
* `OctalTape.search` — the descent from a number.

## Main results

* `OctalTape.length_extensions`, `OctalTape.mem_extensions` — a word has eight extensions,
  unless they would not fit into a word; then it has none.

## Implementation notes

The descent ends because the depth stays below the length of the target, whatever the outputs
are. A zero in front of a seed is no digit of it, so without the demand for a longer output the
number zero would be extended by zero to that depth.
-/

namespace OctalTape

/-! ## Extensions -/

/-- The octal digits from the least. -/
def octalDigits : List Word := [0, 1, 2, 3, 4, 5, 6, 7]

/-- The words that have one octal digit more than `stem` has, in rising order. There are none if
they do not fit into a word. -/
def extensions (stem : Word) : List Word :=
  if 8 * stem.toNat < UInt64.size then octalDigits.map fun digit => 8 * stem + digit else []

/-- There are eight extensions, or none where they would not fit into a word. -/
theorem length_extensions (stem : Word) :
    (extensions stem).length = if 8 * stem.toNat < UInt64.size then 8 else 0 := by
  unfold extensions
  split <;> simp [octalDigits]

/-- The octal digits are the words below eight. -/
theorem mem_octalDigits {d : Word} : d ∈ octalDigits ↔ d.toNat < 8 := by
  constructor
  · revert d
    simp [octalDigits]
  · intro h
    rw [← UInt64.ofNat_toNat (x := d)]
    generalize d.toNat = n at h
    match n, h with
    | 0, _ | 1, _ | 2, _ | 3, _ | 4, _ | 5, _ | 6, _ | 7, _ => decide

/-- Below the bound nothing is lost to the width of a word. -/
theorem toNat_extend {stem digit : Word} (hs : 8 * stem.toNat < UInt64.size)
    (hd : digit.toNat < 8) : (8 * stem + digit).toNat = 8 * stem.toNat + digit.toNat := by
  rw [UInt64.toNat_add, UInt64.toNat_mul]
  simp only [UInt64.size, UInt64.reduceToNat] at hs ⊢
  omega

/-- The extensions of a word are the words that it is the eighth part of.

**Proof sketch.** If eight times the stem fits into a word, a word is an extension by its lowest
digit, or none. Otherwise the stem has no extensions, and no word is eight times as great. -/
theorem mem_extensions {stem w : Word} :
    w ∈ extensions stem ↔ w.toNat / 8 = stem.toNat := by
  have hw : w.toNat < UInt64.size := w.toNat_lt_size
  unfold extensions
  split
  · next hs =>
    simp only [List.mem_map, mem_octalDigits]
    constructor
    · rintro ⟨d, hd, rfl⟩
      rw [toNat_extend hs hd]
      omega
    · intro hdiv
      have hmod : (w % 8).toNat = w.toNat % 8 := by simp [UInt64.toNat_mod]
      refine ⟨w % 8, by omega, UInt64.toNat_inj.mp ?_⟩
      rw [toNat_extend hs (by omega)]
      omega
  · next hs =>
    simp only [List.not_mem_nil, false_iff]
    omega

/-! ## The descent -/

/-- Look for a seed of `target` among the numbers that begin with the digits of `stem`, where
`out` is the output of a seed. The search is `depth` digits deep, and the output of `stem` has
the length `matched`. It ends with the first seed that it finds, or with the first error of a
run. -/
def search (out : Word → Except Error (List UInt8)) (target : List UInt8)
    (stem : Word) (depth matched : Nat) : Report (Option Word) :=
  Report.firstOf (extensions stem) fun candidate => do
    let output ← Report.observe (.tried candidate) (out candidate)
    if output = target then
      return some candidate
    else if target.length < output.length then
      return none
    else if h : matched < output.length ∧ depth + 1 < target.length ∧ output <:+ target then
      Report.tell (.descended depth candidate output)
      search out target candidate (depth + 1) output.length
    else
      return none
termination_by target.length - depth

end OctalTape

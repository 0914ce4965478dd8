set_option relaxedAutoImplicit false
set_option autoImplicit false

/-!
# Blank characters and trimming

A character is blank if it has the Unicode property `White_Space`. Lines, program texts and
their fields are trimmed of blank characters on both sides before they are read.

## Main definitions

* `OctalTape.Text.isBlank` — the `White_Space` property, as a table of code points.
* `OctalTape.Text.trim` — a text without the blank characters at its two ends.

## Main results

* `OctalTape.Text.trim_eq_nil_iff` — a text trims to nothing iff all of it is blank.
* `OctalTape.Text.trim_blank_append`, `OctalTape.Text.trim_append_blank` — blanks put around a
  text do not change what it trims to.
* `OctalTape.Text.trim_eq_self` — a text whose first and last characters are not blank is
  trimmed already.
-/

namespace OctalTape.Text

/-- The code points with the property `White_Space`: the controls from tab to carriage
return, the space, next line, and the spaces and separators beyond ASCII. The zero-width
characters and the information separators U+001C to U+001F are not among them. -/
def isBlank (c : Char) : Bool :=
  let n := c.toNat
  (0x09 ≤ n && n ≤ 0x0D) || n == 0x20 || n == 0x85 || n == 0xA0 || n == 0x1680 ||
    (0x2000 ≤ n && n ≤ 0x200A) || n == 0x2028 || n == 0x2029 || n == 0x202F ||
    n == 0x205F || n == 0x3000

/-- The text without the blank characters at its end. -/
def trimEnd (cs : List Char) : List Char :=
  (cs.reverse.dropWhile isBlank).reverse

/-- The text without the blank characters at its two ends. -/
def trim (cs : List Char) : List Char :=
  trimEnd (cs.dropWhile isBlank)

/-! ## Trimming -/

/-- Blanks after a text are trimmed off its end. -/
theorem trimEnd_append_blank {ws : List Char} (h : ∀ c ∈ ws, isBlank c) (cs : List Char) :
    trimEnd (cs ++ ws) = trimEnd cs := by
  unfold trimEnd
  rw [List.reverse_append, List.dropWhile_append_of_pos fun c hc => h c (by simpa using hc)]

/-- Blanks in front of a text do not matter. -/
theorem trim_blank_append {ws : List Char} (h : ∀ c ∈ ws, isBlank c) (cs : List Char) :
    trim (ws ++ cs) = trim cs := by
  unfold trim
  rw [List.dropWhile_append_of_pos h]

/-- Nothing is left behind the blanks exactly if there is nothing else. -/
theorem dropWhile_eq_nil_iff_blank {cs : List Char} :
    cs.dropWhile isBlank = [] ↔ ∀ c ∈ cs, isBlank c := by
  induction cs with
  | nil => simp
  | cons c cs ih =>
    by_cases hc : isBlank c
    · simp [hc, ih]
    · simp [hc]

/-- Blanks after a text do not matter. -/
theorem trim_append_blank {ws : List Char} (h : ∀ c ∈ ws, isBlank c) (cs : List Char) :
    trim (cs ++ ws) = trim cs := by
  unfold trim
  rw [List.dropWhile_append]
  split
  · next hnil =>
    rw [List.isEmpty_iff.mp hnil, dropWhile_eq_nil_iff_blank.mpr h]
  · exact trimEnd_append_blank h _

/-- A text trims to nothing iff all of it is blank.

**Proof sketch.** What is left in front, if anything, begins with a character that is not blank,
and stays. -/
theorem trim_eq_nil_iff {cs : List Char} : trim cs = [] ↔ ∀ c ∈ cs, isBlank c := by
  constructor
  · intro h
    unfold trim trimEnd at h
    rw [List.reverse_eq_nil_iff, dropWhile_eq_nil_iff_blank] at h
    rcases hd : cs.dropWhile isBlank with _ | ⟨c, ds⟩
    · exact dropWhile_eq_nil_iff_blank.mp hd
    · have hc : isBlank c = true := h c (by simp [hd])
      have := List.head?_dropWhile_not isBlank cs
      rw [hd] at this
      simp [hc] at this
  · intro h
    unfold trim
    rw [dropWhile_eq_nil_iff_blank.mpr h]
    rfl

/-- A text whose first and last characters are not blank is trimmed already. -/
theorem trim_eq_self {cs : List Char} (hd : ∀ c ∈ cs.head?, ¬ isBlank c)
    (hl : ∀ c ∈ cs.getLast?, ¬ isBlank c) : trim cs = cs := by
  have key : ∀ {ds : List Char}, (∀ c ∈ ds.head?, ¬ isBlank c) → ds.dropWhile isBlank = ds := by
    intro ds h
    cases ds with
    | nil => rfl
    | cons d ds => exact List.dropWhile_cons_of_neg (h d (by simp))
  unfold trim trimEnd
  rw [key hd, key (by simpa using hl), List.reverse_reverse]

end OctalTape.Text

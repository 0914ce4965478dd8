import Mathlib.Data.List.Forall2
import OctalTape.Snapshot

set_option relaxedAutoImplicit false
set_option autoImplicit false

/-!
# The lines of a text

A line of a text ends with a line feed or with a carriage return and a line feed; the last one may
also end with the text. A carriage return elsewhere is a character of its line like any other. A
snapshot is read from these lines, trimmed, without those that are blank.

## Main definitions

* `OctalTape.Text.splitLines` — the lines of a text without the line breaks.

## Main results

* `OctalTape.Text.exists_forall₂_splitLines` — the lines and what stands between the line feeds.
* `OctalTape.Snapshot.lines_eq_splitLines` — the lines that a snapshot is read from.

## Implementation notes

The reader of snapshots cuts a text at its line feeds only. What it misses, a carriage return at
the end of a line and an empty line at the end of the text, is trimmed off or left out.
-/

namespace OctalTape

namespace Text

/-- Put a character in front of the first of some lines. -/
def consFirst (c : Char) : List (List Char) → List (List Char)
  | [] => [[c]]
  | line :: lines => (c :: line) :: lines

/-- The lines of a text, without their line breaks. -/
def splitLines : List Char → List (List Char)
  | [] => []
  | '\n' :: cs => [] :: splitLines cs
  | '\r' :: '\n' :: cs => [] :: splitLines cs
  | c :: cs => consFirst c (splitLines cs)

example : splitLines "a\r\n\nb\r".toList = [['a'], [], ['b', '\r']] := by decide

/-- What stands between two line feeds is a line, perhaps with a carriage return behind it. -/
def IsPart (part line : List Char) : Prop := part = line ∨ part = line ++ ['\r']

/-- A character in front of a text is in front of its first part and in front of its first line.

**Proof sketch.** If there is a first line, the character goes in front of it, and nothing changes
behind. If there is none, the text was empty, and the character is now its only line. -/
lemma exists_forall₂_consFirst {parts lines rest : List (List Char)} (c : Char)
    (hne : parts ≠ []) (hrest : rest = [] ∨ rest = [[]])
    (h : List.Forall₂ IsPart parts (lines ++ rest)) :
    ∃ rest', (rest' = [] ∨ rest' = [[]]) ∧
      List.Forall₂ IsPart (parts.modifyHead (c :: ·)) (consFirst c lines ++ rest') := by
  have hcons : ∀ {part line}, IsPart part line → IsPart (c :: part) (c :: line) := by
    rintro part line (rfl | rfl)
    · exact .inl rfl
    · exact .inr rfl
  cases lines with
  | nil =>
    -- the text had no line, and now it has one
    refine ⟨[], .inl rfl, ?_⟩
    rcases hrest with rfl | rfl
    · exact absurd (List.forall₂_nil_right_iff.mp h) hne
    · cases h with
      | cons hpart hparts => exact .cons (hcons hpart) hparts
  | cons line lines =>
    refine ⟨rest, hrest, ?_⟩
    cases h with
    | cons hpart hparts => exact .cons (hcons hpart) hparts

/-- Between the line feeds of a text stand its lines, some with a carriage return behind them, and
at the end perhaps an empty text that is no line.

**Proof sketch.** Induction along the recursion of `splitLines`: at the end of the text, at a line
feed, at a carriage return in front of one, and at any other character, which goes in front of the
first part and of the first line (`exists_forall₂_consFirst`). -/
theorem exists_forall₂_splitLines (cs : List Char) :
    ∃ rest, (rest = [] ∨ rest = [[]]) ∧
      List.Forall₂ IsPart (cs.splitOn '\n') (splitLines cs ++ rest) := by
  induction cs using splitLines.induct with
  | case1 => exact ⟨[[]], .inr rfl, .cons (.inl rfl) .nil⟩
  | case2 cs ih =>
    obtain ⟨rest, hrest, hparts⟩ := ih
    refine ⟨rest, hrest, ?_⟩
    rw [List.splitOn_cons_eq_if_modifyHead]
    exact .cons (.inl rfl) hparts
  | case3 cs ih =>
    obtain ⟨rest, hrest, hparts⟩ := ih
    refine ⟨rest, hrest, ?_⟩
    rw [List.splitOn_cons_eq_if_modifyHead, List.splitOn_cons_eq_if_modifyHead]
    exact .cons (.inr rfl) hparts
  | case4 c cs hfeed hreturn ih =>
    obtain ⟨rest, hrest, hparts⟩ := ih
    rw [List.splitOn_cons_eq_if_modifyHead, if_neg (by simpa using hfeed), splitLines]
    · exact exists_forall₂_consFirst c (List.splitOn_ne_nil '\n' cs) hrest hparts
    · exact hfeed
    · exact hreturn

end Text

namespace Snapshot

open Text

/-- A snapshot is read from the lines of its text, trimmed, without those that are blank.

**Proof sketch.** The parts between the line feeds are the lines, some with a carriage return
behind them (`exists_forall₂_splitLines`), which is blank and trimmed off; so is the part that is
no line, if there is one. -/
theorem lines_eq_splitLines (cs : List Char) :
    lines cs = ((splitLines cs).map trim).filter (!·.isEmpty) := by
  obtain ⟨rest, hrest, hparts⟩ := exists_forall₂_splitLines cs
  have htrim : (cs.splitOn '\n').map trim = (splitLines cs ++ rest).map trim := by
    rw [← List.forall₂_eq_eq_eq, List.forall₂_map_left_iff, List.forall₂_map_right_iff]
    refine hparts.imp ?_
    rintro part line (rfl | rfl)
    · rfl
    · exact trim_append_blank (List.forall_mem_singleton.mpr (by decide)) line
  have hblank : (rest.map trim).filter (!·.isEmpty) = [] := by
    rcases hrest with rfl | rfl
    · rfl
    · rfl
  unfold lines
  rw [htrim, List.map_append, List.filter_append, hblank, List.append_nil]

end Snapshot

end OctalTape

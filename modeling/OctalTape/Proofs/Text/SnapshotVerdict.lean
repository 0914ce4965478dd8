import OctalTape.Proofs.Text.SnapshotGrammar

set_option relaxedAutoImplicit false
set_option autoImplicit false

/-!
# Why a snapshot is refused

A text can be faulty in several places. If any of its lines is malformed, the first such line alone
decides which error is reported, whatever stands behind it and whatever is missing. If none is, the
error is that of the first register without a line, and of the program if only that is missing.

## Main definitions

* `OctalTape.Snapshot.Line.RefusedFor` — the lines that are malformed, and the error of each.
* `OctalTape.Snapshot.RefusedFor` — the lines that make up no snapshot, and the error of each such
  text.

## Main results

* `OctalTape.Snapshot.Line.ofChars_eq_error_iff` — the lines that are refused, and for which error.
* `OctalTape.Snapshot.ofLines_eq_error_iff` — what is missing in lines that are well formed.
* `OctalTape.Snapshot.ofChars_eq_error_iff`, `OctalTape.Snapshot.ofText_eq_error_iff` — the texts
  that are refused, and for which error.
-/

namespace OctalTape

open Text

namespace Snapshot

/-! ## Malformed lines -/

namespace Line

/-- The malformed lines, and the error of each. -/
inductive RefusedFor : List Char → Error → Prop where
  /-- The line is that of a register, but its value is no numeral of a word. -/
  | value {name value : List Char} {r : Register} (hcolon : ':' ∉ name)
      (hname : trim name = r.letter.toList) (hvalue : ∀ n < 2 ^ 64, ¬ Denotes (trim value) n) :
      RefusedFor ("Register ".toList ++ (name ++ ':' :: value))
        (.invalidRegisterValue (String.ofList (trim value)))
  /-- The line is that of a program, but the text of the program is refused. -/
  | program {codes : List Char} {e : Error} (hcodes : Program.ofChars codes = .error e) :
      RefusedFor ("Program:".toList ++ codes) e
  /-- The line is neither that of a register nor that of a program. -/
  | other {line : List Char}
      (hregister : ∀ name value (r : Register), ':' ∉ name → trim name = r.letter.toList →
        line ≠ "Register ".toList ++ (name ++ ':' :: value))
      (hprogram : ∀ codes, line ≠ "Program:".toList ++ codes) :
      RefusedFor line (.unexpectedLine (String.ofList line))

/-- A line is refused exactly if it is malformed, and for the error that it is due.

**Proof sketch.** A line is a register line, a program line or neither (`forms`). The first is
refused as its value is, the second as its codes are, and the last as a whole. -/
theorem ofChars_eq_error_iff {line : List Char} {e : Error} :
    ofChars line = .error e ↔ RefusedFor line e := by
  constructor
  · intro h
    rcases forms line with ⟨name, value, r, hcolon, hname, rfl⟩ | ⟨codes, rfl⟩ | ⟨hreg, hprog⟩
    · obtain ⟨hvalue, rfl⟩ := (ofChars_registerLine_eq_error_iff hcolon hname).mp h
      exact .value hcolon hname hvalue
    · rw [ofChars_programLine] at h
      exact .program (map_eq_error_iff.mp h)
    · rw [ofChars_of_ne hreg hprog] at h
      cases h
      exact .other hreg hprog
  · intro h
    cases h with
    | value hcolon hname hvalue =>
      exact (ofChars_registerLine_eq_error_iff hcolon hname).mpr ⟨hvalue, rfl⟩
    | program hcodes =>
      rw [ofChars_programLine]
      exact map_eq_error_iff.mpr hcodes
    | other hregister hprogram => exact ofChars_of_ne hregister hprogram

end Line

/-! ## Missing lines -/

/-- Nothing of a kind is found exactly if no line says anything of that kind. -/
lemma findSome?_reverse_eq_none_iff {β : Type} {ls : List Line} {f : Line → Option β}
    {kind : β → Line} (hf : ∀ l b, f l = some b ↔ l = kind b) :
    ls.reverse.findSome? f = none ↔ ∀ b, kind b ∉ ls := by
  rw [List.findSome?_eq_none_iff]
  simp only [List.mem_reverse, Option.eq_none_iff_forall_ne_some, Ne, hf]
  constructor
  · intro h b hb
    exact h (kind b) hb b rfl
  · rintro h _ hl b rfl
    exact h b hl

/-- A register lacks a content exactly if no line gives it one. -/
lemma contentOf_eq_error_iff {ls : List Line} {r : Register} {e : Error} :
    contentOf ls r = .error e ↔ (∀ w, .register r w ∉ ls) ∧ e = .noRegisterLine r := by
  rw [← findSome?_reverse_eq_none_iff fun _ _ => Line.content?_eq_some_iff, contentOf]
  cases ls.reverse.findSome? (·.content? r) <;> simp [eq_comm]

/-- The program is missing exactly if no line gives one. -/
lemma programOf_eq_error_iff {ls : List Line} {e : Error} :
    programOf ls = .error e ↔ (∀ p, .program p ∉ ls) ∧ e = .noProgram := by
  rw [← findSome?_reverse_eq_none_iff fun _ _ => Line.program?_eq_some_iff, programOf]
  cases ls.reverse.findSome? (·.program?) <;> simp [eq_comm]

/-- A register has a content exactly if some line gives it one. -/
lemma exists_contentOf_eq_ok_iff {ls : List Line} {r : Register} :
    (∃ w, contentOf ls r = .ok w) ↔ ∃ w, .register r w ∈ ls := by
  cases h : contentOf ls r with
  | error e =>
    have hmissing := (contentOf_eq_error_iff.mp h).1
    exact iff_of_false (by simp) fun ⟨w, hw⟩ => hmissing w hw
  | ok w =>
    refine iff_of_true ⟨w, rfl⟩ ?_
    by_contra hnone
    have herror := contentOf_eq_error_iff.mpr ⟨fun w hw => hnone ⟨w, hw⟩, rfl⟩
    rw [h] at herror
    cases herror

/-- Lines make up no snapshot if a register lacks a content, for the first one that does, or if only
the program is missing.

**Proof sketch.** The registers are looked up in the order A, B, C and then the program, and the
first that is missing ends the reading (`bind_eq_error_iff`). So a failure at one of them means
that those in front of it were found. -/
theorem ofLines_eq_error_iff {ls : List Line} {e : Error} :
    ofLines ls = .error e ↔
      (∃ r, (∀ r' : Register, r'.toCode < r.toCode → ∃ w, contentOf ls r' = .ok w) ∧
        contentOf ls r = .error e) ∨
      (∀ r, ∃ w, contentOf ls r = .ok w) ∧ programOf ls = .error e := by
  simp only [ofLines, bind_eq_error_iff]
  constructor
  · rintro (ha | ⟨a, ha, hb | ⟨b, hb, hc | ⟨c, hc, hp | ⟨p, -, hpure⟩⟩⟩⟩)
    · refine .inl ⟨.a, fun r' hr' => ?_, ha⟩
      cases r' <;> exact absurd hr' (by decide)
    · refine .inl ⟨.b, fun r' hr' => ?_, hb⟩
      cases r' with
      | a => exact ⟨a, ha⟩
      | b => exact absurd hr' (by decide)
      | c => exact absurd hr' (by decide)
    · refine .inl ⟨.c, fun r' hr' => ?_, hc⟩
      cases r' with
      | a => exact ⟨a, ha⟩
      | b => exact ⟨b, hb⟩
      | c => exact absurd hr' (by decide)
    · refine .inr ⟨fun r' => ?_, hp⟩
      cases r' with
      | a => exact ⟨a, ha⟩
      | b => exact ⟨b, hb⟩
      | c => exact ⟨c, hc⟩
    · cases hpure
  · rintro (⟨r, hbefore, hr⟩ | ⟨hall, hp⟩)
    · cases r with
      | a => exact .inl hr
      | b =>
        obtain ⟨a, ha⟩ := hbefore .a (by decide)
        exact .inr ⟨a, ha, .inl hr⟩
      | c =>
        obtain ⟨a, ha⟩ := hbefore .a (by decide)
        obtain ⟨b, hb⟩ := hbefore .b (by decide)
        exact .inr ⟨a, ha, .inr ⟨b, hb, .inl hr⟩⟩
    · obtain ⟨a, ha⟩ := hall .a
      obtain ⟨b, hb⟩ := hall .b
      obtain ⟨c, hc⟩ := hall .c
      exact .inr ⟨a, ha, .inr ⟨b, hb, .inr ⟨c, hc, .inl hp⟩⟩⟩

/-! ## Texts -/

/-- The lines of texts that are refused, trimmed and without those that are blank, and the error of
each such text. -/
inductive RefusedFor (rows : List (List Char)) : Error → Prop where
  /-- The first malformed line decides, whatever stands behind it and whatever is missing. -/
  | line {before after : List (List Char)} {row : List Char} {e : Error}
      (hsplit : rows = before ++ row :: after) (hbefore : ∀ row' ∈ before, ∃ l, Line.Spells row' l)
      (hrow : Line.RefusedFor row e) : RefusedFor rows e
  /-- No line is malformed, and this is the first register that has none. -/
  | register {r : Register} (hrows : ∀ row ∈ rows, ∃ l, Line.Spells row l)
      (hbefore : ∀ r' : Register, r'.toCode < r.toCode →
        ∃ row ∈ rows, ∃ w, Line.Spells row (.register r' w))
      (hmissing : ∀ row ∈ rows, ∀ w, ¬ Line.Spells row (.register r w)) :
      RefusedFor rows (.noRegisterLine r)
  /-- No line is malformed and each register has one, but the program has none. -/
  | program (hrows : ∀ row ∈ rows, ∃ l, Line.Spells row l)
      (hregisters : ∀ r, ∃ row ∈ rows, ∃ w, Line.Spells row (.register r w))
      (hmissing : ∀ row ∈ rows, ∀ p, ¬ Line.Spells row (.program p)) : RefusedFor rows .noProgram

section Rows

variable {rows : List (List Char)} {ls : List Line}

/-- What is said by the lines that are read is said by the rows that they are read from. -/
lemma mem_iff_spells (h : rows.mapM Line.ofChars = .ok ls) {l : Line} :
    l ∈ ls ↔ ∃ row ∈ rows, Line.Spells row l := by
  simp only [mem_iff_of_mapM_eq_ok h, Line.ofChars_eq_ok_iff]

/-- The registers that have a content are those with a row. -/
lemma exists_contentOf_iff_spells (h : rows.mapM Line.ofChars = .ok ls) {r : Register} :
    (∃ w, contentOf ls r = .ok w) ↔ ∃ row ∈ rows, ∃ w, Line.Spells row (.register r w) := by
  simp only [exists_contentOf_eq_ok_iff, mem_iff_spells h]
  exact ⟨fun ⟨w, row, hrow, hw⟩ => ⟨row, hrow, w, hw⟩, fun ⟨row, hrow, w, hw⟩ => ⟨w, row, hrow, hw⟩⟩

/-- The registers that lack a content are those without a row. -/
lemma contentOf_eq_error_iff_spells (h : rows.mapM Line.ofChars = .ok ls) {r : Register}
    {e : Error} : contentOf ls r = .error e ↔
      (∀ row ∈ rows, ∀ w, ¬ Line.Spells row (.register r w)) ∧ e = .noRegisterLine r := by
  simp only [contentOf_eq_error_iff, mem_iff_spells h, not_exists, not_and]
  exact and_congr_left fun _ => ⟨fun h row hrow w => h w row hrow, fun h w row hrow => h row hrow w⟩

/-- The program is missing if it has no row. -/
lemma programOf_eq_error_iff_spells (h : rows.mapM Line.ofChars = .ok ls) {e : Error} :
    programOf ls = .error e ↔
      (∀ row ∈ rows, ∀ p, ¬ Line.Spells row (.program p)) ∧ e = .noProgram := by
  simp only [programOf_eq_error_iff, mem_iff_spells h, not_exists, not_and]
  exact and_congr_left fun _ => ⟨fun h row hrow p => h p row hrow, fun h p row hrow => h row hrow p⟩

end Rows

/-- A text is refused exactly for the error that its lines are due.

**Proof sketch.** The lines are read from the first to the last, so the first malformed one ends the
reading (`mapM_eq_error_iff`). Only if there is none are the registers looked up, in their order,
and then the program (`ofLines_eq_error_iff`). -/
theorem ofChars_eq_error_iff {cs : List Char} {e : Error} :
    ofChars cs = .error e ↔ RefusedFor (lines cs) e := by
  have hread : (∃ ls, (lines cs).mapM Line.ofChars = .ok ls) ↔
      ∀ row ∈ lines cs, ∃ l, Line.Spells row l := by
    simp only [exists_mapM_eq_ok_iff, Line.ofChars_eq_ok_iff]
  unfold ofChars
  simp only [bind_eq_error_iff, mapM_eq_error_iff, Line.ofChars_eq_error_iff,
    Line.ofChars_eq_ok_iff]
  constructor
  · rintro (⟨before, row, after, hsplit, hbefore, hrow⟩ | ⟨ls, hls, herror⟩)
    · exact .line hsplit hbefore hrow
    · have hrows := hread.mp ⟨ls, hls⟩
      rw [ofLines_eq_error_iff] at herror
      simp only [exists_contentOf_iff_spells hls, contentOf_eq_error_iff_spells hls,
        programOf_eq_error_iff_spells hls] at herror
      rcases herror with ⟨r, hbefore, hmissing, rfl⟩ | ⟨hregisters, hmissing, rfl⟩
      · exact .register hrows hbefore hmissing
      · exact .program hrows hregisters hmissing
  · intro h
    cases h with
    | line hsplit hbefore hrow => exact .inl ⟨_, _, _, hsplit, hbefore, hrow⟩
    | @register r hrows hbefore hmissing =>
      obtain ⟨ls, hls⟩ := hread.mpr hrows
      refine .inr ⟨ls, hls, ofLines_eq_error_iff.mpr (.inl ⟨r, fun r' hr' => ?_, ?_⟩)⟩
      · exact (exists_contentOf_iff_spells hls).mpr (hbefore r' hr')
      · exact (contentOf_eq_error_iff_spells hls).mpr ⟨hmissing, rfl⟩
    | program hrows hregisters hmissing =>
      obtain ⟨ls, hls⟩ := hread.mpr hrows
      refine .inr ⟨ls, hls, ofLines_eq_error_iff.mpr (.inr ⟨fun r => ?_, ?_⟩)⟩
      · exact (exists_contentOf_iff_spells hls).mpr (hregisters r)
      · exact (programOf_eq_error_iff_spells hls).mpr ⟨hmissing, rfl⟩

/-- **The error of a text.** Take the lines of a text, trimmed, without those that are blank. If one
of them is malformed, the first such line alone decides the error: wherever the line is the first
malformed one, and whatever else stands in the text or is missing there, the error is the same. It
tells the value of a register, trimmed, if that is no numeral of a word; it is the error of the
program on a program line; and it tells the whole line in all other cases. If no line is malformed
the error is that of the first register without a line, and only if each register has one that of
the program.

**Proof sketch.** The rows are the lines that are read (`lines_eq_splitLines`), so the first part
is `ofChars_eq_error_iff`. A malformed row is refused for some error, and behind rows that are well
formed this is the error of the text. -/
theorem ofText_eq_error_iff :
    let rows := fun text : String => ((splitLines text.toList).map trim).filter (!·.isEmpty)
    (∀ text e, ofText text = .error e ↔ RefusedFor (rows text) e) ∧
    ∀ row, (∀ l, ¬ Line.Spells row l) → ∃ e, Line.RefusedFor row e ∧
      ∀ text before after, rows text = before ++ row :: after →
        (∀ row' ∈ before, ∃ l, Line.Spells row' l) → ofText text = .error e := by
  intro rows
  have hrefused : ∀ text e, ofText text = .error e ↔ RefusedFor (rows text) e := fun text e => by
    show _ ↔ RefusedFor (((splitLines text.toList).map trim).filter (!·.isEmpty)) e
    rw [← lines_eq_splitLines]
    exact ofChars_eq_error_iff
  refine ⟨hrefused, fun row hmalformed => ?_⟩
  cases hrow : Line.ofChars row with
  | error e =>
    have hdue := Line.ofChars_eq_error_iff.mp hrow
    refine ⟨e, hdue, fun text before after hsplit hbefore => ?_⟩
    exact (hrefused text e).mpr (.line hsplit hbefore hdue)
  | ok l => exact absurd (Line.ofChars_eq_ok_iff.mp hrow) (hmalformed l)

/-- The first malformed line is reported, not the one behind it and not the missing registers. -/
example : ofText "\n  Register A : -1\t\r\nprogram: 0,1\nProgram: 9" =
    .error (.invalidRegisterValue "-1") := by decide +kernel

end Snapshot

end OctalTape

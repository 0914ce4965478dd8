import OctalTape.Proofs.Text.SnapshotGrammar

set_option relaxedAutoImplicit false
set_option autoImplicit false

/-!
# Layouts of snapshots

The four lines of a snapshot may stand in any order, with any blanks around each of them and with
blank lines anywhere between them, and a line may end with a line feed or with a carriage return
and a line feed. From whatever text they are laid out in, the snapshot is read back.

## Main definitions

* `OctalTape.Snapshot.Row` — a line, or none, with the blanks around it.
* `OctalTape.Snapshot.Layout` — the rows of a text, with the breaks between them.

## Main results

* `OctalTape.Snapshot.Layout.lines_toList_text` — the lines that are read from a layout.
* `OctalTape.Snapshot.ofLines_of_perm` — the order of the lines of a snapshot does not matter.
* `OctalTape.Snapshot.ofText_layout` — a snapshot is read back from any layout of its lines.

## Implementation notes

The last row of a layout has no line break behind it. To end the last line with a line break, let
the last row be empty.
-/

namespace OctalTape

open Text

/-- A search through a list finds what everything in the list that yields something yields. -/
lemma findSome?_eq_some_of_forall {α β : Type} {f : α → Option β} {as : List α} {b : β}
    (h : ∃ a ∈ as, f a = some b) (hall : ∀ a ∈ as, ∀ b', f a = some b' → b' = b) :
    as.findSome? f = some b := by
  obtain ⟨a, ha, hb⟩ := h
  cases hfind : as.findSome? f with
  | none =>
    rw [List.findSome?_eq_none_iff.mp hfind a ha] at hb
    cases hb
  | some b' =>
    obtain ⟨a', ha', hb'⟩ := List.exists_of_findSome?_eq_some hfind
    rw [hall a' ha' b' hb']

namespace Snapshot

/-! ## Rows -/

/-- A row of a text: a line or none, and the blanks in front of it and behind it, among which there
is no line feed. -/
structure Row where
  line : Option Line
  before : List Char := []
  after : List Char := []
  blank_before : ∀ c ∈ before, isBlank c ∧ c ≠ '\n' := by simp [isBlank]
  blank_after : ∀ c ∈ after, isBlank c ∧ c ≠ '\n' := by simp [isBlank]

namespace Row

/-- The characters of a row. -/
def chars (row : Row) : List Char :=
  row.before ++ row.line.elim [] Line.written ++ row.after

/-- There is no line break in a row. -/
lemma newline_not_mem_chars (row : Row) : '\n' ∉ row.chars := by
  have hline : '\n' ∉ row.line.elim [] Line.written := by
    cases row.line with
    | none => simp
    | some l => exact l.newline_not_mem_written
  have hbefore : '\n' ∉ row.before := fun h => (row.blank_before _ h).2 rfl
  have hafter : '\n' ∉ row.after := fun h => (row.blank_after _ h).2 rfl
  simp [chars, hline, hbefore, hafter]

/-- Trimmed, a row is its line, or nothing. -/
lemma trim_chars (row : Row) :
    trim row.chars = row.line.elim [] fun l => trim l.written := by
  rw [chars, trim_blank_append_blank (fun c hc => (row.blank_before c hc).1)
    fun c hc => (row.blank_after c hc).1]
  cases row.line <;> rfl

end Row

/-! ## Layouts -/

/-- The breaks behind a row. -/
inductive LineBreak where
  | feed
  | returnFeed
  deriving DecidableEq, Repr

/-- The characters of a break. -/
def LineBreak.chars : LineBreak → List Char
  | feed => ['\n']
  | returnFeed => ['\r', '\n']

/-- The rows of a text: those with a break behind them, and the last one. -/
structure Layout where
  broken : List (Row × LineBreak)
  last : Row

namespace Layout

/-- The rows of a layout in their order. -/
def rows (l : Layout) : List Row := l.broken.map (·.1) ++ [l.last]

/-- The lines of a layout in their order. -/
def toLines (l : Layout) : List Line := l.rows.filterMap (·.line)

/-- The text of a layout. -/
def text (l : Layout) : String :=
  String.ofList (l.broken.flatMap (fun (row, brk) => row.chars ++ brk.chars) ++ l.last.chars)

end Layout

/-! ## Reading a layout -/

/-- The line of a row, whatever blank without a line feed stands behind it. -/
lemma lines_chars_append (row : Row) {ws : List Char} (h : ∀ c ∈ ws, isBlank c ∧ c ≠ '\n') :
    lines (row.chars ++ ws) = row.line.toList.map fun l => trim l.written := by
  have hnot : '\n' ∉ row.chars ++ ws := by
    rw [List.mem_append, not_or]
    exact ⟨row.newline_not_mem_chars, fun hmem => (h _ hmem).2 rfl⟩
  rw [lines_of_not_mem hnot, trim_append_blank fun c hc => (h c hc).1, row.trim_chars]
  cases row.line with
  | none => rfl
  | some l => simp [l.trim_written_ne_nil]

/-- The line of a row that ends with a break, and the lines behind it. -/
lemma lines_chars_append_break (row : Row) (brk : LineBreak) (cs : List Char) :
    lines (row.chars ++ brk.chars ++ cs) =
      (row.line.toList.map fun l => trim l.written) ++ lines cs := by
  cases brk with
  | feed =>
    have hrow := lines_chars_append row (List.forall_mem_nil _)
    rw [List.append_nil] at hrow
    rw [← hrow, ← lines_append_cons, LineBreak.chars, List.append_assoc]
    rfl
  | returnFeed =>
    have hreturn : ∀ c ∈ ['\r'], isBlank c ∧ c ≠ '\n' :=
      List.forall_mem_singleton.mpr (by decide)
    rw [← lines_chars_append row hreturn, ← lines_append_cons, LineBreak.chars]
    simp

namespace Layout

/-- The lines that are read from a layout are its lines, trimmed.

**Proof sketch.** Induction on the rows that end with a break: each adds its line, if it has one,
to those behind it (`lines_chars_append_break`). -/
lemma lines_toList_text (l : Layout) :
    lines l.text.toList = l.toLines.map fun l => trim l.written := by
  obtain ⟨broken, last⟩ := l
  rw [text, String.toList_ofList]
  induction broken with
  | nil =>
    have hlast := lines_chars_append last (List.forall_mem_nil _)
    rw [List.append_nil] at hlast
    rw [List.flatMap_nil, List.nil_append, hlast]
    cases hline : last.line <;> simp [toLines, rows, hline]
  | cons head broken ih =>
    obtain ⟨row, brk⟩ := head
    have hlines : toLines ⟨(row, brk) :: broken, last⟩ =
        row.line.toList ++ toLines ⟨broken, last⟩ := by
      cases hline : row.line <;> simp [toLines, rows, hline]
    rw [List.flatMap_cons, List.append_assoc, lines_chars_append_break, ih, hlines, List.map_append]

end Layout

/-! ## Lines in any order -/

/-- The lines of a snapshot that give a register some content. -/
lemma register_mem_toLines {s : Snapshot} {r : Register} {w : Word} :
    .register r w ∈ s.toLines ↔ w = s.registers.get r := by
  cases r <;> simp [toLines, Registers.get]

/-- The lines of a snapshot that give a program. -/
lemma program_mem_toLines {s : Snapshot} {p : Program} :
    .program p ∈ s.toLines ↔ p = s.program := by
  simp [toLines]

/-- The lines of a snapshot make it up in any order.

**Proof sketch.** The lines have one content for each register and one program, so any line that
gives one of these gives what the snapshot holds, wherever it stands. -/
theorem ofLines_of_perm {s : Snapshot} {ls : List Line} (h : ls.Perm s.toLines) :
    ofLines ls = .ok s := by
  rw [ofLines_eq_ok_iff, programOf_eq_ok_iff]
  constructor
  · intro r
    rw [contentOf_eq_ok_iff]
    apply findSome?_eq_some_of_forall
    · refine ⟨.register r (s.registers.get r), ?_, Line.content?_eq_some_iff.mpr rfl⟩
      rw [List.mem_reverse, h.mem_iff, register_mem_toLines]
    · intro l hl w hw
      rwa [List.mem_reverse, h.mem_iff, Line.content?_eq_some_iff.mp hw, register_mem_toLines] at hl
  · apply findSome?_eq_some_of_forall
    · refine ⟨.program s.program, ?_, Line.program?_eq_some_iff.mpr rfl⟩
      rw [List.mem_reverse, h.mem_iff, program_mem_toLines]
    · intro l hl p hp
      rwa [List.mem_reverse, h.mem_iff, Line.program?_eq_some_iff.mp hp, program_mem_toLines] at hl

/-- **A snapshot is read back from any layout.** However the lines of a snapshot are laid out in a
text, in any order, with blank rows anywhere and blanks around every line, the text denotes the
snapshot. -/
theorem ofText_layout (s : Snapshot) (l : Layout) (h : l.toLines.Perm s.toLines) :
    ofText l.text = .ok s := by
  rw [ofText, ofChars_eq_ofLines l.lines_toList_text]
  exact ofLines_of_perm h

/-- The greatest words and the program without codes, scattered over a text: the program comes
first, behind a blank row, and no break ends the last row. -/
def scatteredLayout : Layout where
  broken :=
    [({ line := none, before := ['\t'] }, .returnFeed),
      ({ line := some (.program .empty) }, .feed),
      ({ line := some (.register .c 18446744073709551615), after := ['\r', ' '] }, .returnFeed),
      ({ line := none }, .feed),
      ({ line := some (.register .a 0), before := [' ', '\u00a0'] }, .feed)]
  last := { line := some (.register .b 18446744073709551615), after := ['\u3000'] }

/-- The scattered layout is read as the snapshot of its lines. -/
theorem ofText_scatteredLayout :
    let s : Snapshot := ⟨⟨0, 18446744073709551615, 18446744073709551615⟩, .empty⟩
    scatteredLayout.toLines.Perm s.toLines ∧
      scatteredLayout.text = "\t\r\nProgram: \nRegister C: 18446744073709551615\r \r\n\n \u00a0" ++
        "Register A: 0\nRegister B: 18446744073709551615\u3000" ∧
      ofText scatteredLayout.text = .ok s := by
  intro s
  have hperm : scatteredLayout.toLines.Perm s.toLines := by decide
  exact ⟨hperm, by decide +kernel, ofText_layout s scatteredLayout hperm⟩

end Snapshot

end OctalTape

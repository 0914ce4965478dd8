import Mathlib.Data.List.Basic
import OctalTape.Snapshot
import OctalTape.Proofs.Text.ProgramText

set_option relaxedAutoImplicit false
set_option autoImplicit false

/-!
# Reading the text of a snapshot

A snapshot is written with a line for each register and, behind a blank line, a line for the
program. It is read back from this text, and also from one whose lines have other blanks around
them.

## Main definitions

* `OctalTape.Snapshot.Line.written` — the characters of a line.
* `OctalTape.Snapshot.text` — the text of a snapshot.

## Main results

* `OctalTape.Snapshot.Line.ofChars_trim_written` — a line is read back, whatever blanks stand
  around it.
* `OctalTape.Snapshot.lines_intercalate` — the lines of a text that is made up of lines.
* `OctalTape.Snapshot.ofText_text` — a snapshot is read back from its text.

## Implementation notes

The line of a program without codes ends with a blank, which is trimmed off. What is read then is
a program line without any codes behind the colon, and that is the empty program, too.
-/

namespace OctalTape

open Text

namespace Snapshot

/-! ## Lines -/

namespace Line

/-- The characters of a line: the words that tell its kind, and its content in decimal. -/
def written : Line → List Char
  | register r w => registerHead ++ r.letter.toList ++ ':' :: ' ' :: decimalDigits w.toNat
  | program p => programHead ++ ' ' :: p.text.toList

/-- The characters of the words with which the line of a register begins. -/
lemma registerHead_eq : registerHead = ['R', 'e', 'g', 'i', 's', 't', 'e', 'r', ' '] := rfl

/-- The characters of the word with which the line of a program begins. -/
lemma programHead_eq : programHead = ['P', 'r', 'o', 'g', 'r', 'a', 'm', ':'] := rfl

/-- What stands behind the heads of the lines is blank. -/
lemma isBlank_of_mem_space : ∀ c ∈ [' '], isBlank c := List.forall_mem_singleton.mpr (by decide)

/-- The head of a line is cut off. -/
lemma isPrefixOf?_append (head rest : List Char) : head.isPrefixOf? (head ++ rest) = some rest :=
  List.isPrefixOf?_eq_some_iff_append_eq.mpr rfl

/-- What stands behind the head of a register line is cut at the colon. -/
lemma splitRegister?_written (r : Register) (w : Word) :
    splitRegister? (r.letter.toList ++ ':' :: ' ' :: decimalDigits w.toNat) =
      some (r, decimalDigits w.toNat) := by
  have hdigits : trim (' ' :: decimalDigits w.toNat) = decimalDigits w.toNat := by
    rw [← List.singleton_append, trim_blank_append isBlank_of_mem_space, trim_decimalDigits]
  cases r <;> simp [splitRegister?, Register.letter, hdigits] <;> decide

/-- A program line does not begin like a register line. -/
lemma isPrefixOf?_registerHead_programHead (rest : List Char) :
    registerHead.isPrefixOf? (programHead ++ rest) = none := by
  rw [registerHead_eq, programHead_eq]
  rfl

/-- A text that begins with a character that is not blank, and ends with a text without blanks, is
trimmed already. -/
lemma trim_cons_append_of_not_isBlank {c : Char} {cs ds : List Char} (hc : ¬ isBlank c)
    (hne : ds ≠ []) (hds : ∀ d ∈ ds, ¬ isBlank d) : trim (c :: (cs ++ ds)) = c :: (cs ++ ds) := by
  apply trim_eq_self
  · simpa using hc
  · intro d hd
    obtain ⟨e, he⟩ := Option.ne_none_iff_exists'.mp (mt List.getLast?_eq_none_iff.mp hne)
    rw [← List.cons_append, List.getLast?_append, he, Option.some_or, ← he] at hd
    exact hds d (List.mem_of_getLast? hd)

/-- A register line is trimmed already. -/
lemma trim_written_register (r : Register) (w : Word) :
    trim (register r w).written = (register r w).written := by
  have hshape : (register r w).written =
      'R' :: (registerHead.tail ++ r.letter.toList ++ [':', ' '] ++ decimalDigits w.toNat) := by
    rw [written, registerHead_eq]
    simp
  rw [hshape]
  exact trim_cons_append_of_not_isBlank (by decide) (decimalDigits_ne_nil _) fun _ =>
    not_isBlank_of_mem_decimalDigits

/-- A program line, trimmed, has the text of the program behind its head, perhaps with a blank
between them.

**Proof sketch.** The line of an empty program ends with the blank behind its head, which is
trimmed off. Any other line begins with a letter and ends with a digit, and nothing is trimmed. -/
lemma exists_trim_written_program (p : Program) :
    ∃ ws, (∀ c ∈ ws, isBlank c) ∧
      trim (program p).written = programHead ++ (ws ++ p.text.toList) := by
  by_cases hp : p.toList = []
  · -- the blank is at the end of the line
    have htext : p.text.toList = [] := by simp [Program.text, hp, toList_decimalList]
    refine ⟨[], by simp, ?_⟩
    rw [written, htext, trim_append_blank isBlank_of_mem_space, programHead_eq]
    decide
  · have hshape : (program p).written = 'P' :: (programHead.tail ++ [' '] ++ p.text.toList) := by
      rw [written, programHead_eq]
      simp
    have htrim : trim (program p).written = (program p).written := by
      rw [hshape]
      apply trim_cons_append_of_not_isBlank (by decide) (toList_decimalList_ne_nil hp)
      exact fun c => not_isBlank_of_mem_decimalList
    exact ⟨[' '], isBlank_of_mem_space, htrim⟩

/-- A line is read back, whatever blanks stand around it.

**Proof sketch.** Trimmed, a register line is as it was written, and its letter and its numeral are
read back; a program line may have lost the blank behind its head, which the reader of the program
ignores. -/
theorem ofChars_trim_written (l : Line) {ws ws' : List Char} (h : ∀ c ∈ ws, isBlank c)
    (h' : ∀ c ∈ ws', isBlank c) : ofChars (trim (ws ++ l.written ++ ws')) = .ok l := by
  rw [trim_blank_append_blank h h']
  cases l with
  | register r w =>
    rw [trim_written_register, written, List.append_assoc]
    simp only [ofChars, isPrefixOf?_append, splitRegister?_written, readWord?_decimalDigits]
  | program p =>
    obtain ⟨blanks, hblanks, htrim⟩ := exists_trim_written_program p
    have hread : Program.ofChars (blanks ++ p.text.toList) = .ok p := by
      simpa using Program.ofChars_text hblanks (List.forall_mem_nil _) p
    rw [htrim]
    simp only [ofChars, isPrefixOf?_registerHead_programHead, isPrefixOf?_append, hread]
    rfl

/-- A line, trimmed, is not empty. -/
lemma trim_written_ne_nil (l : Line) : trim l.written ≠ [] := by
  rw [Ne, trim_eq_nil_iff]
  intro h
  cases l with
  | register r w => exact absurd (h 'R' (by simp [written, registerHead_eq])) (by decide)
  | program p => exact absurd (h 'P' (by simp [written, programHead_eq])) (by decide)

/-- A line has no line break in it. -/
lemma newline_not_mem_written (l : Line) : '\n' ∉ l.written := by
  cases l with
  | register r w =>
    have hvalue : '\n' ∉ decimalDigits w.toNat := fun h =>
      not_isBlank_of_mem_decimalDigits h (by decide)
    have hletter : '\n' ∉ r.letter.toList := by cases r <;> decide
    simp [written, registerHead_eq, hvalue, hletter]
  | program p =>
    have htext : '\n' ∉ p.text.toList := fun h => not_isBlank_of_mem_decimalList h (by decide)
    simp [written, programHead_eq, htext]

end Line

/-- The lines of a text that is made up of lines, without those that are blank. -/
lemma lines_intercalate {ls : List (List Char)} (hne : ls ≠ []) (h : ∀ l ∈ ls, '\n' ∉ l) :
    lines (['\n'].intercalate ls) = (ls.map trim).filter (!·.isEmpty) := by
  unfold lines
  rw [List.splitOn_intercalate '\n' h hne]

/-- A text without line breaks is one line, or none if it is blank. -/
lemma lines_of_not_mem {cs : List Char} (h : '\n' ∉ cs) :
    lines cs = [trim cs].filter (!·.isEmpty) := by
  unfold lines
  rw [List.splitOn_eq_singleton h, List.map_singleton]

/-- The lines in front of a line feed and those behind it. -/
lemma lines_append_cons (cs ds : List Char) :
    lines (cs ++ '\n' :: ds) = lines cs ++ lines ds := by
  unfold lines
  rw [List.splitOn_append_cons_self, List.map_append, List.filter_append]

/-- A line break at the end of a text adds no line that says something. -/
lemma lines_append_newline (cs : List Char) : lines (cs ++ ['\n']) = lines cs := by
  have hnil : lines [] = [] := lines_of_not_mem List.not_mem_nil
  rw [lines_append_cons, hnil, List.append_nil]

/-- A text whose lines are written lines is read as what these make up. -/
lemma ofChars_eq_ofLines {cs : List Char} {ls : List Line}
    (h : lines cs = ls.map fun l => trim l.written) : ofChars cs = ofLines ls := by
  have hline : ∀ l : Line, Line.ofChars (trim l.written) = .ok l := fun l => by
    simpa using l.ofChars_trim_written (List.forall_mem_nil _) (List.forall_mem_nil _)
  have hread : (lines cs).mapM Line.ofChars = .ok ls := by
    rw [mapM_eq_ok_iff, h, List.map_map]
    exact List.map_congr_left fun l _ => hline l
  unfold ofChars
  rw [hread]
  rfl

/-! ## Snapshots -/

/-- The text of a snapshot: a line for each register, a blank line, and a line for the program,
the last one without a line break behind it. -/
def text (s : Snapshot) : String :=
  "Register A: " ++ decimal s.registers.a.toNat ++
    "\nRegister B: " ++ decimal s.registers.b.toNat ++
    "\nRegister C: " ++ decimal s.registers.c.toNat ++
    "\n\nProgram: " ++ s.program.text

example : text ⟨.ofSeed 729, ⟨#[0, 1, 5, 4, 3, 0], rfl, by simp⟩⟩ =
    "Register A: 729\nRegister B: 0\nRegister C: 0\n\nProgram: 0,1,5,4,3,0" := by
  decide +kernel

/-- The lines of a snapshot that say something. -/
def toLines (s : Snapshot) : List Line :=
  [.register .a s.registers.a, .register .b s.registers.b, .register .c s.registers.c,
    .program s.program]

/-- The lines of a snapshot make it up. -/
lemma ofLines_toLines (s : Snapshot) : ofLines s.toLines = .ok s := rfl

/-- The text of a snapshot is made up of its lines, with a blank one in front of the last.

**Proof sketch.** The literals of the text are the line feeds and the heads of the lines (`ha` to
`hp`), so that both sides are the same texts joined, once from the left and once from the right. -/
lemma toList_text (s : Snapshot) :
    s.text.toList = ['\n'].intercalate
      [(Line.register .a s.registers.a).written, (Line.register .b s.registers.b).written,
        (Line.register .c s.registers.c).written, [], (Line.program s.program).written] := by
  have ha : "Register A: ".toList = Line.registerHead ++ Register.a.letter.toList ++ [':', ' '] :=
    rfl
  have hb : "\nRegister B: ".toList =
    '\n' :: (Line.registerHead ++ Register.b.letter.toList ++ [':', ' ']) := rfl
  have hc : "\nRegister C: ".toList =
    '\n' :: (Line.registerHead ++ Register.c.letter.toList ++ [':', ' ']) := rfl
  have hp : "\n\nProgram: ".toList = '\n' :: '\n' :: (Line.programHead ++ [' ']) := rfl
  have hjoin : ∀ a b c p : List Char, ['\n'].intercalate [a, b, c, [], p] =
      a ++ '\n' :: (b ++ '\n' :: (c ++ '\n' :: '\n' :: p)) := by
    simp [List.intercalate]
  -- for any strings, because rewriting looks into literals
  have happend : ∀ a x b y c z d w : String, (a ++ x ++ b ++ y ++ c ++ z ++ d ++ w).toList =
      a.toList ++ (x.toList ++ (b.toList ++ (y.toList ++ (c.toList ++ (z.toList ++
        (d.toList ++ w.toList)))))) := by
    intros
    simp only [String.toList_append, List.append_assoc]
  rw [hjoin]
  unfold text
  rw [happend, ha, hb, hc, hp, toList_decimal, toList_decimal, toList_decimal]
  simp only [Line.written, List.append_assoc, List.cons_append, List.nil_append]

/-- The lines of the text of a snapshot that say something. -/
lemma lines_text (s : Snapshot) :
    lines s.text.toList = s.toLines.map fun l => trim l.written := by
  rw [toList_text, lines_intercalate (by simp) (by simp [Line.newline_not_mem_written])]
  have hnil : trim [] = [] := rfl
  simp [toLines, hnil, Line.trim_written_ne_nil]

/-- A snapshot is read back from its text, with or without a line break at the end.

**Proof sketch.** The lines of the text are those that were written, trimmed (`lines_text`), and
each is read back. A line break at the end adds a blank line, which is dropped. -/
theorem ofText_text (s : Snapshot) {ending : String} (h : ending ∈ ["", "\n"]) :
    ofText (s.text ++ ending) = .ok s := by
  have hending : ending.toList = [] ∨ ending.toList = ['\n'] := by
    rcases List.mem_cons.mp h with rfl | hlast
    · exact .inl rfl
    · rw [List.mem_singleton.mp hlast]
      exact .inr rfl
  have hlines : lines (s.text ++ ending).toList = s.toLines.map fun l => trim l.written := by
    rw [String.toList_append]
    rcases hending with hempty | hbreak
    · rw [hempty, List.append_nil, lines_text]
    · rw [hbreak, lines_append_newline, lines_text]
  rw [← ofLines_toLines]
  exact ofChars_eq_ofLines hlines

end Snapshot

end OctalTape

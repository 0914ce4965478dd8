import OctalTape.Proofs.Results
import OctalTape.Proofs.Text.Lines
import OctalTape.Proofs.Text.Numeral
import OctalTape.Proofs.Text.SnapshotText

set_option relaxedAutoImplicit false
set_option autoImplicit false

/-!
# The grammar of snapshots

A text is accepted as a snapshot if each of its lines that is not blank is a register line or a
program line, and if there is at least one line for each register and one for the program. Of
several lines of one kind the last counts, in whatever order the lines stand.

## Main definitions

* `OctalTape.Snapshot.Line.Spells` — the forms of lines, and what they say.
* `OctalTape.Snapshot.LastGives` — what the last of some lines says that says anything of a kind.

## Main results

* `OctalTape.Snapshot.Line.ofChars_eq_ok_iff` — the lines that are accepted, and what they say.
* `OctalTape.Snapshot.ofChars_eq_ok_iff` — the texts that denote a given snapshot.
* `OctalTape.Snapshot.ofText_accepts_iff` — the texts that are accepted, and what they denote.
-/

namespace OctalTape

open Text

/-- A register is found by its letter, and by no other text. -/
lemma Register.ofLetter?_eq_some_iff {text : String} {r : Register} :
    ofLetter? text = some r ↔ r.letter = text := by
  constructor
  · intro h
    exact beq_iff_eq.mp (List.find?_some (p := fun r : Register => r.letter == text) h)
  · rintro rfl
    exact ofLetter?_letter r

namespace Snapshot

/-! ## Lines -/

namespace Line

/-- The forms of lines, and what they say. On a register line stand the word, the letter of the
register between blanks, the first colon, and a numeral between blanks; on a program line the word
with its colon, and the text of a program. -/
inductive Spells : List Char → Line → Prop where
  | register {name value : List Char} {r : Register} {w : Word} (hcolon : ':' ∉ name)
      (hname : trim name = r.letter.toList) (hvalue : Denotes (trim value) w.toNat) :
      Spells ("Register ".toList ++ (name ++ ':' :: value)) (.register r w)
  | program {codes : List Char} {p : Program} (hcodes : Program.ofChars codes = .ok p) :
      Spells ("Program:".toList ++ codes) (.program p)

/-- What stands in front of the first colon of a text, and what stands behind it. -/
lemma cut_at_colon {name : List Char} (h : ':' ∉ name) (value : List Char) :
    (name ++ ':' :: value).takeWhile (· != ':') = name ∧
      (name ++ ':' :: value).dropWhile (· != ':') = ':' :: value := by
  have hname : ∀ c ∈ name, (c != ':') = true := fun c hc => by
    rw [bne_iff_ne]
    rintro rfl
    exact h hc
  constructor
  · rw [List.takeWhile_append_of_pos hname, List.takeWhile_cons_of_neg (by simp), List.append_nil]
  · rw [List.dropWhile_append_of_pos hname, List.dropWhile_cons_of_neg (by simp)]

/-- The name and the value of a register line are cut at the first colon.

**Proof sketch.** What stands in front of the first colon has none, and the character at which the
cut is made is a colon; the other way round, a name without a colon is what the cut takes off
(`cut_at_colon`). -/
lemma splitRegister?_eq_some_iff {cs text : List Char} {r : Register} :
    splitRegister? cs = some (r, text) ↔
      ∃ name value, cs = name ++ ':' :: value ∧ ':' ∉ name ∧ trim name = r.letter.toList ∧
        trim value = text := by
  have hletter : ∀ name : List Char, Register.ofLetter? (String.ofList (trim name)) = some r ↔
      trim name = r.letter.toList := fun name => by
    rw [Register.ofLetter?_eq_some_iff, ← String.toList_inj, String.toList_ofList, eq_comm]
  unfold splitRegister?
  constructor
  · intro h
    split at h
    · cases h
    · next c value hcut =>
      obtain ⟨r', hr', hpair⟩ := Option.map_eq_some_iff.mp h
      obtain ⟨rfl, rfl⟩ := Prod.mk.inj hpair
      obtain rfl : c = ':' := by
        have hhead := List.head?_dropWhile_not (· != ':') cs
        rw [hcut] at hhead
        simpa using hhead
      refine ⟨cs.takeWhile (· != ':'), value, ?_, ?_, (hletter _).mp hr', rfl⟩
      · rw [← hcut, List.takeWhile_append_dropWhile]
      · intro hmem
        simpa using List.all_eq_true.mp List.all_takeWhile _ hmem
  · rintro ⟨name, value, rfl, hcolon, hname, rfl⟩
    obtain ⟨htake, hdrop⟩ := cut_at_colon hcolon value
    rw [hdrop, htake]
    simp only [(hletter name).mpr hname, Option.map_some]

/-- A register line is read as what its value denotes, and refused if that is no numeral of a
word. -/
lemma ofChars_registerLine {name : List Char} {r : Register} (hcolon : ':' ∉ name)
    (hname : trim name = r.letter.toList) (value : List Char) :
    ofChars ("Register ".toList ++ (name ++ ':' :: value)) =
      (readWord? (trim value)).elim (.error (.invalidRegisterValue (String.ofList (trim value))))
        fun w => .ok (.register r w) := by
  have hsplit := splitRegister?_eq_some_iff.mpr ⟨name, value, rfl, hcolon, hname, rfl⟩
  show ofChars (registerHead ++ (name ++ ':' :: value)) = _
  simp only [ofChars, isPrefixOf?_append, hsplit]
  cases readWord? (trim value) <;> rfl

/-- It is read as a word if its value denotes this one. -/
lemma ofChars_registerLine_eq_ok_iff {name : List Char} {r : Register} (hcolon : ':' ∉ name)
    (hname : trim name = r.letter.toList) {value : List Char} {l : Line} :
    ofChars ("Register ".toList ++ (name ++ ':' :: value)) = .ok l ↔
      ∃ w : Word, Denotes (trim value) w.toNat ∧ .register r w = l := by
  rw [ofChars_registerLine hcolon hname]
  simp only [← readWord?_eq_some_iff]
  cases readWord? (trim value) <;> simp

/-- It is refused if its value denotes no word. -/
lemma ofChars_registerLine_eq_error_iff {name : List Char} {r : Register} (hcolon : ':' ∉ name)
    (hname : trim name = r.letter.toList) {value : List Char} {e : Error} :
    ofChars ("Register ".toList ++ (name ++ ':' :: value)) = .error e ↔
      (∀ n < 2 ^ 64, ¬ Denotes (trim value) n) ∧
        .invalidRegisterValue (String.ofList (trim value)) = e := by
  rw [ofChars_registerLine hcolon hname, ← readWord?_eq_none_iff]
  cases readWord? (trim value) <;> simp

/-- A program line is read as the text of a program. -/
lemma ofChars_programLine (codes : List Char) :
    ofChars ("Program:".toList ++ codes) = (Program.ofChars codes).map .program := by
  show ofChars (programHead ++ codes) = _
  simp only [ofChars, isPrefixOf?_registerHead_programHead, isPrefixOf?_append]

/-- A line of neither form is refused as a whole.

**Proof sketch.** The two prefixes are tried in turn. A line that has one of them, and for the
first a name and a colon behind it, would be of that form. -/
lemma ofChars_of_ne {line : List Char}
    (hregister : ∀ name value (r : Register), ':' ∉ name → trim name = r.letter.toList →
      line ≠ "Register ".toList ++ (name ++ ':' :: value))
    (hprogram : ∀ codes, line ≠ "Program:".toList ++ codes) :
    ofChars line = .error (.unexpectedLine (String.ofList line)) := by
  unfold ofChars
  split
  · next rest hrest =>
    obtain rfl := List.isPrefixOf?_eq_some_iff_append_eq.mp hrest
    split
    · rfl
    · next r text hsplit =>
      obtain ⟨name, value, rfl, hcolon, hname, -⟩ := splitRegister?_eq_some_iff.mp hsplit
      exact absurd rfl (hregister name value r hcolon hname)
  · split
    · next rest hrest =>
      exact absurd (List.isPrefixOf?_eq_some_iff_append_eq.mp hrest).symm (hprogram rest)
    · rfl

/-- A line is a register line, or a program line, or of neither form. -/
lemma forms (line : List Char) :
    (∃ (name value : List Char) (r : Register), ':' ∉ name ∧ trim name = r.letter.toList ∧
      line = "Register ".toList ++ (name ++ ':' :: value)) ∨
    (∃ codes, line = "Program:".toList ++ codes) ∨
    (∀ name value (r : Register), ':' ∉ name → trim name = r.letter.toList →
      line ≠ "Register ".toList ++ (name ++ ':' :: value)) ∧
    ∀ codes, line ≠ "Program:".toList ++ codes := by
  by_cases hregister : ∃ (name value : List Char) (r : Register), ':' ∉ name ∧
      trim name = r.letter.toList ∧ line = "Register ".toList ++ (name ++ ':' :: value)
  · exact .inl hregister
  by_cases hprogram : ∃ codes, line = "Program:".toList ++ codes
  · exact .inr (.inl hprogram)
  refine .inr (.inr ⟨fun name value r hcolon hname hline => ?_, fun codes hline => ?_⟩)
  · exact hregister ⟨name, value, r, hcolon, hname, hline⟩
  · exact hprogram ⟨codes, hline⟩

/-- The lines that are accepted are those of the two forms, and they are read as what they say.

**Proof sketch.** A line is a register line, a program line or neither (`forms`). The first is read
as its value is, the second as its codes are, and the last is not read. -/
theorem ofChars_eq_ok_iff {cs : List Char} {l : Line} : ofChars cs = .ok l ↔ Spells cs l := by
  constructor
  · intro h
    rcases forms cs with ⟨name, value, r, hcolon, hname, rfl⟩ | ⟨codes, rfl⟩ | ⟨hreg, hprog⟩
    · obtain ⟨w, hw, rfl⟩ := (ofChars_registerLine_eq_ok_iff hcolon hname).mp h
      exact .register hcolon hname hw
    · rw [ofChars_programLine] at h
      obtain ⟨p, hp, rfl⟩ := map_eq_ok_iff.mp h
      exact .program hp
    · rw [ofChars_of_ne hreg hprog] at h
      cases h
  · intro h
    cases h with
    | register hcolon hname hvalue =>
      exact (ofChars_registerLine_eq_ok_iff hcolon hname).mpr ⟨_, hvalue, rfl⟩
    | program hcodes =>
      rw [ofChars_programLine, hcodes]
      rfl

/-- A line that gives a register some content says so. -/
lemma content?_eq_some_iff {r : Register} {l : Line} {w : Word} :
    l.content? r = some w ↔ l = .register r w := by
  cases l with
  | register r' w' =>
    rw [content?, Option.ite_none_right_eq_some, Option.some.injEq, Line.register.injEq]
  | program p => simp [content?]

/-- A line that gives a program says so. -/
lemma program?_eq_some_iff {l : Line} {p : Program} : l.program? = some p ↔ l = .program p := by
  cases l <;> simp [program?]

end Line

/-! ## The last line of a kind -/

/-- What the last of some rows says among those that say anything of a kind. -/
def LastGives {β : Type} (gives : List Char → β → Prop) (rows : List (List Char)) (b : β) : Prop :=
  ∃ before row after, rows = before ++ row :: after ∧ gives row b ∧
    ∀ later ∈ after, ∀ b', ¬ gives later b'

section LastGives

variable {β : Type} {gives : List Char → β → Prop} {rows : List (List Char)}

/-- If any row says something of the kind, there is a last one.

**Proof sketch.** Induction on the rows: the last one is among the later rows if any of these says
something, and otherwise it is the first. -/
lemma exists_lastGives_iff : (∃ b, LastGives gives rows b) ↔ ∃ row ∈ rows, ∃ b, gives row b := by
  constructor
  · rintro ⟨b, before, row, after, rfl, hrow, -⟩
    exact ⟨row, by simp, b, hrow⟩
  · intro h
    induction rows with
    | nil => simp at h
    | cons row rows ih =>
      by_cases hlater : ∃ row' ∈ rows, ∃ b, gives row' b
      · obtain ⟨b, before, last, after, rfl, hlast, hafter⟩ := ih hlater
        exact ⟨b, row :: before, last, after, rfl, hlast, hafter⟩
      · obtain ⟨row', hmem, b, hb⟩ := h
        rcases List.mem_cons.mp hmem with rfl | hmem
        · refine ⟨b, [], row', rows, rfl, hb, fun later hin b' hb' => ?_⟩
          exact hlater ⟨later, hin, b', hb'⟩
        · exact absurd ⟨row', hmem, b, hb⟩ hlater

/-- The last row of a kind is the first one that is found from the end.

**Proof sketch.** Both sides cut the rows at the same place, once seen from the front and once from
the end. -/
lemma lastGives_iff {f : List Char → Option β} (hf : ∀ row b, f row = some b ↔ gives row b)
    {b : β} :
    LastGives gives rows b ↔ rows.reverse.findSome? f = some b := by
  have hnone : ∀ row, f row = none ↔ ∀ b, ¬ gives row b := fun row => by
    rw [Option.eq_none_iff_forall_ne_some]
    exact forall_congr' fun b => not_congr (hf row b)
  rw [List.findSome?_eq_some_iff]
  constructor
  · rintro ⟨before, row, after, rfl, hrow, hafter⟩
    refine ⟨after.reverse, row, before.reverse, by simp, (hf row b).mpr hrow, fun later hin => ?_⟩
    exact (hnone later).mpr (hafter later (List.mem_reverse.mp hin))
  · rintro ⟨after, row, before, hrows, hrow, hafter⟩
    rw [List.reverse_eq_iff] at hrows
    refine ⟨before.reverse, row, after.reverse, by simpa using hrows, (hf row b).mp hrow,
      fun later hin => ?_⟩
    exact (hnone later).mp (hafter later (List.mem_reverse.mp hin))

/-- What the last line says that says anything of a kind, read off the rows. -/
lemma findSome?_reverse_iff {ls : List Line} (hls : rows.map Line.ofChars = ls.map .ok)
    {f : Line → Option β} {kind : β → Line} (hf : ∀ l b, f l = some b ↔ l = kind b) {b : β} :
    ls.reverse.findSome? f = some b ↔
      LastGives (fun row b => Line.Spells row (kind b)) rows b := by
  have hread : ∀ row b, (Line.ofChars row).toOption.bind f = some b ↔
      Line.Spells row (kind b) := fun row b => by
    rw [← Line.ofChars_eq_ok_iff]
    cases Line.ofChars row <;> simp [Except.toOption, hf]
  have hmap : ls.reverse.findSome? f =
      (rows.map Line.ofChars).reverse.findSome? fun x => x.toOption.bind f := by
    rw [hls, ← List.map_reverse, List.findSome?_map]
    rfl
  rw [lastGives_iff hread, hmap, ← List.map_reverse, List.findSome?_map]
  rfl

end LastGives

/-! ## Snapshots -/

/-- The content of a register is what its last line gives to it. -/
lemma contentOf_eq_ok_iff {ls : List Line} {r : Register} {w : Word} :
    contentOf ls r = .ok w ↔ ls.reverse.findSome? (·.content? r) = some w := by
  unfold contentOf
  cases ls.reverse.findSome? (·.content? r) <;> simp

/-- The program is what the last program line gives. -/
lemma programOf_eq_ok_iff {ls : List Line} {p : Program} :
    programOf ls = .ok p ↔ ls.reverse.findSome? (·.program?) = some p := by
  unfold programOf
  cases ls.reverse.findSome? (·.program?) <;> simp

/-- Some lines make up a snapshot if they give each register its content, and the program. -/
lemma ofLines_eq_ok_iff {ls : List Line} {s : Snapshot} :
    ofLines ls = .ok s ↔
      (∀ r, contentOf ls r = .ok (s.registers.get r)) ∧ programOf ls = .ok s.program := by
  obtain ⟨⟨a, b, c⟩, p⟩ := s
  simp only [ofLines, bind_eq_ok_iff]
  constructor
  · rintro ⟨_, ha, _, hb, _, hc, _, hp, ⟨⟩⟩
    refine ⟨fun r => ?_, hp⟩
    cases r with
    | a => exact ha
    | b => exact hb
    | c => exact hc
  · rintro ⟨hregisters, hp⟩
    exact ⟨a, hregisters .a, b, hregisters .b, c, hregisters .c, p, hp, rfl⟩

/-- A text denotes a snapshot exactly if each of its lines has one of the two forms, and the last
line of each register and the last program line give what the snapshot holds.

**Proof sketch.** The lines are read one by one (`Line.ofChars_eq_ok_iff`), and the content of a
register is what the last line that has one gives, found as the first from the end
(`findSome?_reverse_iff`). -/
theorem ofChars_eq_ok_iff {cs : List Char} {s : Snapshot} :
    ofChars cs = .ok s ↔
      (∀ row ∈ lines cs, ∃ l, Line.Spells row l) ∧
      (∀ r, LastGives (fun row w => Line.Spells row (.register r w)) (lines cs)
        (s.registers.get r)) ∧
      LastGives (fun row p => Line.Spells row (.program p)) (lines cs) s.program := by
  have hread : (∀ row ∈ lines cs, ∃ l, Line.Spells row l) ↔
      ∃ ls, (lines cs).mapM Line.ofChars = .ok ls := by
    rw [exists_mapM_eq_ok_iff]
    simp only [Line.ofChars_eq_ok_iff]
  have hlast : ∀ ls, (lines cs).mapM Line.ofChars = .ok ls → (ofLines ls = .ok s ↔
      (∀ r, LastGives (fun row w => Line.Spells row (.register r w)) (lines cs)
        (s.registers.get r)) ∧
      LastGives (fun row p => Line.Spells row (.program p)) (lines cs) s.program) := by
    intro ls hls
    have hrows := mapM_eq_ok_iff.mp hls
    simp only [ofLines_eq_ok_iff, contentOf_eq_ok_iff, programOf_eq_ok_iff]
    refine and_congr (forall_congr' fun r => ?_) ?_
    · exact findSome?_reverse_iff hrows fun _ _ => Line.content?_eq_some_iff
    · exact findSome?_reverse_iff hrows fun _ _ => Line.program?_eq_some_iff
  rw [ofChars, bind_eq_ok_iff, hread]
  constructor
  · rintro ⟨ls, hls, hs⟩
    exact ⟨⟨ls, hls⟩, (hlast ls hls).mp hs⟩
  · rintro ⟨⟨ls, hls⟩, hs⟩
    exact ⟨ls, hls, (hlast ls hls).mpr hs⟩

/-- **The grammar of snapshots.** Take the lines of a text, trimmed, without those that are blank.
The text is accepted exactly if each of them has the form of a register line or of a program line,
and there is one for each register and one for the program. What it then denotes are the contents
that the last line of each register gives, and the program that the last program line gives.

**Proof sketch.** Each line is accepted exactly if it has one of the two forms
(`Line.ofChars_eq_ok_iff`), and what counts is the last of a kind (`ofChars_eq_ok_iff`), which there
is if there is any (`exists_lastGives_iff`). -/
theorem ofText_accepts_iff (text : String) :
    let rows := ((splitLines text.toList).map trim).filter (!·.isEmpty)
    ((∃ s, ofText text = .ok s) ↔
      (∀ row ∈ rows, ∃ l, Line.Spells row l) ∧
      (∀ r, ∃ row ∈ rows, ∃ w, Line.Spells row (.register r w)) ∧
      ∃ row ∈ rows, ∃ p, Line.Spells row (.program p)) ∧
    ∀ s, ofText text = .ok s →
      (∀ r, LastGives (fun row w => Line.Spells row (.register r w)) rows (s.registers.get r)) ∧
      LastGives (fun row p => Line.Spells row (.program p)) rows s.program := by
  intro rows
  have hrows : lines text.toList = rows := lines_eq_splitLines text.toList
  have hdenotes : ∀ s, ofText text = .ok s ↔ (∀ row ∈ rows, ∃ l, Line.Spells row l) ∧
      (∀ r, LastGives (fun row w => Line.Spells row (.register r w)) rows (s.registers.get r)) ∧
      LastGives (fun row p => Line.Spells row (.program p)) rows s.program := fun s => by
    rw [← hrows]
    exact ofChars_eq_ok_iff
  refine ⟨?_, fun s hs => ((hdenotes s).mp hs).2⟩
  simp only [hdenotes, ← exists_lastGives_iff]
  constructor
  · rintro ⟨s, hforms, hregisters, hprogram⟩
    exact ⟨hforms, fun r => ⟨_, hregisters r⟩, _, hprogram⟩
  · rintro ⟨hforms, hregisters, p, hprogram⟩
    obtain ⟨a, ha⟩ := hregisters .a
    obtain ⟨b, hb⟩ := hregisters .b
    obtain ⟨c, hc⟩ := hregisters .c
    refine ⟨⟨⟨a, b, c⟩, p⟩, hforms, fun r => ?_, hprogram⟩
    cases r with
    | a => exact ha
    | b => exact hb
    | c => exact hc

end Snapshot

end OctalTape

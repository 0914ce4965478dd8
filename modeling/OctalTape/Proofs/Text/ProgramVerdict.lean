import Mathlib.Data.List.Forall2
import OctalTape.Proofs.Text.Numeral
import OctalTape.Proofs.Text.ProgramText

set_option relaxedAutoImplicit false
set_option autoImplicit false

/-!
# The verdict on the text of a program

The commas of a text cut it into fields, and blanks around a field do not belong to it. A text is
refused for its first field that is no numeral of a byte, whatever the others hold. If there is none
it is refused for an odd number of fields, and if their number is even for the first code that needs
more than three bits. Otherwise its fields are the codes of a program. A text that is all blank is
that of the program without codes.

## Main definitions

* `OctalTape.Text.Padded` — a text is another one with blanks around it.
* `OctalTape.Program.fields` — the fields of a text, trimmed.
* `OctalTape.Program.Verdict` — the results of reading a text, and when each is due.

## Main results

* `OctalTape.Program.fields_of_padded`, `OctalTape.Program.fields_intercalate_of_padded` — blanks
  around a text and around its fields do not matter.
* `OctalTape.Program.ofCodes_eq_error_iff` — the tapes that are refused.
* `OctalTape.Program.ofChars_eq_iff` — the result of reading is the one that is due.
* `OctalTape.Program.ofText_verdict` — both together, for texts.

## Implementation notes

A text that is all blank has one field, which is no numeral. So it is told from the texts that are
refused for a field before the fields are looked at.
-/

namespace OctalTape

namespace Text

/-! ## Blanks around a text -/

/-- The second text is the first one with blanks around it. -/
def Padded (cs padded : List Char) : Prop :=
  ∃ ws ws', (∀ c ∈ ws, isBlank c) ∧ (∀ c ∈ ws', isBlank c) ∧ padded = ws ++ cs ++ ws'

/-- The characters up to the first one that is not blank are blank. -/
lemma isBlank_of_mem_takeWhile {cs : List Char} {c : Char} (h : c ∈ cs.takeWhile isBlank) :
    isBlank c :=
  List.all_eq_true.mp List.all_takeWhile c h

/-- What is taken off the end of a text is blank. -/
lemma exists_trimEnd_append (cs : List Char) :
    ∃ ws, (∀ c ∈ ws, isBlank c) ∧ trimEnd cs ++ ws = cs := by
  refine ⟨(cs.reverse.takeWhile isBlank).reverse, fun c hc => ?_, ?_⟩
  · exact isBlank_of_mem_takeWhile (List.mem_reverse.mp hc)
  · rw [trimEnd, ← List.reverse_append, List.takeWhile_append_dropWhile, List.reverse_reverse]

/-- A text has blanks around what it trims to. -/
lemma padded_trim (cs : List Char) : Padded (trim cs) cs := by
  obtain ⟨ws', hws', hend⟩ := exists_trimEnd_append (cs.dropWhile isBlank)
  refine ⟨cs.takeWhile isBlank, ws', fun c => isBlank_of_mem_takeWhile, hws', ?_⟩
  rw [trim, List.append_assoc, hend, List.takeWhile_append_dropWhile]

/-- Blanks around a text do not change what it trims to. -/
lemma Padded.trim_eq {cs padded : List Char} (h : Padded cs padded) : trim padded = trim cs := by
  obtain ⟨ws, ws', hws, hws', rfl⟩ := h
  exact trim_blank_append_blank hws hws' cs

/-- No blank is a comma. -/
lemma comma_not_mem_of_blank {ws : List Char} (h : ∀ c ∈ ws, isBlank c) : ',' ∉ ws :=
  fun hcomma => absurd (h ',' hcomma) (by decide)

/-- Blanks around a text without commas leave it without commas. -/
lemma Padded.comma_not_mem {cs padded : List Char} (h : Padded cs padded) (hcs : ',' ∉ cs) :
    ',' ∉ padded := by
  obtain ⟨ws, ws', hws, hws', rfl⟩ := h
  simp [hcs, comma_not_mem_of_blank hws, comma_not_mem_of_blank hws']

/-- Blanks around some texts without commas leave them without commas. -/
lemma comma_not_mem_of_forall₂_padded {parts padded : List (List Char)}
    (h : List.Forall₂ Padded parts padded) (hparts : ∀ part ∈ parts, ',' ∉ part) :
    ∀ part ∈ padded, ',' ∉ part := by
  induction h with
  | nil => exact hparts
  | cons hpart _ ih =>
    rw [List.forall_mem_cons] at hparts ⊢
    exact ⟨hpart.comma_not_mem hparts.1, ih hparts.2⟩

/-- A text with a comma has a last one. -/
lemma exists_last_comma {cs : List Char} (h : ',' ∈ cs) :
    ∃ front last, cs = front ++ ',' :: last ∧ ',' ∉ last := by
  obtain ⟨tsal, tnorf, hrev, htsal⟩ := List.eq_append_cons_of_mem (List.mem_reverse.mpr h)
  refine ⟨tnorf.reverse, tsal.reverse, ?_, by simpa using htsal⟩
  rw [← List.reverse_reverse cs, hrev]
  simp

/-- There is no comma in what the commas of a text cut it into.

**Proof sketch.** Induction on the text. A comma starts a new part, and any other character goes in
front of the first part. -/
lemma comma_not_mem_of_mem_splitOn {cs part : List Char} (h : part ∈ cs.splitOn ',') :
    ',' ∉ part := by
  induction cs generalizing part with
  | nil =>
    obtain rfl := List.mem_singleton.mp h
    exact List.not_mem_nil
  | cons c cs ih =>
    rw [List.splitOn_cons_eq_if_modifyHead] at h
    split at h
    · rcases List.mem_cons.mp h with rfl | hmem
      · exact List.not_mem_nil
      · exact ih hmem
    · next hc =>
      obtain ⟨first, rest, hparts⟩ := List.exists_cons_of_ne_nil (List.splitOn_ne_nil ',' cs)
      rw [hparts] at h ih
      rcases List.mem_cons.mp h with rfl | hmem
      · have hne : ',' ≠ c := fun heq => hc (beq_iff_eq.mpr heq.symm)
        exact List.not_mem_cons_of_ne_of_not_mem hne (ih List.mem_cons_self)
      · exact ih (List.mem_cons_of_mem first hmem)

end Text

open Text

namespace Program

/-! ## Fields -/

/-- The fields of a text: what its commas cut it into, trimmed. -/
def fields (cs : List Char) : List (List Char) := (cs.splitOn ',').map trim

/-- A text without commas is one field. -/
lemma fields_of_not_mem {cs : List Char} (h : ',' ∉ cs) : fields cs = [trim cs] := by
  rw [fields, List.splitOn_eq_singleton h, List.map_singleton]

/-- The fields in front of a comma and those behind it. -/
lemma fields_append_cons (cs ds : List Char) :
    fields (cs ++ ',' :: ds) = fields cs ++ fields ds := by
  rw [fields, List.splitOn_append_cons_self, List.map_append]
  rfl

/-- Blanks in front of a text do not change its fields. -/
lemma fields_blank_append {ws : List Char} (h : ∀ c ∈ ws, isBlank c) (cs : List Char) :
    fields (ws ++ cs) = fields cs := by
  have hws := comma_not_mem_of_blank h
  by_cases hcs : ',' ∈ cs
  · -- only the field in front of the first comma is concerned
    obtain ⟨first, rest, rfl, hfirst⟩ := List.eq_append_cons_of_mem hcs
    rw [← List.append_assoc, fields_append_cons, fields_append_cons,
      fields_of_not_mem (by simp [hws, hfirst]), fields_of_not_mem hfirst, trim_blank_append h]
  · rw [fields_of_not_mem (by simp [hws, hcs]), fields_of_not_mem hcs, trim_blank_append h]

/-- Blanks behind a text do not change its fields. -/
lemma fields_append_blank {ws : List Char} (h : ∀ c ∈ ws, isBlank c) (cs : List Char) :
    fields (cs ++ ws) = fields cs := by
  have hws := comma_not_mem_of_blank h
  by_cases hcs : ',' ∈ cs
  · -- only the field behind the last comma is concerned
    obtain ⟨front, last, rfl, hlast⟩ := exists_last_comma hcs
    have hlast' : ',' ∉ last ++ ws := by simp [hws, hlast]
    rw [List.append_assoc, List.cons_append, fields_append_cons, fields_append_cons,
      fields_of_not_mem hlast', fields_of_not_mem hlast, trim_append_blank h]
  · rw [fields_of_not_mem (by simp [hws, hcs]), fields_of_not_mem hcs, trim_append_blank h]

/-- Blanks around a text do not change its fields. -/
theorem fields_of_padded {cs padded : List Char} (h : Padded cs padded) :
    fields padded = fields cs := by
  obtain ⟨ws, ws', hws, hws', rfl⟩ := h
  rw [fields_append_blank hws', fields_blank_append hws]

/-- Blanks around the fields of a text do not change them. -/
theorem fields_intercalate_of_padded {cs : List Char} {parts : List (List Char)}
    (h : List.Forall₂ Padded (cs.splitOn ',') parts) :
    fields ([','].intercalate parts) = fields cs := by
  have hne : parts ≠ [] := by
    rintro rfl
    exact List.splitOn_ne_nil ',' cs (List.forall₂_nil_right_iff.mp h)
  have hcomma : ∀ part ∈ parts, ',' ∉ part :=
    comma_not_mem_of_forall₂_padded h fun _ => comma_not_mem_of_mem_splitOn
  have htrim : (cs.splitOn ',').map trim = parts.map trim := by
    rw [← List.forall₂_eq_eq_eq, List.forall₂_map_left_iff, List.forall₂_map_right_iff]
    exact h.imp fun _ _ hpadded => hpadded.trim_eq.symm
  rw [fields, List.splitOn_intercalate ',' hcomma hne, ← htrim, fields]

/-- The texts that are all blank are those with one empty field. -/
lemma fields_eq_singleton_nil_iff {cs : List Char} : fields cs = [[]] ↔ trim cs = [] := by
  constructor
  · intro h
    obtain ⟨part, hparts, htrim⟩ := List.map_eq_singleton_iff.mp h
    have hcs : [','].intercalate (cs.splitOn ',') = cs := List.intercalate_splitOn ','
    rw [hparts, List.intercalate_singleton] at hcs
    rwa [← hcs]
  · intro h
    rw [fields_of_not_mem (comma_not_mem_of_blank (trim_eq_nil_iff.mp h)), h]

/-! ## Tapes -/

/-- The code at the index `i` is the first one of a tape that needs more than three bits. -/
def FirstOutOfRange (codes : List UInt8) (i : ℕ) (code : UInt8) : Prop :=
  codes[i]? = some code ∧ 7 < code ∧ ∀ j < i, ∀ code', codes[j]? = some code' → code' ≤ 7

/-- The index of the first code that needs more than three bits is found. -/
lemma findIdx?_eq_some_iff_firstOutOfRange {codes : List UInt8} {i : ℕ} :
    codes.findIdx? (7 < ·) = some i ↔ ∃ code, FirstOutOfRange codes i code := by
  rw [List.findIdx?_eq_some_iff_getElem]
  constructor
  · rintro ⟨hi, hcode, hbefore⟩
    refine ⟨codes[i], List.getElem?_eq_getElem hi, of_decide_eq_true hcode, ?_⟩
    intro j hj code' hcode'
    obtain ⟨hlt, rfl⟩ := List.getElem?_eq_some_iff.mp hcode'
    exact UInt8.not_lt.mp fun h => hbefore j hj (decide_eq_true h)
  · rintro ⟨code, hat, hcode, hbefore⟩
    obtain ⟨hi, rfl⟩ := List.getElem?_eq_some_iff.mp hat
    refine ⟨hi, decide_eq_true hcode, fun j hj h => ?_⟩
    have hle := hbefore j hj _ (List.getElem?_eq_getElem (hj.trans hi))
    exact UInt8.not_lt.mpr hle (of_decide_eq_true h)

/-- The first code that needs more than three bits is found, with its index. -/
lemma firstOutOfRange?_eq_some_iff {codes : List UInt8} {i : ℕ} {code : UInt8} :
    firstOutOfRange? codes = some (i, code) ↔ FirstOutOfRange codes i code := by
  unfold firstOutOfRange?
  simp only [Option.bind_eq_some_iff, Option.map_eq_some_iff, Prod.mk.injEq,
    findIdx?_eq_some_iff_firstOutOfRange]
  constructor
  · rintro ⟨k, ⟨code', hcode'⟩, code'', hat, rfl, rfl⟩
    obtain rfl : code'' = code' := Option.some.inj (hat.symm.trans hcode'.1)
    exact hcode'
  · intro h
    exact ⟨i, ⟨code, h⟩, code, h.1, rfl, rfl⟩

/-- A tape of odd length is refused for its length. -/
lemma ofCodes_of_odd {codes : List UInt8} (h : codes.length % 2 = 1) :
    ofCodes codes = .error (.oddProgramLength codes.length) := by
  have hodd : ¬ codes.length % 2 = 0 := by omega
  exact dif_neg hodd

/-- A tape of even length is refused for the first code that needs more than three bits. -/
lemma ofCodes_of_firstOutOfRange {codes : List UInt8} {i : ℕ} {code : UInt8}
    (heven : codes.length % 2 = 0) (h : FirstOutOfRange codes i code) :
    ofCodes codes = .error (.codeOutOfRange i code) := by
  rw [← firstOutOfRange?_eq_some_iff] at h
  rw [ofCodes, dif_pos heven]
  split
  · next hrange =>
    rw [h] at hrange
    cases hrange
    rfl
  · next hrange =>
    rw [h] at hrange
    cases hrange

/-- A tape is refused for an odd length, and if its length is even for the first code that needs
more than three bits.

**Proof sketch.** The length is tested first and then the codes. An even length with no code out of
range is that of a program, which is not refused. -/
theorem ofCodes_eq_error_iff {codes : List UInt8} {e : Error} :
    ofCodes codes = .error e ↔
      (codes.length % 2 = 1 ∧ e = .oddProgramLength codes.length) ∨
      (codes.length % 2 = 0 ∧ ∃ i code, FirstOutOfRange codes i code ∧
        e = .codeOutOfRange i code) := by
  constructor
  · intro h
    rcases Nat.mod_two_eq_zero_or_one codes.length with heven | hodd
    · cases hrange : firstOutOfRange? codes with
      | none =>
        -- then the tape is that of a program
        have hok : ofCodes codes = .ok ⟨codes.toArray, by simpa using heven, by
            simpa using firstOutOfRange?_eq_none_iff.mp hrange⟩ := ofCodes_eq_ok_iff.mpr rfl
        rw [hok] at h
        cases h
      | some found =>
        have hfirst := firstOutOfRange?_eq_some_iff.mp hrange
        rw [ofCodes_of_firstOutOfRange heven hfirst] at h
        exact .inr ⟨heven, found.1, found.2, hfirst, (Except.error.inj h).symm⟩
    · rw [ofCodes_of_odd hodd] at h
      exact .inl ⟨hodd, (Except.error.inj h).symm⟩
  · rintro (⟨hodd, rfl⟩ | ⟨heven, i, code, hfirst, rfl⟩)
    · exact ofCodes_of_odd hodd
    · exact ofCodes_of_firstOutOfRange heven hfirst

/-! ## Texts -/

/-- The numerals of bytes are read. -/
lemma readCode_eq_ok_iff {field : List Char} {code : UInt8} :
    readCode field = .ok code ↔ Denotes field code.toNat := by
  rw [← readByte?_eq_some_iff, readCode]
  cases readByte? field <;> simp

/-- A field that is no numeral of a byte is refused, and told in the error. -/
lemma readCode_eq_error_iff {field : List Char} {e : Error} :
    readCode field = .error e ↔
      (∀ n ≤ 255, ¬ Denotes field n) ∧ e = .invalidCode (String.ofList field) := by
  rw [← readByte?_eq_none_iff, readCode]
  cases readByte? field <;> simp [eq_comm]

/-- A text that is not blank is read field by field, and then as the tape of these fields. -/
lemma ofChars_eq_bind {cs : List Char} (h : trim cs ≠ []) :
    ofChars cs = (fields cs).mapM readCode >>= ofCodes := by
  rw [fields_of_padded (padded_trim cs), fields, List.mapM_map, ofChars]
  split
  · next hnil => exact absurd hnil h
  · rfl

/-- The fields of a text decide what it is read as. -/
lemma ofChars_congr {cs ds : List Char} (h : fields cs = fields ds) : ofChars cs = ofChars ds := by
  by_cases hcs : trim cs = []
  · have hds : trim ds = [] := by
      rwa [← fields_eq_singleton_nil_iff, ← h, fields_eq_singleton_nil_iff]
    rw [ofChars, ofChars, hcs, hds]
  · have hds : trim ds ≠ [] := by
      rwa [Ne, ← fields_eq_singleton_nil_iff, ← h, fields_eq_singleton_nil_iff]
    rw [ofChars_eq_bind hcs, ofChars_eq_bind hds, h]

/-- The results of reading the fields of a text that is not blank, and when each is due. -/
inductive Verdict (fields : List (List Char)) : Except Error Program → Prop where
  /-- The first field that is no numeral of a byte is refused, whatever the others hold. -/
  | field {before after : List (List Char)} {field : List Char}
      (hsplit : fields = before ++ field :: after)
      (hbefore : ∀ f ∈ before, ∃ n ≤ 255, Denotes f n) (hfield : ∀ n ≤ 255, ¬ Denotes field n) :
      Verdict fields (.error (.invalidCode (String.ofList field)))
  /-- An odd number of bytes is refused, whatever they are. -/
  | odd {codes : List UInt8}
      (hcodes : List.Forall₂ (fun field code => Denotes field code.toNat) fields codes)
      (hodd : fields.length % 2 = 1) : Verdict fields (.error (.oddProgramLength fields.length))
  /-- Of an even number of bytes the first that needs more than three bits is refused. -/
  | range {codes : List UInt8} {i : ℕ} {code : UInt8}
      (hcodes : List.Forall₂ (fun field code => Denotes field code.toNat) fields codes)
      (heven : fields.length % 2 = 0) (hfirst : FirstOutOfRange codes i code) :
      Verdict fields (.error (.codeOutOfRange i code))
  /-- The fields are the codes of the program. -/
  | program {p : Program}
      (hcodes : List.Forall₂ (fun field code => Denotes field code.toNat) fields p.toList) :
      Verdict fields (.ok p)

/-- All fields are read if each is a numeral of a byte. -/
lemma mapM_readCode_eq_ok_iff {fields : List (List Char)} {codes : List UInt8} :
    fields.mapM readCode = .ok codes ↔
      List.Forall₂ (fun field code => Denotes field code.toNat) fields codes := by
  rw [mapM_eq_ok_iff, ← List.forall₂_eq_eq_eq, List.forall₂_map_left_iff,
    List.forall₂_map_right_iff]
  simp only [readCode_eq_ok_iff]

/-- A field is read exactly if it is a numeral of a byte. -/
lemma exists_readCode_eq_ok_iff {field : List Char} :
    (∃ code, readCode field = .ok code) ↔ ∃ n ≤ 255, Denotes field n := by
  simp only [readCode_eq_ok_iff]
  constructor
  · rintro ⟨code, hcode⟩
    exact ⟨code.toNat, Nat.le_of_lt_succ code.toNat_lt, hcode⟩
  · rintro ⟨n, hn, hfield⟩
    refine ⟨UInt8.ofNat n, ?_⟩
    rwa [UInt8.toNat_ofNat_of_lt' (Nat.lt_succ_of_le hn)]

/-- The result of reading a text that is not blank is the one that is due.

**Proof sketch.** The fields are read from the first to the last, so the first that is no numeral of
a byte ends the reading (`mapM_eq_error_iff`). Only if there is none is the tape looked at, and
there the length comes first (`ofCodes_eq_error_iff`). -/
theorem ofChars_eq_iff {cs : List Char} (h : trim cs ≠ []) {r : Except Error Program} :
    ofChars cs = r ↔ Verdict (fields cs) r := by
  rw [ofChars_eq_bind h]
  cases r with
  | error e =>
    simp only [bind_eq_error_iff, mapM_eq_error_iff, mapM_readCode_eq_ok_iff, readCode_eq_error_iff,
      exists_readCode_eq_ok_iff, ofCodes_eq_error_iff]
    constructor
    · rintro (⟨before, field, after, hsplit, hbefore, hfield, rfl⟩ |
        ⟨codes, hcodes, ⟨hodd, rfl⟩ | ⟨heven, i, code, hfirst, rfl⟩⟩)
      · exact .field hsplit hbefore hfield
      · rw [← hcodes.length_eq] at hodd ⊢
        exact .odd hcodes hodd
      · rw [← hcodes.length_eq] at heven
        exact .range hcodes heven hfirst
    · intro hverdict
      cases hverdict with
      | field hsplit hbefore hfield => exact .inl ⟨_, _, _, hsplit, hbefore, hfield, rfl⟩
      | odd hcodes hodd =>
        rw [hcodes.length_eq] at hodd ⊢
        exact .inr ⟨_, hcodes, .inl ⟨hodd, rfl⟩⟩
      | range hcodes heven hfirst =>
        rw [hcodes.length_eq] at heven
        exact .inr ⟨_, hcodes, .inr ⟨heven, _, _, hfirst, rfl⟩⟩
  | ok p =>
    simp only [bind_eq_ok_iff, mapM_readCode_eq_ok_iff, ofCodes_eq_ok_iff]
    constructor
    · rintro ⟨_, hcodes, rfl⟩
      exact .program hcodes
    · intro hverdict
      cases hverdict with
      | program hcodes => exact ⟨_, hcodes, rfl⟩

/-- **The verdict on a text.** A text that is all blank is the program without codes. Any other text
is read as what is due to its fields, trimmed: the error of the first field that is no numeral of a
byte, wherever it stands and whatever the other fields hold; else the error of their number if it is
odd; else the error of the first code that needs more than three bits; else the program of these
codes. So blanks around the text or around any of its fields, put there or taken away, never change
the result, and neither the text that an error tells. -/
theorem ofText_verdict (text : String) :
    (trim text.toList = [] → ofText text = .ok .empty) ∧
    (trim text.toList ≠ [] → ∀ r, ofText text = r ↔ Verdict (fields text.toList) r) ∧
    (∀ padded : String, Padded text.toList padded.toList → ofText padded = ofText text) ∧
    ∀ parts, List.Forall₂ Padded (text.toList.splitOn ',') parts →
      ofText (String.ofList ([','].intercalate parts)) = ofText text := by
  refine ⟨fun hblank => ?_, fun hne r => ofChars_eq_iff hne, fun padded hpadded => ?_,
    fun parts hparts => ?_⟩
  · rw [ofText, ofChars, hblank]
    rfl
  · exact ofChars_congr (fields_of_padded hpadded)
  · apply ofChars_congr
    rw [String.toList_ofList]
    exact fields_intercalate_of_padded hparts

/-- A field that is no numeral wins over an odd number of fields and over a code out of range. -/
example : ofText " 9, +08 ,,7,256" = .error (.invalidCode "") := rfl

end Program

end OctalTape

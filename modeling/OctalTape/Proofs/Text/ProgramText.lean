import Mathlib.Tactic.Basic
import OctalTape.Program
import OctalTape.Proofs.Results

set_option relaxedAutoImplicit false
set_option autoImplicit false

/-!
# Reading the text of a program

The text of a list of bytes holds digits and commas only, so that blanks around it can be told
from it. It is read as the tape of these bytes, with the same verdict as on the tape itself. So no
two lists of bytes have the same text.

## Main results

* `OctalTape.Text.trim_blank_append_blank` — blanks on both sides of a text do not matter.
* `OctalTape.Text.trim_toList_decimalList` — the text of some bytes is trimmed already.
* `OctalTape.Program.ofChars_decimalList` — the text of some bytes is read as their tape.
* `OctalTape.Program.ofChars_text` — the text of a program is read as that program.
* `OctalTape.Program.decimalList_injective` — different lists of bytes have different texts.
* `OctalTape.Program.ofText_decimalList` — reading undoes writing.
-/

namespace OctalTape

namespace Text

/-! ## Trimming -/

/-- Digits are not blank. -/
lemma not_isBlank_of_isDigit {c : Char} (h : c.isDigit) : ¬ isBlank c := by
  have hrange : 48 ≤ c.toNat ∧ c.toNat ≤ 57 := Char.isDigit_iff_toNat.mp h
  simp only [isBlank, Bool.or_eq_true, Bool.and_eq_true, decide_eq_true_eq, beq_iff_eq]
  omega

/-- Blanks on both sides of a text do not matter. -/
lemma trim_blank_append_blank {ws ws' : List Char} (h : ∀ c ∈ ws, isBlank c)
    (h' : ∀ c ∈ ws', isBlank c) (cs : List Char) : trim (ws ++ cs ++ ws') = trim cs := by
  rw [trim_append_blank h', trim_blank_append h]

/-- A text without blanks is trimmed already. -/
lemma trim_eq_self_of_not_isBlank {cs : List Char} (h : ∀ c ∈ cs, ¬ isBlank c) : trim cs = cs :=
  trim_eq_self (fun c hc => h c (List.mem_of_head? hc)) (fun c hc => h c (List.mem_of_getLast? hc))

/-! ## Texts of numbers -/

/-- The characters of the text of a number. -/
lemma toList_decimal (n : Nat) : (decimal n).toList = decimalDigits n := String.toList_ofList

/-- The characters of the text of some bytes. -/
lemma toList_decimalList (ns : List UInt8) :
    (decimalList ns).toList = [','].intercalate (ns.map fun n => decimalDigits n.toNat) := by
  simp [decimalList]

/-- The text of a number holds no blanks. -/
lemma not_isBlank_of_mem_decimalDigits {n : Nat} {c : Char} (h : c ∈ decimalDigits n) :
    ¬ isBlank c :=
  not_isBlank_of_isDigit (isDigit_of_mem_decimalDigits h)

/-- The text of the first byte, and that of the others behind a comma. -/
lemma toList_decimalList_cons (n : UInt8) (ns : List UInt8) :
    (decimalList (n :: ns)).toList =
      decimalDigits n.toNat ++ if ns = [] then [] else ',' :: (decimalList ns).toList := by
  rw [toList_decimalList, toList_decimalList]
  cases ns with
  | nil => simp
  | cons m ns => simp

/-- The text of some bytes holds digits and commas only. -/
lemma isDigit_or_eq_of_mem_decimalList {ns : List UInt8} {c : Char}
    (h : c ∈ (decimalList ns).toList) : c.isDigit ∨ c = ',' := by
  induction ns with
  | nil => simp [toList_decimalList] at h
  | cons n ns ih =>
    rw [toList_decimalList_cons, List.mem_append] at h
    rcases h with hdigit | hrest
    · exact .inl (isDigit_of_mem_decimalDigits hdigit)
    · split at hrest
      · simp at hrest
      · rcases List.mem_cons.mp hrest with rfl | hmem
        · exact .inr rfl
        · exact ih hmem

/-- The text of some bytes holds no blanks. -/
lemma not_isBlank_of_mem_decimalList {ns : List UInt8} {c : Char}
    (h : c ∈ (decimalList ns).toList) : ¬ isBlank c := by
  rcases isDigit_or_eq_of_mem_decimalList h with hdigit | rfl
  · exact not_isBlank_of_isDigit hdigit
  · decide

/-- The text of a number is trimmed already. -/
lemma trim_decimalDigits (n : Nat) : trim (decimalDigits n) = decimalDigits n :=
  trim_eq_self_of_not_isBlank fun _ => not_isBlank_of_mem_decimalDigits

/-- The text of some bytes is trimmed already. -/
lemma trim_toList_decimalList (ns : List UInt8) :
    trim (decimalList ns).toList = (decimalList ns).toList :=
  trim_eq_self_of_not_isBlank fun _ => not_isBlank_of_mem_decimalList

/-- The text of one byte or more is not empty. -/
lemma toList_decimalList_ne_nil {ns : List UInt8} (h : ns ≠ []) :
    (decimalList ns).toList ≠ [] := by
  cases ns with
  | nil => exact absurd rfl h
  | cons n ns => simp [toList_decimalList_cons, decimalDigits_ne_nil]

/-- Only the text of no bytes is empty. -/
lemma toList_decimalList_eq_nil_iff {ns : List UInt8} : (decimalList ns).toList = [] ↔ ns = [] := by
  cases ns with
  | nil => exact iff_of_true rfl rfl
  | cons n ns =>
    have hne := List.cons_ne_nil n ns
    exact iff_of_false (toList_decimalList_ne_nil hne) hne

/-- The commas cut the text of some bytes into the texts of the bytes. -/
lemma splitOn_toList_decimalList {ns : List UInt8} (h : ns ≠ []) :
    (decimalList ns).toList.splitOn ',' = ns.map fun n => decimalDigits n.toNat := by
  rw [toList_decimalList]
  apply List.splitOn_intercalate
  · intro cs hcs hcomma
    obtain ⟨n, -, rfl⟩ := List.mem_map.mp hcs
    exact absurd (isDigit_of_mem_decimalDigits hcomma) (by decide)
  · simpa using h

end Text

open Text

namespace Program

/-- The text of a byte is read as that byte. -/
lemma readField_decimalDigits (n : UInt8) : readField (decimalDigits n.toNat) = .ok n := by
  unfold readField readCode
  rw [trim_decimalDigits, readByte?_decimalDigits]

/-- The texts of some bytes are read as these bytes. -/
lemma mapM_readField (ns : List UInt8) :
    (ns.map fun n => decimalDigits n.toNat).mapM readField = .ok ns := by
  rw [mapM_eq_ok_iff, List.map_map]
  exact List.map_congr_left fun n _ => readField_decimalDigits n

/-- The fields of the text of some bytes are read as these bytes. -/
lemma mapM_readField_splitOn {ns : List UInt8} (h : ns ≠ []) :
    ((decimalList ns).toList.splitOn ',').mapM readField = .ok ns := by
  rw [splitOn_toList_decimalList h, mapM_readField]

/-- The text of some bytes, with any blanks around it, is read as their tape: it is accepted or
refused as the tape is.

**Proof sketch.** The blanks are trimmed off. The text of no bytes is empty and is read as such;
any other is cut at its commas into the fields it was made of (`mapM_readField_splitOn`). -/
theorem ofChars_decimalList {ws ws' : List Char} (h : ∀ c ∈ ws, isBlank c)
    (h' : ∀ c ∈ ws', isBlank c) (ns : List UInt8) :
    ofChars (ws ++ (decimalList ns).toList ++ ws') = ofCodes ns := by
  have htrim : trim (ws ++ (decimalList ns).toList ++ ws') = (decimalList ns).toList := by
    rw [trim_blank_append_blank h h', trim_toList_decimalList]
  unfold ofChars
  rw [htrim]
  split
  · next hnil =>
    cases ns with
    | nil => rfl
    | cons n ns => exact absurd hnil (toList_decimalList_ne_nil (List.cons_ne_nil n ns))
  · next hne =>
    have hns : ns ≠ [] := by
      rintro rfl
      exact hne rfl
    rw [mapM_readField_splitOn hns]
    rfl

/-- The text of a program, with any blanks around it, is read as that program. -/
theorem ofChars_text {ws ws' : List Char} (h : ∀ c ∈ ws, isBlank c) (h' : ∀ c ∈ ws', isBlank c)
    (p : Program) : ofChars (ws ++ p.text.toList ++ ws') = .ok p := by
  unfold text
  rw [ofChars_decimalList h h']
  exact ofCodes_eq_ok_iff.mpr rfl

/-- Different lists of bytes have different texts, those that are no tapes of programs included. -/
lemma decimalList_injective : Function.Injective decimalList := by
  intro ms ns h
  have hempty : ms = [] ↔ ns = [] := by
    rw [← toList_decimalList_eq_nil_iff, h, toList_decimalList_eq_nil_iff]
  by_cases hms : ms = []
  · rw [hms, hempty.mp hms]
  · -- the verdict on a tape can be the same for two tapes, so the fields are read
    have hread := mapM_readField_splitOn hms
    rw [h, mapM_readField_splitOn fun hns => hms (hempty.mpr hns)] at hread
    exact (Except.ok.inj hread).symm

/-- **Reading undoes writing.** The text of any bytes, as many and as large as they may be, is
accepted or refused as their tape is, with the same error. So a program is read back from the text
of its codes. Different lists of bytes have different texts. -/
theorem ofText_decimalList :
    (∀ codes : List UInt8, ofText (decimalList codes) = ofCodes codes) ∧
    (∀ p : Program, ofText (decimalList p.toList) = .ok p) ∧
    Function.Injective decimalList := by
  have hread : ∀ codes : List UInt8, ofText (decimalList codes) = ofCodes codes := fun codes => by
    simpa [ofText] using ofChars_decimalList (List.forall_mem_nil _) (List.forall_mem_nil _) codes
  refine ⟨hread, fun p => ?_, decimalList_injective⟩
  rw [hread]
  exact ofCodes_eq_ok_iff.mpr rfl

end Program

end OctalTape

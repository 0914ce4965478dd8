import OctalTape.Error
import OctalTape.Instruction
import OctalTape.Text.Blank
import OctalTape.Text.Numeral

set_option relaxedAutoImplicit false
set_option autoImplicit false

/-!
# Programs

A program is a tape of 3-bit codes, an opcode and an operand in turn. Its text is the list of
its codes in decimal, separated by commas, with blanks allowed around each.

## Main definitions

* `OctalTape.Program` — a tape of even length whose codes fit into three bits.
* `OctalTape.Program.ofCodes` — the program on a given tape, if it is one.
* `OctalTape.Program.ofText` — the program that a text denotes.
* `OctalTape.Program.text` — the text of a program.
* `OctalTape.Program.fetch` — the instruction at a position of the tape.

## Main results

* `OctalTape.Program.ofCodes_eq_ok_iff` — exactly the tapes of programs are accepted.
* `OctalTape.Program.fetch_eq_none_iff` — from an even position the fetch fails only outside the
  tape.

## Implementation notes

A tape with both faults is refused for its length. A text with a field that is not a byte is
refused for its first such field, before the length and the sizes of the codes are looked at.
-/

namespace OctalTape

open Text (trim readByte? decimalList)

/-- A tape of 3-bit codes, read as pairs of an opcode and an operand. -/
structure Program where
  /-- The codes of the tape. -/
  codes : Array UInt8
  /-- Every opcode has its operand. -/
  even_size : codes.size % 2 = 0
  /-- Every code fits into three bits. -/
  le_seven : ∀ code ∈ codes, code ≤ 7
  deriving DecidableEq

namespace Program

/-- The program without instructions. -/
def empty : Program := ⟨#[], rfl, by simp⟩

instance : Inhabited Program := ⟨empty⟩

/-! ## From tapes -/

/-- The first code that needs more than three bits, and where it stands. -/
def firstOutOfRange? (codes : List UInt8) : Option (Nat × UInt8) :=
  (codes.findIdx? (7 < ·)).bind fun i => codes[i]?.map (i, ·)

/-- No code is found only if all of them fit into three bits. -/
theorem firstOutOfRange?_eq_none_iff {codes : List UInt8} :
    firstOutOfRange? codes = none ↔ ∀ code ∈ codes, code ≤ 7 := by
  unfold firstOutOfRange?
  cases h : codes.findIdx? (7 < ·) with
  | none => simpa using h
  | some i =>
    obtain ⟨hi, hlt, -⟩ := List.findIdx?_eq_some_iff_getElem.mp h
    simp only [Option.bind_some, List.getElem?_eq_getElem hi, Option.map_some, reduceCtorEq,
      false_iff]
    intro hall
    exact absurd (of_decide_eq_true hlt) (UInt8.not_lt.mpr (hall _ (List.getElem_mem hi)))

/-- The program on the tape `codes`. -/
def ofCodes (codes : List UInt8) : Except Error Program :=
  if heven : codes.length % 2 = 0 then
    match hrange : firstOutOfRange? codes with
    | some (i, code) => .error (.codeOutOfRange i code)
    | none =>
      .ok ⟨codes.toArray, by simpa using heven, by
        simpa using firstOutOfRange?_eq_none_iff.mp hrange⟩
  else .error (.oddProgramLength codes.length)

/-- The number of codes on the tape. -/
def size (p : Program) : Nat := p.codes.size

/-- Whether the tape is empty. -/
def isEmpty (p : Program) : Bool := p.codes.isEmpty

/-- The codes as a list, the view in which tapes are compared with outputs. -/
def toList (p : Program) : List UInt8 := p.codes.toList

/-- Exactly the tapes of programs are accepted.

**Proof sketch.** What is accepted keeps its codes. The tape of a program has an even length and no
code above seven, so it passes both tests. -/
theorem ofCodes_eq_ok_iff {codes : List UInt8} {p : Program} :
    ofCodes codes = .ok p ↔ p.toList = codes := by
  unfold ofCodes toList
  constructor
  · intro h
    split at h
    · split at h
      · cases h
      · cases h
        rfl
    · cases h
  · rintro rfl
    have heven : p.codes.toList.length % 2 = 0 := by simpa using p.even_size
    have hnone : firstOutOfRange? p.codes.toList = none :=
      firstOutOfRange?_eq_none_iff.mpr (by simpa using p.le_seven)
    rw [dif_pos heven]
    split
    · next h => simp [hnone] at h
    · rfl

/-! ## From texts -/

/-- The byte that a trimmed field of a program text denotes. -/
def readCode (field : List Char) : Except Error UInt8 :=
  match readByte? field with
  | some code => .ok code
  | none => .error (.invalidCode (String.ofList field))

/-- The byte that a field of a program text denotes, with the blanks around it. -/
def readField (field : List Char) : Except Error UInt8 := readCode (trim field)

/-- The program whose text is `cs`. A blank text denotes the empty program. -/
def ofChars (cs : List Char) : Except Error Program :=
  match trim cs with
  | [] => ofCodes []
  | text => do ofCodes (← (text.splitOn ',').mapM readField)

/-- The program that a text denotes. -/
def ofText (text : String) : Except Error Program := ofChars text.toList

/-- The text of a program. -/
def text (p : Program) : String := decimalList p.toList

/-! ## Fetching -/

/-- The instruction at a position: its opcode there and its operand behind it. -/
def fetch (p : Program) (pointer : Nat) : Option Instruction := do
  let opcode ← Opcode.ofCode? (← p.codes[pointer]?)
  let operand ← p.codes[pointer + 1]?
  return ⟨opcode, operand⟩

/-- From an even position the fetch fails only outside the tape. -/
theorem fetch_eq_none_iff {p : Program} {pointer : Nat} (h : pointer % 2 = 0) :
    p.fetch pointer = none ↔ p.size ≤ pointer := by
  unfold fetch size
  constructor
  · intro hf
    refine Nat.le_of_not_lt fun hlt => ?_
    have hlt' : pointer + 1 < p.codes.size := by have := p.even_size; omega
    obtain ⟨op, hop⟩ := Option.isSome_iff_exists.mp
      (Opcode.isSome_ofCode?.mpr (p.le_seven _ (Array.getElem_mem hlt)))
    simp [hlt, hlt', hop] at hf
  · intro hle
    simp [Array.getElem?_eq_none hle]

end Program

end OctalTape

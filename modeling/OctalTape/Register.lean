import OctalTape.Word

set_option relaxedAutoImplicit false
set_option autoImplicit false

/-!
# Registers

The machine has three registers, each holding one word.

## Main definitions

* `OctalTape.Register` — the name of a register; `OctalTape.Register.letter`, its letter.
* `OctalTape.Registers` — the contents of all three.
* `OctalTape.Registers.ofSeed` — the contents with which a run from a seed begins.
-/

namespace OctalTape

/-- The name of a register. -/
inductive Register where
  | a
  | b
  | c
  deriving DecidableEq, Repr

namespace Register

/-- The registers in their order. -/
def all : List Register := [.a, .b, .c]

/-- The letter that stands for a register in texts. -/
def letter : Register → String
  | .a => "A"
  | .b => "B"
  | .c => "C"

/-- The register of a letter. -/
def ofLetter? (letter : String) : Option Register :=
  all.find? (·.letter == letter)

/-- The place of a register in their order, from `0`. -/
def toCode : Register → UInt8
  | .a => 0
  | .b => 1
  | .c => 2

/-- The register at a place of their order. -/
def ofCode? (code : UInt8) : Option Register :=
  all.find? (·.toCode == code)

/-- No register is left out. -/
theorem mem_all (r : Register) : r ∈ all := by
  cases r <;> decide

/-- A register is found by its letter. -/
theorem ofLetter?_letter (r : Register) : ofLetter? r.letter = some r := by
  cases r <;> decide

/-- A register is found by its place. -/
theorem ofCode?_toCode (r : Register) : ofCode? r.toCode = some r := by
  cases r <;> decide

end Register

/-- The contents of the three registers. -/
structure Registers where
  a : Word
  b : Word
  c : Word
  deriving DecidableEq, Repr

namespace Registers

/-- The content of one register. -/
def get (rs : Registers) : Register → Word
  | .a => rs.a
  | .b => rs.b
  | .c => rs.c

/-- The contents after one register has been given the word `w`. -/
def set (rs : Registers) (r : Register) (w : Word) : Registers :=
  match r with
  | .a => { rs with a := w }
  | .b => { rs with b := w }
  | .c => { rs with c := w }

/-- A seed is put into register A, over zeros in the two others. -/
def ofSeed (seed : Word) : Registers := ⟨seed, 0, 0⟩

/-- The contents in the order of the registers. -/
def toList (rs : Registers) : List Word := [rs.a, rs.b, rs.c]

/-- A register that has been written holds the word, and the others what they held. -/
theorem get_set (rs : Registers) (r s : Register) (w : Word) :
    (rs.set r w).get s = if s = r then w else rs.get s := by
  cases r <;> cases s <;> rfl

end Registers

end OctalTape

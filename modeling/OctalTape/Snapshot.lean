import OctalTape.Program

set_option relaxedAutoImplicit false
set_option autoImplicit false

/-!
# Snapshots

A snapshot holds the contents of the registers and a program. Its text has a line for each
register and a line for the program, in any order and with blank lines anywhere:

    Register A: 729
    Register B: 0
    Register C: 0

    Program: 0,1,5,4,3,0

## Main definitions

* `OctalTape.Snapshot` — registers and a program.
* `OctalTape.Snapshot.Line` — what one line of a snapshot says.
* `OctalTape.Snapshot.Line.ofChars` — the reading of a line.
* `OctalTape.Snapshot.ofText` — the snapshot that a text denotes.

## Implementation notes

All lines are read before any is missed, so a malformed line is reported rather than a missing
one, and of several malformed lines the first. What a later line says replaces what an earlier
line of the same kind said.
-/

namespace OctalTape

open Text (trim readWord?)

/-- The contents of the registers and a program. -/
structure Snapshot where
  registers : Registers
  program : Program
  deriving DecidableEq

namespace Snapshot

/-! ## Lines -/

/-- What a line of a snapshot says. -/
inductive Line where
  | register (register : Register) (content : Word)
  | program (program : Program)
  deriving DecidableEq

namespace Line

/-- The words with which the line of a register begins. -/
def registerHead : List Char := "Register ".toList

/-- The word with which the line of a program begins. -/
def programHead : List Char := "Program:".toList

/-- The name and the value of a register line, which the first colon separates. Nothing if there
is no colon or the name is not that of a register. -/
def splitRegister? (cs : List Char) : Option (Register × List Char) :=
  match cs.dropWhile (· != ':') with
  | [] => none
  | _ :: value =>
    (Register.ofLetter? (String.ofList (trim (cs.takeWhile (· != ':'))))).map (·, trim value)

/-- What a trimmed line says. -/
def ofChars (line : List Char) : Except Error Line :=
  match registerHead.isPrefixOf? line with
  | some rest =>
    match splitRegister? rest with
    | none => .error (.unexpectedLine (String.ofList line))
    | some (r, value) =>
      match readWord? value with
      | none => .error (.invalidRegisterValue (String.ofList value))
      | some w => .ok (.register r w)
  | none =>
    match programHead.isPrefixOf? line with
    | some rest => (Program.ofChars rest).map .program
    | none => .error (.unexpectedLine (String.ofList line))

/-- The content that the line gives to a register. -/
def content? (r : Register) : Line → Option Word
  | register r' w => if r' = r then some w else none
  | program _ => none

/-- The program that the line gives. -/
def program? : Line → Option Program
  | register _ _ => none
  | program p => some p

end Line

/-- The lines of a text that hold something, trimmed. -/
def lines (text : List Char) : List (List Char) :=
  ((text.splitOn '\n').map trim).filter (!·.isEmpty)

/-! ## Snapshots -/

/-- The content that the last line of a register gives to it. -/
def contentOf (ls : List Line) (r : Register) : Except Error Word :=
  match ls.reverse.findSome? (·.content? r) with
  | some w => .ok w
  | none => .error (.noRegisterLine r)

/-- The program that the last program line gives. -/
def programOf (ls : List Line) : Except Error Program :=
  match ls.reverse.findSome? (·.program?) with
  | some p => .ok p
  | none => .error .noProgram

/-- The snapshot that some lines make up. -/
def ofLines (ls : List Line) : Except Error Snapshot := do
  let a ← contentOf ls .a
  let b ← contentOf ls .b
  let c ← contentOf ls .c
  let program ← programOf ls
  return ⟨⟨a, b, c⟩, program⟩

/-- The snapshot whose text is `cs`. -/
def ofChars (cs : List Char) : Except Error Snapshot := do
  ofLines (← (lines cs).mapM Line.ofChars)

/-- The snapshot that a text denotes. -/
def ofText (text : String) : Except Error Snapshot := ofChars text.toList

end Snapshot

end OctalTape

import OctalTape.Register
import OctalTape.Text.Numeral

set_option relaxedAutoImplicit false
set_option autoImplicit false

/-!
# Errors

Every way in which a text, a program, a run or a search can be refused, with the words that
report it.

## Main definitions

* `OctalTape.Error` — the causes.
* `OctalTape.Error.message` — the sentence that reports a cause.
* `OctalTape.Error.isMachineFault` — the causes that end a run of the machine.
-/

namespace OctalTape

open Text (decimal)

/-- A cause of failure. -/
inductive Error where
  /-- No line of a snapshot gives the content of this register. -/
  | noRegisterLine (register : Register)
  /-- No line of a snapshot gives the program. -/
  | noProgram
  /-- A line of a snapshot is neither a register line nor a program line. -/
  | unexpectedLine (line : String)
  /-- The value of a register line is not a word. -/
  | invalidRegisterValue (text : String)
  /-- A field of a program text is not a byte. -/
  | invalidCode (text : String)
  /-- The last opcode of a tape of this length has no operand. -/
  | oddProgramLength (length : Nat)
  /-- The code at this index of a tape needs more than three bits. -/
  | codeOutOfRange (index : Nat) (code : UInt8)
  /-- The instruction at this position resolves the reserved operand. -/
  | reservedOperand (pointer : Nat)
  /-- A jump that is taken leads to an odd position. -/
  | misalignedJump (target : Nat)
  /-- A run has not left the tape after this many steps. -/
  | stepLimitExceeded (limit : Nat)
  /-- A seed with this many octal digits makes another number of outputs. -/
  | irregularOutputGrowth (digits outputs : Nat)
  deriving DecidableEq, Repr

namespace Error

/-- The sentence that reports the cause. -/
def message : Error → String
  | noRegisterLine r => "Can't find line for register " ++ r.letter ++ " in debug information."
  | noProgram => "Can't find line for program in debug information."
  | unexpectedLine line => "Unexpected line(" ++ line ++ ") in debug information."
  | invalidRegisterValue text => "Invalid text(" ++ text ++ ") for register value."
  | invalidCode text => "Invalid text(" ++ text ++ ") for code."
  | oddProgramLength n =>
    "Program has odd length(" ++ decimal n ++ "), every opcode needs an operand."
  | codeOutOfRange i code =>
    "Code(" ++ decimal code.toNat ++ ") at " ++ decimal i ++ " is not a 3-bit number."
  | reservedOperand p =>
    "Reserved combo operand 7 is used by instruction at " ++ decimal p ++ "."
  | misalignedJump t => "Jump to odd position(" ++ decimal t ++ ") of the program."
  | stepLimitExceeded n => "Program doesn't halt within " ++ decimal n ++ " steps."
  | irregularOutputGrowth digits outputs =>
    "Register A with " ++ decimal digits ++ " octal digits makes " ++ decimal outputs ++
      " outputs, expect one output per digit."

/-- The faults that end a run of the machine. The others refuse a text, a program or a search
before anything has run. -/
def isMachineFault : Error → Bool
  | reservedOperand _ | misalignedJump _ | stepLimitExceeded _ => true
  | _ => false

end Error

end OctalTape

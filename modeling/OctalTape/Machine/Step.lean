import OctalTape.Program

set_option relaxedAutoImplicit false
set_option autoImplicit false

/-!
# One step of the machine

The machine stands at a position of the tape with three words in its registers. It executes the
instruction there and moves on behind it, or jumps; off the tape it halts.

## Main definitions

* `OctalTape.Config` — the registers and the position: all that decides how a run goes on.
* `OctalTape.Config.execute` — what one instruction makes of a configuration.
* `OctalTape.Program.step` — what a program does next in a configuration.

## Implementation notes

Emitted values never come back into the machine, so a step hands them out and a configuration
does not hold them. A fault changes nothing: it has no configuration after it.
-/

namespace OctalTape

/-- The contents of the registers and the position on the tape. -/
structure Config where
  registers : Registers
  pointer : Nat
  deriving DecidableEq, Repr

/-- What an instruction leads to: the next configuration, and the value emitted on the way. -/
structure Transition where
  config : Config
  emitted : Option UInt8
  deriving DecidableEq, Repr

namespace Config

/-- A run begins at the start of the tape. -/
def start (registers : Registers) : Config := ⟨registers, 0⟩

/-! ## Ways to go on -/

/-- Go on behind the instruction. -/
def pass (c : Config) : Transition :=
  ⟨{ c with pointer := c.pointer + 2 }, none⟩

/-- Put a word into a register and go on behind the instruction. -/
def assign (c : Config) (r : Register) (w : Word) : Transition :=
  ⟨⟨c.registers.set r w, c.pointer + 2⟩, none⟩

/-- Emit a value and go on behind the instruction. -/
def emit (c : Config) (value : UInt8) : Transition :=
  ⟨{ c with pointer := c.pointer + 2 }, some value⟩

/-- Go on at another position, which has to be even. -/
def jump (c : Config) (target : Nat) : Except Error Transition :=
  if target % 2 = 0 then .ok ⟨{ c with pointer := target }, none⟩
  else .error (.misalignedJump target)

/-! ## Executing an instruction -/

/-- The word that an operand denotes where it is resolved. -/
def resolve (c : Config) (operand : UInt8) : Except Error Word :=
  match (Operand.ofCode operand).value? c.registers with
  | some w => .ok w
  | none => .error (.reservedOperand c.pointer)

/-- The quotient of register A by the power of two whose exponent the operand denotes. -/
def quotient (c : Config) (operand : UInt8) : Except Error Word :=
  (c.resolve operand).map c.registers.a.divPow2

/-- What an instruction makes of a configuration. -/
def execute (c : Config) (i : Instruction) : Except Error Transition :=
  match i.opcode with
  | .adv => (c.quotient i.operand).map (c.assign .a)
  | .bxl => .ok (c.assign .b (c.registers.b ^^^ i.operand.toUInt64))
  | .bst => (c.resolve i.operand).map fun w => c.assign .b w.lowDigit
  | .jnz => if c.registers.a = 0 then .ok c.pass else c.jump i.operand.toNat
  | .bxc => .ok (c.assign .b (c.registers.b ^^^ c.registers.c))
  | .out => (c.resolve i.operand).map fun w => c.emit w.lowDigit.toUInt8
  | .bdv => (c.quotient i.operand).map (c.assign .b)
  | .cdv => (c.quotient i.operand).map (c.assign .c)

end Config

/-! ## Stepping a program -/

/-- What a program does next. -/
inductive Step where
  /-- The position is off the tape. -/
  | halt
  /-- The instruction at the position cannot be executed. -/
  | fault (error : Error)
  /-- The instruction at the position has been executed. -/
  | next (transition : Transition)
  deriving DecidableEq, Repr

/-- What the program does next in a configuration. -/
def Program.step (p : Program) (c : Config) : Step :=
  match p.fetch c.pointer with
  | none => .halt
  | some i =>
    match c.execute i with
    | .error e => .fault e
    | .ok t => .next t

end OctalTape

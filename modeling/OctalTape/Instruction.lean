import OctalTape.Register

set_option relaxedAutoImplicit false
set_option autoImplicit false

/-!
# Instructions

An instruction is an opcode and the code that follows it, its operand. An opcode either takes
its operand as it is or *resolves* it: the codes `0` to `3` then stand for themselves, `4` to
`6` for the registers, and `7` is reserved.

## Main definitions

* `OctalTape.Opcode` — the eight opcodes, with their codes and names.
* `OctalTape.Operand` — what a code stands for where it is resolved.
* `OctalTape.Instruction` — an opcode with its operand.

## Main results

* `OctalTape.Opcode.ofCode?_eq_some_iff` — every opcode has one code, and is found by it.
* `OctalTape.Opcode.isSome_ofCode?` — the codes of opcodes are those of three bits.
-/

namespace OctalTape

/-! ## Opcodes -/

/-- The operations of the machine. -/
inductive Opcode where
  /-- Divide A by a power of two, into A. -/
  | adv
  /-- Exclusive or of B with the operand as it is. -/
  | bxl
  /-- Put the lowest octal digit of the operand into B. -/
  | bst
  /-- Jump to the operand as it is, unless A is zero. -/
  | jnz
  /-- Exclusive or of B with C; the operand is ignored. -/
  | bxc
  /-- Emit the lowest octal digit of the operand. -/
  | out
  /-- Divide A by a power of two, into B. -/
  | bdv
  /-- Divide A by a power of two, into C. -/
  | cdv
  deriving DecidableEq, Repr

namespace Opcode

/-- The code of an opcode. -/
def toCode : Opcode → UInt8
  | .adv => 0
  | .bxl => 1
  | .bst => 2
  | .jnz => 3
  | .bxc => 4
  | .out => 5
  | .bdv => 6
  | .cdv => 7

/-- The opcode of a code. -/
def ofCode? : UInt8 → Option Opcode
  | 0 => some .adv
  | 1 => some .bxl
  | 2 => some .bst
  | 3 => some .jnz
  | 4 => some .bxc
  | 5 => some .out
  | 6 => some .bdv
  | 7 => some .cdv
  | _ => none

/-- The name of an opcode in traces. -/
def name : Opcode → String
  | .adv => "Adv"
  | .bxl => "Bxl"
  | .bst => "Bst"
  | .jnz => "Jnz"
  | .bxc => "Bxc"
  | .out => "Out"
  | .bdv => "Bdv"
  | .cdv => "Cdv"

/-- Every opcode has one code, and is found by it. -/
theorem ofCode?_eq_some_iff {code : UInt8} {op : Opcode} :
    ofCode? code = some op ↔ op.toCode = code := by
  constructor
  · intro h
    unfold ofCode? at h
    split at h <;> simp_all <;> subst h <;> rfl
  · rintro rfl
    cases op <;> rfl

/-- The codes of opcodes are those of three bits. -/
theorem isSome_ofCode? {code : UInt8} : (ofCode? code).isSome ↔ code ≤ 7 := by
  constructor
  · intro h
    obtain ⟨op, hop⟩ := Option.isSome_iff_exists.mp h
    rw [← ofCode?_eq_some_iff.mp hop]
    cases op <;> decide
  · intro h
    have hn : code.toNat ≤ 7 := UInt8.le_iff_toNat_le.mp h
    have hc : code = UInt8.ofNat code.toNat := by simp
    rw [hc]
    generalize code.toNat = n at hn
    match n, hn with
    | 0, _ | 1, _ | 2, _ | 3, _ | 4, _ | 5, _ | 6, _ | 7, _ => rfl

end Opcode

/-! ## Operands -/

/-- What a code stands for where an instruction resolves it. -/
inductive Operand where
  /-- The code itself. -/
  | literal (value : Word)
  /-- The content of a register. -/
  | content (register : Register)
  /-- Nothing: the code is reserved. -/
  | reserved
  deriving DecidableEq, Repr

namespace Operand

/-- What a code stands for. -/
def ofCode (code : UInt8) : Operand :=
  if code < 4 then .literal code.toUInt64
  else if code = 4 then .content .a
  else if code = 5 then .content .b
  else if code = 6 then .content .c
  else .reserved

/-- The word that an operand denotes, over the contents of the registers. -/
def value? (rs : Registers) : Operand → Option Word
  | .literal w => some w
  | .content r => some (rs.get r)
  | .reserved => none

end Operand

/-! ## Instructions -/

/-- An opcode with the code of its operand. -/
structure Instruction where
  opcode : Opcode
  operand : UInt8
  deriving DecidableEq, Repr

end OctalTape

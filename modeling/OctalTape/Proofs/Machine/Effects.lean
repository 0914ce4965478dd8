import Mathlib.Tactic.Basic
import Mathlib.Tactic.SplitIfs
import Mathlib.Data.Nat.Notation
import OctalTape.Machine.Step
import OctalTape.Proofs.Results

set_option relaxedAutoImplicit false
set_option autoImplicit false

/-!
# The effects of instructions

What executing an instruction can lead to, as one statement for successes and one for faults.
Everything else about single steps is derived from these two.

## Main definitions

* `OctalTape.Opcode.resolves` — the opcodes that resolve their operand.
* `OctalTape.Config.Executes` — the successful executions, one rule for each opcode.

## Main results

* `OctalTape.Config.execute_eq_ok_iff` — the rules are exactly the successful executions.
* `OctalTape.Config.execute_eq_error_iff` — an instruction fails for a reserved operand that it
  resolves, or for an odd target to which it jumps.
* `OctalTape.Config.pointer_of_execute` — an instruction leads behind itself or jumps.
* `OctalTape.Config.execute_of_a_eq_zero` — no jump is taken once register A is zero.
* `OctalTape.Config.resolve_congr` — what an operand denotes depends on one register at most.
-/

namespace OctalTape

/-- Whether an opcode resolves its operand; the others take it as it is, or ignore it. -/
def Opcode.resolves : Opcode → Bool
  | .bxl | .jnz | .bxc => false
  | .adv | .bst | .out | .bdv | .cdv => true

namespace Config

variable {c : Config} {x : UInt8}

/-! ## Operands -/

/-- A code from `7` on is reserved, and no other. -/
lemma ofCode_eq_reserved_iff : Operand.ofCode x = .reserved ↔ 7 ≤ x.toNat := by
  have heq : ∀ n : UInt8, x = n ↔ x.toNat = n.toNat := fun n => UInt8.toNat_inj.symm
  unfold Operand.ofCode
  simp only [UInt8.lt_iff_toNat_lt, heq, UInt8.reduceToNat]
  split_ifs <;> simp <;> omega

/-- An operand cannot be resolved exactly if it is reserved. -/
lemma resolve_eq_error_iff {e : Error} :
    c.resolve x = .error e ↔ 7 ≤ x.toNat ∧ e = .reservedOperand c.pointer := by
  rw [← ofCode_eq_reserved_iff]
  unfold resolve
  cases Operand.ofCode x with
  | reserved => simp [Operand.value?, eq_comm]
  | literal w => simp [Operand.value?]
  | content r => simp [Operand.value?]

/-- What an operand denotes depends on one register at most, and on the position only for the
fault. -/
lemma resolve_congr {d : Config} (hp : c.pointer = d.pointer)
    (ha : c.registers.a = d.registers.a) (hb : x = 5 → c.registers.b = d.registers.b)
    (hc : x = 6 → c.registers.c = d.registers.c) : c.resolve x = d.resolve x := by
  have hvalue : (Operand.ofCode x).value? c.registers = (Operand.ofCode x).value? d.registers := by
    unfold Operand.ofCode
    split_ifs with _ _ h5 h6
    · rfl
    · simp [Operand.value?, Registers.get, ha]
    · simp [Operand.value?, Registers.get, hb h5]
    · simp [Operand.value?, Registers.get, hc h6]
    · rfl
  unfold resolve
  rw [hvalue, hp]

/-- An operand below `4` denotes itself. -/
lemma resolve_literal (hx : x < 4) : c.resolve x = .ok x.toUInt64 := by
  simp [resolve, Operand.ofCode, hx, Operand.value?]

/-! ## Instructions -/

/-- What is done with a quotient is done with the word that the operand denotes. -/
lemma map_quotient {α : Type} (c : Config) (x : UInt8) (f : Word → α) :
    (c.quotient x).map f = (c.resolve x).map fun w => f (c.registers.a.divPow2 w) := by
  unfold quotient
  cases c.resolve x <;> rfl

/-- The successful executions of an instruction, one rule for each opcode, two for the jump. -/
inductive Executes (c : Config) : Instruction → Transition → Prop where
  | adv {x : UInt8} {w : Word} (h : c.resolve x = .ok w) :
      Executes c ⟨.adv, x⟩ (c.assign .a (c.registers.a.divPow2 w))
  | bxl {x : UInt8} : Executes c ⟨.bxl, x⟩ (c.assign .b (c.registers.b ^^^ x.toUInt64))
  | bst {x : UInt8} {w : Word} (h : c.resolve x = .ok w) :
      Executes c ⟨.bst, x⟩ (c.assign .b w.lowDigit)
  | pass {x : UInt8} (ha : c.registers.a = 0) : Executes c ⟨.jnz, x⟩ c.pass
  | jump {x : UInt8} (ha : c.registers.a ≠ 0) (hx : x.toNat % 2 = 0) :
      Executes c ⟨.jnz, x⟩ ⟨{ c with pointer := x.toNat }, none⟩
  | bxc {x : UInt8} : Executes c ⟨.bxc, x⟩ (c.assign .b (c.registers.b ^^^ c.registers.c))
  | out {x : UInt8} {w : Word} (h : c.resolve x = .ok w) :
      Executes c ⟨.out, x⟩ (c.emit w.lowDigit.toUInt8)
  | bdv {x : UInt8} {w : Word} (h : c.resolve x = .ok w) :
      Executes c ⟨.bdv, x⟩ (c.assign .b (c.registers.a.divPow2 w))
  | cdv {x : UInt8} {w : Word} (h : c.resolve x = .ok w) :
      Executes c ⟨.cdv, x⟩ (c.assign .c (c.registers.a.divPow2 w))

/-- A result of a quotient comes from the word that the operand denotes. -/
lemma map_quotient_eq_ok_iff {f : Word → Transition} {t : Transition} :
    (c.quotient x).map f = .ok t ↔
      ∃ w, c.resolve x = .ok w ∧ f (c.registers.a.divPow2 w) = t := by
  rw [map_quotient, map_eq_ok_iff]

/-- What is done with an operand fails as the operand does. -/
lemma map_resolve_eq_error_iff {f : Word → Transition} {e : Error} :
    (c.resolve x).map f = .error e ↔ 7 ≤ x.toNat ∧ e = .reservedOperand c.pointer := by
  rw [map_eq_error_iff, resolve_eq_error_iff]

/-- What a rule says of an instruction is what the instruction does. -/
lemma Executes.execute_eq {i : Instruction} {t : Transition} (h : c.Executes i t) :
    c.execute i = .ok t := by
  cases h with
  | adv h => exact map_quotient_eq_ok_iff.mpr ⟨_, h, rfl⟩
  | bxl => rfl
  | bst h => exact map_eq_ok_iff.mpr ⟨_, h, rfl⟩
  | pass ha => simp [execute, ha]
  | jump ha hx => simp [execute, ha, Config.jump, hx]
  | bxc => rfl
  | out h => exact map_eq_ok_iff.mpr ⟨_, h, rfl⟩
  | bdv h => exact map_quotient_eq_ok_iff.mpr ⟨_, h, rfl⟩
  | cdv h => exact map_quotient_eq_ok_iff.mpr ⟨_, h, rfl⟩

/-- The rules are exactly the successful executions.

**Proof sketch.** An execution is taken apart by its opcode. An instruction that resolves its
operand leads somewhere only by the word that the operand denotes, and a jump only where register A
is zero or the target is even. -/
theorem execute_eq_ok_iff {i : Instruction} {t : Transition} :
    c.execute i = .ok t ↔ c.Executes i t := by
  refine ⟨fun h => ?_, Executes.execute_eq⟩
  obtain ⟨op, x⟩ := i
  cases op with
  | adv =>
    obtain ⟨w, hw, rfl⟩ := map_quotient_eq_ok_iff.mp h
    exact .adv hw
  | bxl => cases h; exact .bxl
  | bst =>
    obtain ⟨w, hw, rfl⟩ := map_eq_ok_iff.mp h
    exact .bst hw
  | jnz =>
    simp only [execute, Config.jump] at h
    split at h
    · next ha => cases h; exact .pass ha
    · next ha =>
      split at h
      · next hx => cases h; exact .jump ha hx
      · cases h
  | bxc => cases h; exact .bxc
  | out =>
    obtain ⟨w, hw, rfl⟩ := map_eq_ok_iff.mp h
    exact .out hw
  | bdv =>
    obtain ⟨w, hw, rfl⟩ := map_quotient_eq_ok_iff.mp h
    exact .bdv hw
  | cdv =>
    obtain ⟨w, hw, rfl⟩ := map_quotient_eq_ok_iff.mp h
    exact .cdv hw

/-- An instruction fails for a reserved operand that it resolves, or for an odd target to which
it jumps.

**Proof sketch.** By the opcode: those that resolve their operand fail as it does
(`map_resolve_eq_error_iff`), the jump fails behind its two tests, and the others never do. -/
theorem execute_eq_error_iff {i : Instruction} {e : Error} :
    c.execute i = .error e ↔
      (i.opcode.resolves ∧ 7 ≤ i.operand.toNat ∧ e = .reservedOperand c.pointer) ∨
      (i.opcode = .jnz ∧ c.registers.a ≠ 0 ∧ i.operand.toNat % 2 = 1 ∧
        e = .misalignedJump i.operand.toNat) := by
  obtain ⟨op, x⟩ := i
  cases op with
  | adv | bdv | cdv =>
    simp [execute, map_quotient, map_resolve_eq_error_iff, Opcode.resolves]
  | bst | out => simp [execute, map_resolve_eq_error_iff, Opcode.resolves]
  | bxl | bxc => simp [execute, Opcode.resolves]
  | jnz =>
    simp only [execute, Config.jump, Opcode.resolves]
    split
    · next ha => simp [ha]
    · next ha =>
      split
      · next hx => simp [ha, hx]
      · next hx => simp [ha, Nat.mod_two_ne_zero.mp hx, eq_comm]

/-- An instruction leads to the position behind it, or it is a jump that is taken to an even
position. -/
lemma pointer_of_execute {i : Instruction} {t : Transition} (h : c.execute i = .ok t) :
    t.config.pointer = c.pointer + 2 ∨
      i.opcode = .jnz ∧ c.registers.a ≠ 0 ∧ i.operand.toNat % 2 = 0 ∧
        t = ⟨{ c with pointer := i.operand.toNat }, none⟩ := by
  cases execute_eq_ok_iff.mp h with
  | jump ha hx => exact .inr ⟨rfl, ha, hx, rfl⟩
  | _ => exact .inl rfl

/-- If register A is zero, an instruction leaves it so and leads to the position behind it. -/
lemma execute_of_a_eq_zero {i : Instruction} {t : Transition} (ha : c.registers.a = 0)
    (h : c.execute i = .ok t) :
    t.config.registers.a = 0 ∧ t.config.pointer = c.pointer + 2 := by
  cases execute_eq_ok_iff.mp h with
  | adv =>
    refine ⟨UInt64.toNat_inj.mp ?_, rfl⟩
    show (c.registers.a.divPow2 _).toNat = 0
    rw [Word.toNat_divPow2, ha]
    exact Nat.zero_shiftRight _
  | jump hne => exact absurd ha hne
  | _ => exact ⟨ha, rfl⟩

end Config

end OctalTape

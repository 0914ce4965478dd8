import Mathlib.Algebra.Group.Nat.Defs
import OctalTape.Proofs.Machine.StraightLine

set_option relaxedAutoImplicit false
set_option autoImplicit false

/-!
# Control flow and data

The only thing that the way of a run depends on is whether register A is zero where a jump
stands. As long as register A is not zero, the same program takes the same way from any contents
of the registers: two runs are at the same position after each step, they have emitted equally
many values, and if one of them halts or faults, the other does so in the same place.

## Main definitions

* `OctalTape.Run.Abreast` — two runs that have come equally far.
* `OctalTape.Program.NonzeroFor` — register A is not zero where the next steps are made.

## Main results

* `OctalTape.Config.pointer_execute` — where an instruction leads.
* `OctalTape.Program.step_abreast` — a step from two runs that have come equally far.
* `OctalTape.Program.runFor_abreast` — the same for any number of steps.
* `OctalTape.Program.control_flow_independent` — the same for two runs from their starts.

## Implementation notes

`Program.runFor n` makes `n` steps unless the run halts or faults before. It stands for a run
without a limit that is watched for `n` steps: `Stop.exhausted` says that it is still on the tape.
-/

namespace OctalTape

/-! ## Instructions -/

namespace Config

variable {c d : Config} {i : Instruction}

/-- An instruction leads behind itself, unless it is a jump and register A is not zero. -/
lemma pointer_execute {t : Transition} (h : c.execute i = .ok t) :
    t.config.pointer =
      if i.opcode = .jnz ∧ c.registers.a ≠ 0 then i.operand.toNat else c.pointer + 2 := by
  cases execute_eq_ok_iff.mp h with
  | pass ha => simp [pass, ha]
  | jump ha hx => simp [ha]
  | _ => simp [assign, emit]

/-- Whether and how an instruction fails does not depend on the registers, apart from whether
register A is zero at a jump. -/
lemma execute_eq_error_congr (hpointer : c.pointer = d.pointer)
    (hjump : i.opcode = .jnz → (c.registers.a = 0 ↔ d.registers.a = 0)) {e : Error} :
    c.execute i = .error e ↔ d.execute i = .error e := by
  rw [execute_eq_error_iff, execute_eq_error_iff, hpointer]
  by_cases hi : i.opcode = .jnz
  · simp [hi, hjump hi]
  · simp [hi]

/-- Where an instruction leads, and how many values it emits, does not depend on the registers
either, apart from whether register A is zero at a jump. -/
lemma execute_congr (hpointer : c.pointer = d.pointer)
    (hjump : i.opcode = .jnz → (c.registers.a = 0 ↔ d.registers.a = 0)) {t u : Transition}
    (ht : c.execute i = .ok t) (hu : d.execute i = .ok u) :
    t.config.pointer = u.config.pointer ∧
      t.emitted.toList.length = u.emitted.toList.length := by
  constructor
  · rw [pointer_execute ht, pointer_execute hu, hpointer]
    by_cases hi : i.opcode = .jnz
    · simp [hi, hjump hi]
    · simp [hi]
  · rw [length_emitted_of_execute ht, length_emitted_of_execute hu]

end Config

/-! ## Runs -/

/-- Two runs have come equally far: they are at the same position, after equally many steps and
equally many outputs. -/
structure Run.Abreast (r u : Run) : Prop where
  pointer : r.config.pointer = u.config.pointer
  steps : r.steps = u.steps
  outputs : r.output.size = u.output.size

/-- Two runs from their starts have come equally far. -/
lemma Run.abreast_start (rs rs' : Registers) : (start rs).Abreast (start rs') := ⟨rfl, rfl, rfl⟩

/-- Two runs have still come equally far after a step to the same position that emits equally
many values. -/
lemma Run.Abreast.advance {r u : Run} (h : r.Abreast u) {t t' : Transition}
    (hpointer : t.config.pointer = t'.config.pointer)
    (hemitted : t.emitted.toList.length = t'.emitted.toList.length) :
    (r.advance t).Abreast (u.advance t') := by
  refine ⟨?_, ?_, ?_⟩
  · rw [config_advance, config_advance, hpointer]
  · rw [steps_advance, steps_advance, h.steps]
  · rw [size_output_advance, size_output_advance, h.outputs, hemitted]

namespace Program

variable {p : Program}

/-- Each of the next `n` steps that the run makes is made while register A is not zero. -/
def NonzeroFor (p : Program) (n : ℕ) (r : Run) : Prop :=
  ∀ k < n, ∀ s t, p.after k r = some s → p.step s.config = .next t → s.config.registers.a ≠ 0

/-- It is enough that register A is not zero in the states that the run comes to. -/
lemma nonzeroFor_of_forall_after {n : ℕ} {r : Run}
    (h : ∀ k < n, ∀ s ∈ p.after k r, s.config.registers.a ≠ 0) : p.NonzeroFor n r :=
  fun k hk s _ hs _ => h k hk s hs

/-- The first of the steps is made while register A is not zero. -/
lemma NonzeroFor.head {n : ℕ} {r : Run} {t : Transition} (h : p.NonzeroFor (n + 1) r)
    (ht : p.step r.config = .next t) : r.config.registers.a ≠ 0 :=
  h 0 (by omega) r t rfl ht

/-- The other steps are made behind the first. -/
lemma NonzeroFor.tail {n : ℕ} {r : Run} {t : Transition} (h : p.NonzeroFor (n + 1) r)
    (ht : p.step r.config = .next t) : p.NonzeroFor n (r.advance t) := by
  intro k hk s t' hs ht'
  refine h (k + 1) (by omega) s t' ?_ ht'
  rw [after_succ_of_next ht, hs]

/-- If a run makes no step from a state where register A is zero, then register A is not zero
where a jump stands: the jump would be passed by. -/
lemma a_ne_zero_of_jnz {c : Config} {i : Instruction} (hi : p.fetch c.pointer = some i)
    (hjump : i.opcode = .jnz) (h : ∀ t, p.step c = .next t → c.registers.a ≠ 0) :
    c.registers.a ≠ 0 :=
  fun ha => h c.pass (step_of_jnz_of_a_eq_zero hi hjump ha) ha

/-- From two runs that have come equally far, none of which makes a step while register A is
zero, either both halt, or both meet the same fault, or both make a step and have come equally
far again.

**Proof sketch.** Both fetch the same instruction. Whether it fails, where it leads and whether it
emits depend only on the position and, for a jump, on whether register A is zero, which it is in
neither. -/
theorem step_abreast {r u : Run} (h : r.Abreast u)
    (hr : ∀ t, p.step r.config = .next t → r.config.registers.a ≠ 0)
    (hu : ∀ t, p.step u.config = .next t → u.config.registers.a ≠ 0) :
    p.step r.config = .halt ∧ p.step u.config = .halt ∨
      (∃ e, p.step r.config = .fault e ∧ p.step u.config = .fault e) ∨
      ∃ t t', p.step r.config = .next t ∧ p.step u.config = .next t' ∧
        (r.advance t).Abreast (u.advance t') := by
  cases hi : p.fetch r.config.pointer with
  | none => exact .inl ⟨step_eq_halt_iff.mpr hi, step_eq_halt_iff.mpr (h.pointer ▸ hi)⟩
  | some i =>
    have hi' : p.fetch u.config.pointer = some i := h.pointer ▸ hi
    have hjump : i.opcode = .jnz → (r.config.registers.a = 0 ↔ u.config.registers.a = 0) := by
      intro hj
      exact iff_of_false (a_ne_zero_of_jnz hi hj hr) (a_ne_zero_of_jnz hi' hj hu)
    cases ht : r.config.execute i with
    | error e =>
      have hu' := (Config.execute_eq_error_congr h.pointer hjump).mp ht
      exact .inr (.inl ⟨e, step_eq_fault_iff.mpr ⟨i, hi, ht⟩, step_eq_fault_iff.mpr ⟨i, hi', hu'⟩⟩)
    | ok t =>
      cases ht' : u.config.execute i with
      | error e =>
        rw [← Config.execute_eq_error_congr h.pointer hjump, ht] at ht'
        cases ht'
      | ok t' =>
        obtain ⟨hpointer, hemitted⟩ := Config.execute_congr h.pointer hjump ht ht'
        exact .inr (.inr ⟨t, t', step_eq_next_iff.mpr ⟨i, hi, ht⟩,
          step_eq_next_iff.mpr ⟨i, hi', ht'⟩, h.advance hpointer hemitted⟩)

/-- Two runs that have come equally far stop for the same reason, or are both still on the tape,
and have come equally far again after any number of steps that are made while register A is not
zero in either.

**Proof sketch.** Induction on the number of steps, with `step_abreast` for the first of them. -/
theorem runFor_abreast {n : ℕ} {r u : Run} (h : r.Abreast u) (hr : p.NonzeroFor n r)
    (hu : p.NonzeroFor n u) :
    (p.runFor n r).1 = (p.runFor n u).1 ∧ (p.runFor n r).2.Abreast (p.runFor n u).2 := by
  induction n generalizing r u with
  | zero =>
    unfold runFor
    rw [h.pointer]
    cases p.fetch u.config.pointer with
    | none => exact ⟨rfl, h⟩
    | some i => exact ⟨rfl, h⟩
  | succ n ih =>
    unfold runFor
    rcases step_abreast h (fun t => hr.head) (fun t => hu.head) with
      ⟨hhalt, hhalt'⟩ | ⟨e, hfault, hfault'⟩ | ⟨t, t', hnext, hnext', habreast⟩
    · rw [hhalt, hhalt']
      exact ⟨rfl, h⟩
    · rw [hfault, hfault']
      exact ⟨rfl, h⟩
    · rw [hnext, hnext']
      exact ih habreast (hr.tail hnext) (hu.tail hnext')

/-- **Control flow does not depend on data as long as register A is not zero.** Take two runs of
a program from any contents of the registers, and a number of steps such that none of the steps
made so far has been made while register A was zero in either run. Then both are still on the
tape, or both have halted, or both have met the same fault; they have made equally many steps,
are at the same position, and have emitted equally many values. -/
theorem control_flow_independent (p : Program) (rs rs' : Registers) (n : ℕ)
    (h : p.NonzeroFor n (.start rs)) (h' : p.NonzeroFor n (.start rs')) :
    let r := p.runFor n (.start rs)
    let r' := p.runFor n (.start rs')
    r.1 = r'.1 ∧ r.2.steps = r'.2.steps ∧ r.2.config.pointer = r'.2.config.pointer ∧
      r.2.output.size = r'.2.output.size := by
  intro r r'
  obtain ⟨hstop, habreast⟩ := runFor_abreast (Run.abreast_start rs rs') h h'
  exact ⟨hstop, habreast.steps, habreast.pointer, habreast.outputs⟩

/-- A program that emits register B, jumps over an instruction, shifts register A by what is in
register C, and then resolves the reserved operand. -/
def shiftingTape : Program := ⟨#[5, 5, 3, 6, 5, 7, 0, 6, 1, 7, 5, 7], rfl, by simp⟩

/-- From two contents of the registers that have nothing in common, the shifting tape makes four
steps and one output, and meets the same fault. -/
theorem control_flow_shiftingTape :
    let r := Run.start ⟨1, 2, 0⟩
    let u := Run.start ⟨64, 9, 3⟩
    shiftingTape.NonzeroFor 6 r ∧ shiftingTape.NonzeroFor 6 u ∧
      (shiftingTape.runFor 6 r).1 = .faulted (.reservedOperand 10) ∧
      (shiftingTape.runFor 6 u).1 = .faulted (.reservedOperand 10) ∧
      (shiftingTape.runFor 6 u).2.steps = 4 ∧ (shiftingTape.runFor 6 u).2.output.size = 1 := by
  intro r u
  have hr : shiftingTape.NonzeroFor 6 r := nonzeroFor_of_forall_after (by decide)
  have hu : shiftingTape.NonzeroFor 6 u := nonzeroFor_of_forall_after (by decide)
  have hfault : shiftingTape.runFor 6 r =
      (.faulted (.reservedOperand 10), ⟨⟨⟨1, 5, 0⟩, 10⟩, #[2], 4⟩) := by decide
  obtain ⟨hstop, hsteps, -, houtputs⟩ :=
    control_flow_independent shiftingTape ⟨1, 2, 0⟩ ⟨64, 9, 3⟩ 6 hr hu
  refine ⟨hr, hu, ?_, ?_, ?_, ?_⟩
  · rw [hfault]
  · rw [← hstop, hfault]
  · rw [← hsteps, hfault]
  · rw [← houtputs, hfault]
    rfl

end Program

end OctalTape

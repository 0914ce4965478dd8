import OctalTape.Proofs.Machine.Invariant

set_option relaxedAutoImplicit false
set_option autoImplicit false

/-!
# A machine whose numbers have 64 bits

Positions and counts of steps are numbers without a bound here, but in a memory they have 64 bits.
The *checked* machine makes each of its sums only if the exact result fits, reads and writes a
register by its index only if there is one with this index, and emits a value only if it is an octal
digit; otherwise it comes to nothing. It is the machine itself, as long as the tape is not longer
than a list in memory can be and the limits on its steps fit, too.

## Main definitions

* `OctalTape.Checked.fit` — an exact result, unless it does not fit.
* `OctalTape.Checked.execute`, `OctalTape.Checked.runFor` — instructions and runs in checked
  arithmetic.
* `OctalTape.Checked.performMachine` — what a machine is asked, in checked arithmetic.
* `OctalTape.Machine.Fits`, `OctalTape.Machine.Request.Fits` — the numbers of a machine and of a
  request fit.

## Main results

* `OctalTape.Checked.execute_eq`, `OctalTape.Checked.runFor_eq` — where the numbers fit, no check
  fails.
* `OctalTape.Machine.Fits.performAll` — the numbers of a machine fit in every state that it comes
  to.
* `OctalTape.Checked.performMachine_eq` — so none of its checks ever fails.

## Implementation notes

There is one check for each number that a machine computes: the position of the operand that is
fetched, the position behind an instruction that is not a jump that is taken, and the count of
steps. They fit for different reasons. An operand is fetched only behind an opcode on the tape, an
instruction is executed only if its operand is on the tape, and a step is counted only below the
limit. The number of steps that are left is none of them: the machine compares its count with the
limit instead.
-/

namespace OctalTape

/-- The greatest length of a list in memory. -/
def maxLength : ℕ := 2 ^ 63 - 1

/-- What is no longer than a list can be is less than what does not fit into 64 bits. -/
lemma lt_size_of_le_maxLength {n : ℕ} (h : n ≤ maxLength) : n < UInt64.size := by
  simp only [maxLength, UInt64.size] at *
  omega

namespace Checked

/-! ## Checked numbers -/

/-- An exact result, unless it does not fit into 64 bits. -/
def fit (n : ℕ) : Option ℕ := if n < UInt64.size then some n else none

/-- A word as a byte, unless it is no octal digit. -/
def digit (w : Word) : Option UInt8 := if w.toNat < 8 then some w.toUInt8 else none

/-- The content of the register whose code is the index, unless there is none. -/
def content (rs : Registers) (r : Register) : Option Word := rs.toList[r.toCode.toNat]?

/-- The contents after the register whose code is the index has been given a word, unless there is
none. -/
def store (rs : Registers) (r : Register) (w : Word) : Option Registers :=
  if r.toCode.toNat < rs.toList.length then some (rs.set r w) else none

/-- A number that fits is not changed. -/
lemma fit_of_lt {n : ℕ} (h : n < UInt64.size) : fit n = some n := if_pos h

/-- The lowest octal digit of a word is one. -/
lemma digit_lowDigit (w : Word) : digit w.lowDigit = some w.lowDigit.toUInt8 := by
  refine if_pos ?_
  rw [Word.toNat_lowDigit]
  exact Nat.mod_lt _ (by decide)

/-- Each register has its index. -/
lemma content_eq (rs : Registers) (r : Register) : content rs r = some (rs.get r) := by
  cases r <;> rfl

/-- Each register can be written by its index. -/
lemma store_eq (rs : Registers) (r : Register) (w : Word) : store rs r w = some (rs.set r w) := by
  cases r <;> rfl

/-! ## The checked machine -/

/-- The instruction at a position. The position behind it is computed only for an opcode that is
there. -/
def fetch (p : Program) (pointer : ℕ) : Option (Option Instruction) :=
  match p.codes[pointer]? with
  | none => some none
  | some code => do
    let behind ← fit (pointer + 1)
    return do return ⟨← Opcode.ofCode? code, ← p.codes[behind]?⟩

/-- The word that an operand denotes where it is resolved. -/
def resolve (c : Config) (operand : UInt8) : ExceptT Error Option Word :=
  match Operand.ofCode operand with
  | .literal w => return w
  | .content r => content c.registers r
  | .reserved => throw (.reservedOperand c.pointer)

/-- The quotient of register A by the power of two whose exponent the operand denotes. -/
def quotient (c : Config) (operand : UInt8) : ExceptT Error Option Word := do
  let exponent ← resolve c operand
  return (← content c.registers .a).divPow2 exponent

/-- Go on behind the instruction, with these contents of the registers and this value emitted. -/
def goOn (c : Config) (registers : Registers) (emitted : Option UInt8) :
    ExceptT Error Option Transition := do
  let behind ← fit (c.pointer + 2)
  return ⟨⟨registers, behind⟩, emitted⟩

/-- Put a word into a register and go on behind the instruction. -/
def assign (c : Config) (r : Register) (w : Word) : ExceptT Error Option Transition := do
  goOn c (← store c.registers r w) none

/-- What an instruction makes of a configuration. -/
def execute (c : Config) (i : Instruction) : ExceptT Error Option Transition := do
  match i.opcode with
  | .adv => assign c .a (← quotient c i.operand)
  | .bxl => assign c .b ((← content c.registers .b) ^^^ i.operand.toUInt64)
  | .bst => assign c .b (← resolve c i.operand).lowDigit
  | .jnz =>
    if (← content c.registers .a) = 0 then goOn c c.registers none else c.jump i.operand.toNat
  | .bxc => assign c .b ((← content c.registers .b) ^^^ (← content c.registers .c))
  | .out => goOn c c.registers (some (← digit (← resolve c i.operand).lowDigit))
  | .bdv => assign c .b (← quotient c i.operand)
  | .cdv => assign c .c (← quotient c i.operand)

/-- The run after one more step, which is counted. -/
def advance (r : Run) (t : Transition) : Option Run := do
  let steps ← fit (r.steps + 1)
  return { r.advance t with steps }

/-- Continue a run for at most the given number of steps. -/
def runFor (p : Program) : ℕ → Run → Option (Stop × Run)
  | 0, r => do
    match ← fetch p r.config.pointer with
    | none => return (.halted, r)
    | some _ => return (.exhausted, r)
  | n + 1, r => do
    match ← fetch p r.config.pointer with
    | none => return (.halted, r)
    | some i =>
      match ← (execute r.config i).run with
      | .error e => return (.faulted e, r)
      | .ok t => do runFor p n (← advance r t)

/-- Continue a run until it stops, with a limit on all of its steps, those before included. -/
def run (p : Program) (limit : ℕ) (r : Run) : Option (Except Error Unit × Run) := do
  let (stop, r') ← runFor p (limit - r.steps) r
  return (stop.report limit, r')

/-- All that the program emits from a seed, if it halts within the limit. -/
def outputOf (p : Program) (limit : ℕ) (seed : Word) : Option (Except Error (List UInt8)) := do
  let (result, r) ← run p limit (.start (.ofSeed seed))
  return result.map fun _ => r.output.toList

/-- The reply to a request to a machine, and the machine after it. -/
def performMachine (m : Machine) : Machine.Request → Option (Machine.Reply × Machine)
  | .run => do
    let (result, state) ← run m.program m.stepLimit m.state
    return (.stopped result, { m with state })
  | .setStepLimit limit => return (.done, m.setStepLimit limit)
  | .read r => return (.content (← content m.state.config.registers r), m)

/-! ## No check fails -/

variable {p : Program}

/-- Where the tape fits, the position behind an opcode does. -/
lemma fetch_eq (hp : p.size < UInt64.size) (pointer : ℕ) :
    fetch p pointer = some (p.fetch pointer) := by
  unfold fetch Program.fetch
  cases hcode : p.codes[pointer]? with
  | none => rfl
  | some code =>
    have hlt : pointer < p.size := (Array.getElem?_eq_some_iff.mp hcode).1
    simp only [fit_of_lt (show pointer + 1 < UInt64.size by omega)]
    rfl

/-- No check fails where an operand is resolved. -/
lemma resolve_eq (c : Config) (operand : UInt8) :
    resolve c operand = ExceptT.mk (some (c.resolve operand)) := by
  unfold resolve Config.resolve
  cases Operand.ofCode operand with
  | literal w => rfl
  | content r => simp only [content_eq]; rfl
  | reserved => rfl

/-- No check fails in a division. -/
lemma quotient_eq (c : Config) (operand : UInt8) :
    quotient c operand = ExceptT.mk (some (c.quotient operand)) := by
  unfold quotient Config.quotient
  rw [resolve_eq, content_eq]
  cases c.resolve operand <;> rfl

section Execute

variable {c : Config} (h : c.pointer + 2 < UInt64.size)
include h

/-- Behind the instruction the run goes on as it would without a bound. -/
lemma goOn_eq (rs : Registers) (emitted : Option UInt8) :
    goOn c rs emitted = pure ⟨⟨rs, c.pointer + 2⟩, emitted⟩ := by
  unfold goOn
  rw [fit_of_lt h]
  rfl

/-- No check fails where a word is put into a register. -/
lemma assign_eq (r : Register) (w : Word) : assign c r w = pure (c.assign r w) := by
  unfold assign
  rw [store_eq]
  exact goOn_eq h (c.registers.set r w) none

/-- Where the position behind an instruction fits, it is executed as it is.

**Proof sketch.** By the opcode. Each part of an instruction is executed as it is: an operand, a
quotient, the step to the position behind (`goOn_eq`), and the digit that is emitted
(`digit_lowDigit`). -/
theorem execute_eq (i : Instruction) : execute c i = ExceptT.mk (some (c.execute i)) := by
  obtain ⟨op, x⟩ := i
  cases op with
  | adv | bdv | cdv =>
    simp only [execute, Config.execute, quotient_eq, assign_eq h]
    cases c.quotient x <;> rfl
  | bxl | bxc =>
    simp only [execute, Config.execute, content_eq, assign_eq h]
    rfl
  | bst =>
    simp only [execute, Config.execute, resolve_eq, assign_eq h]
    cases c.resolve x <;> rfl
  | jnz =>
    simp only [execute, Config.execute, content_eq, goOn_eq h]
    show (if c.registers.a = 0 then _ else _ : ExceptT Error Option Transition) = _
    split <;> rfl
  | out =>
    simp only [execute, Config.execute, resolve_eq, goOn_eq h]
    cases c.resolve x with
    | error e => rfl
    | ok w =>
      show (do let value ← digit w.lowDigit; _ : ExceptT Error Option Transition) = _
      rw [digit_lowDigit]
      rfl

end Execute

/-- Where the count of steps fits, a step is counted as it is. -/
lemma advance_eq {r : Run} (h : r.steps + 1 < UInt64.size) (t : Transition) :
    advance r t = some (r.advance t) := by
  unfold advance
  rw [fit_of_lt h, ← Run.steps_advance r t]
  rfl

/-- **No check of a run fails**, as long as the tape fits, and so does the count of steps that the
run may come to.

**Proof sketch.** Induction on the steps that are left. What is fetched lies on the tape with its
operand, so the position behind it fits as the length of the tape does. -/
theorem runFor_eq (hp : p.size < UInt64.size) {n : ℕ} {r : Run} (h : r.steps + n < UInt64.size) :
    runFor p n r = some (p.runFor n r) := by
  induction n generalizing r with
  | zero =>
    unfold runFor Program.runFor
    rw [fetch_eq hp]
    cases p.fetch r.config.pointer <;> rfl
  | succ n ih =>
    unfold runFor Program.runFor Program.step
    rw [fetch_eq hp]
    cases hi : p.fetch r.config.pointer with
    | none => rfl
    | some i =>
      have hsize := Program.add_two_le_size_of_fetch hi
      have hexec := execute_eq (c := r.config) (by omega) i
      cases ht : r.config.execute i with
      | error e =>
        rw [ht] at hexec
        simp [hexec, ht]
      | ok t =>
        have hrest := ih (r := r.advance t) (by rw [Run.steps_advance]; omega)
        have hcount := advance_eq (r := r) (by omega) t
        rw [ht] at hexec
        simp [hexec, ht, hcount, hrest]

/-- A run under a limit that fits needs no more than its count of steps to fit at first: it counts
no step beyond the limit. -/
theorem run_eq (hp : p.size < UInt64.size) {limit : ℕ} {r : Run} (hlimit : limit < UInt64.size)
    (hr : r.steps < UInt64.size) : run p limit r = some (p.run limit r) := by
  unfold run Program.run
  rw [runFor_eq hp (by omega)]
  rfl

/-- The output of a seed under a limit that fits. -/
lemma outputOf_eq (hp : p.size < UInt64.size) {limit : ℕ} (hlimit : limit < UInt64.size)
    (seed : Word) : outputOf p limit seed = some (p.outputOf limit seed) := by
  unfold outputOf Program.outputOf
  rw [run_eq hp hlimit (show 0 < UInt64.size by decide)]
  rfl

end Checked

/-! ## Machines whose numbers fit -/

/-- The numbers that a user hands over with a request fit into 64 bits. -/
def Machine.Request.Fits : Machine.Request → Prop
  | .setStepLimit limit => limit < UInt64.size
  | _ => True

/-- The numbers of a machine fit: its tape is a list in memory, and its limit and its count of steps
have 64 bits. -/
structure Machine.Fits (m : Machine) : Prop where
  size_le : m.program.size ≤ maxLength
  stepLimit_lt : m.stepLimit < UInt64.size
  steps_lt : m.state.steps < UInt64.size

namespace Machine.Fits

variable {m : Machine}

/-- The numbers of a machine that has just been started fit if its tape does. -/
lemma start {p : Program} (hp : p.size ≤ maxLength) (rs : Registers) :
    (Machine.start p rs).Fits :=
  ⟨hp, show defaultStepLimit < UInt64.size by decide, show 0 < UInt64.size by decide⟩

/-- A request keeps the numbers of a machine such that they fit.

**Proof sketch.** Only a run counts steps, and it counts none beyond the limit. -/
theorem perform (h : m.Fits) {request : Request} (hrequest : request.Fits) :
    (m.perform request).2.Fits := by
  cases request with
  | run =>
    refine ⟨h.size_le, h.stepLimit_lt, ?_⟩
    obtain ⟨k, s, stop, hk, hs, -, hrun⟩ :=
      Program.exists_stops_of_run m.program m.stepLimit m.state
    have hsteps := Program.steps_after hs
    have hlimit := h.stepLimit_lt
    have hbefore := h.steps_lt
    rw [perform_run, hrun]
    show s.steps < UInt64.size
    omega
  | setStepLimit limit => exact ⟨h.size_le, hrequest, h.steps_lt⟩
  | read r => exact h

/-- Any requests do. -/
theorem performAll (h : m.Fits) {requests : List Request}
    (hrequests : ∀ request ∈ requests, request.Fits) : (m.performAll requests).Fits := by
  induction requests generalizing m with
  | nil => exact h
  | cons request requests ih =>
    rw [List.forall_mem_cons] at hrequests
    rw [performAll_cons]
    exact ih (h.perform hrequests.1) hrequests.2

end Machine.Fits

namespace Checked

/-- **No check of a machine fails** whose numbers fit, whatever it is asked. -/
theorem performMachine_eq {m : Machine} (h : m.Fits) (request : Machine.Request) :
    performMachine m request = some (m.perform request) := by
  cases request with
  | run =>
    unfold performMachine
    rw [run_eq (lt_size_of_le_maxLength h.size_le) h.stepLimit_lt h.steps_lt]
    rfl
  | setStepLimit limit => rfl
  | read r => simp [performMachine, Machine.perform, content_eq]

/-- The checks do fail where a number does not fit: this step would be counted beyond 64 bits. -/
example :
    let p : Program := ⟨#[4, 1], rfl, by simp⟩
    let r : Run := { config := .start ⟨0, 0, 0⟩, steps := UInt64.size - 1 }
    runFor p 1 r = none ∧ (p.runFor 1 r).2.steps = UInt64.size := by
  decide

end Checked

end OctalTape

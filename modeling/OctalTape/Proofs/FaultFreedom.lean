import Mathlib.Tactic.ByContra
import OctalTape.Proofs.ErrorSources
import OctalTape.Proofs.Machine.Invariant

set_option relaxedAutoImplicit false
set_option autoImplicit false

/-!
# Who is to blame for a fault

A run that faults stays where it is, so the state that it leaves shows the instruction that cannot
be executed: it resolves the reserved operand, or it jumps to an odd position. The machine is on
even positions only, so this instruction is an opcode of the tape with its operand, and never an
operand that is mistaken for an opcode. A tape without such instructions never faults, and no
search over its runs does.

## Main definitions

* `OctalTape.Instruction.canFault` — the instructions that cannot always be executed.
* `OctalTape.Program.FaultFree` — a program without such instructions.

## Main results

* `OctalTape.Program.exists_fault_of_run` — the instruction to blame for a fault.
* `OctalTape.Program.run_failsOnly_of_faultFree` — a program without faults fails only for its
  limit.
* `OctalTape.faults_have_culprits` — the same for machines and searches, whatever they are asked.
-/

namespace OctalTape

/-- Whether an instruction cannot be executed, or not whatever is in the registers: it resolves the
reserved operand, or it is a jump to an odd position. -/
def Instruction.canFault (i : Instruction) : Bool :=
  i.opcode.resolves && i.operand = 7 || i.opcode = .jnz && i.operand.toNat % 2 = 1

/-- An instruction fails only if it can. -/
lemma Config.canFault_of_execute {c : Config} {i : Instruction} {e : Error}
    (hoperand : i.operand.toNat ≤ 7) (h : c.execute i = .error e) : i.canFault := by
  simp only [Instruction.canFault, Bool.or_eq_true, Bool.and_eq_true, decide_eq_true_eq]
  rcases execute_eq_error_iff.mp h with ⟨hres, hx, -⟩ | ⟨hjump, -, hodd, -⟩
  · exact .inl ⟨hres, UInt8.toNat_inj.mp (Nat.le_antisymm hoperand hx)⟩
  · exact .inr ⟨hjump, hodd⟩

/-! ## Runs -/

namespace Program

variable {p : Program}

/-- No opcode on the tape has an operand with which it cannot always be executed. -/
def FaultFree (p : Program) : Prop :=
  ∀ k < p.size / 2, ∀ i ∈ p.fetch (2 * k), i.canFault = false

instance (p : Program) : Decidable p.FaultFree :=
  inferInstanceAs (Decidable (∀ k < p.size / 2, ∀ i ∈ p.fetch (2 * k), i.canFault = false))

/-- An instruction that is fetched from an even position of a program without faults cannot
fault. -/
lemma FaultFree.canFault_eq_false (h : p.FaultFree) {pointer : ℕ} {i : Instruction}
    (heven : pointer % 2 = 0) (hi : p.fetch pointer = some i) : i.canFault = false := by
  have hsize := add_two_le_size_of_fetch hi
  obtain ⟨k, rfl⟩ : ∃ k, pointer = 2 * k := ⟨pointer / 2, by omega⟩
  exact h k (by omega) i hi

/-- A run that fails otherwise than for its limit has come to an instruction that cannot be
executed, and fails by its fault. -/
theorem exists_fault_of_run {limit : ℕ} {r : Run} {e : Error}
    (h : (p.run limit r).1 = .error e) (hne : e ≠ .stepLimitExceeded limit) :
    ∃ i, p.fetch (p.run limit r).2.config.pointer = some i ∧
      (p.run limit r).2.config.execute i = .error e := by
  obtain ⟨k, s, stop, -, -, hstop, hrun⟩ := exists_stops_of_run p limit r
  rw [hrun] at h ⊢
  cases hstop with
  | halted => cases h
  | faulted _ hfault =>
    cases h
    exact step_eq_fault_iff.mp hfault
  | exhausted =>
    cases h
    exact absurd rfl hne

/-- A run that fails for the reserved operand is left at an opcode that resolves it. -/
lemma reserved_of_run {limit pointer : ℕ} {r : Run} (hr : r.WellFormed p)
    (h : (p.run limit r).1 = .error (.reservedOperand pointer)) :
    (p.run limit r).2.config.pointer = pointer ∧ pointer % 2 = 0 ∧
      p.codes[pointer + 1]? = some 7 ∧
      ∃ op : Opcode, op.resolves ∧ p.codes[pointer]? = some op.toCode := by
  obtain ⟨⟨op, x⟩, hi, hexec⟩ := exists_fault_of_run h nofun
  rcases Config.execute_eq_error_iff.mp hexec with ⟨hres, hx, he⟩ | ⟨-, -, -, he⟩
  · obtain rfl := Error.reservedOperand.inj he
    obtain ⟨hop, hoperand⟩ := fetch_eq_some_iff.mp hi
    have hseven : x = 7 :=
      UInt8.toNat_inj.mp (Nat.le_antisymm (operand_le_of_fetch hi) hx)
    exact ⟨rfl, (hr.run limit).even_pointer, by rw [hoperand, hseven], op, hres, hop⟩
  · cases he

/-- A run that fails for a jump is left at it, with a register A that is not zero. -/
lemma misaligned_of_run {limit target : ℕ} {r : Run}
    (h : (p.run limit r).1 = .error (.misalignedJump target)) :
    p.codes[(p.run limit r).2.config.pointer]? = some Opcode.jnz.toCode ∧
      (∃ x : UInt8, x.toNat = target ∧
        p.codes[(p.run limit r).2.config.pointer + 1]? = some x) ∧
      target % 2 = 1 ∧ (p.run limit r).2.config.registers.a ≠ 0 := by
  obtain ⟨⟨op, x⟩, hi, hexec⟩ := exists_fault_of_run h nofun
  rcases Config.execute_eq_error_iff.mp hexec with ⟨-, -, he⟩ | ⟨hjump, ha, hodd, he⟩
  · cases he
  · obtain rfl := Error.misalignedJump.inj he
    obtain rfl : op = .jnz := hjump
    obtain ⟨hop, hoperand⟩ := fetch_eq_some_iff.mp hi
    exact ⟨hop, ⟨x, rfl, hoperand⟩, hodd, ha⟩

/-- A run of a program without faults fails only for its limit. -/
theorem run_failsOnly_of_faultFree (h : p.FaultFree) {r : Run} (hr : r.WellFormed p)
    (limit : ℕ) : FailsOnly (· = .stepLimitExceeded limit) (p.run limit r).1 := by
  intro e he
  by_contra hne
  obtain ⟨i, hi, hexec⟩ := exists_fault_of_run he hne
  have hcan := Config.canFault_of_execute (operand_le_of_fetch hi) hexec
  rw [h.canFault_eq_false (hr.run limit).even_pointer hi] at hcan
  cases hcan

/-- The output of a seed of a program without faults fails only for the limit. -/
lemma outputOf_failsOnly_of_faultFree (h : p.FaultFree) (limit : ℕ) (seed : Word) :
    FailsOnly (· = .stepLimitExceeded limit) (p.outputOf limit seed) := by
  rw [outputOf_eq_map]
  exact (run_failsOnly_of_faultFree h (.start p _) limit).map

end Program

/-! ## Machines and searches -/

/-- The state of a machine that has been started is well-formed, whatever it has been asked, and to
run it is to run the program from there. -/
lemma Machine.run_performAll_start (p : Program) (rs : Registers) (requests : List Request) :
    let m := (start p rs).performAll requests
    m.state.WellFormed p ∧ m.run.1 = (p.run m.stepLimit m.state).1 ∧
      m.run.2.state = (p.run m.stepLimit m.state).2 := by
  intro m
  have hprogram : m.program = p := program_performAll (start p rs) requests
  refine ⟨?_, by rw [← hprogram]; rfl, by rw [← hprogram]; rfl⟩
  show ((start p rs).performAll requests).state.WellFormed p
  rw [state_performAll_start]
  exact (Run.WellFormed.start p rs).run _

/-- The guard of a program without faults, and a search, fail by no machine fault but that of the
limit. -/
lemma SeedSearch.faults_of_faultFree {q : SeedSearch} (h : q.program.FaultFree) :
    FailsOnly (fun e => e.isMachineFault = true → e = .stepLimitExceeded q.stepLimit)
        q.guard.result ∧
      FailsOnly (fun e => e.isMachineFault = true → e = .stepLimitExceeded q.stepLimit)
        q.findSeed.result := by
  have hout : ∀ a, FailsOnly (· = .stepLimitExceeded q.stepLimit) (q.output a) :=
    Program.outputOf_failsOnly_of_faultFree h q.stepLimit
  have hgrowth : ∀ e, q.GrowsIrregularly e → e.isMachineFault = true →
      e = .stepLimitExceeded q.stepLimit := by
    rintro _ ⟨digits, outputs, rfl, -⟩ hfault
    cases hfault
  exact ⟨(guard_failsOnly_of hout).mono fun e he hfault => he.elim id (hgrowth e · hfault),
    (findSeed_failsOnly_of hout).mono fun e he hfault => he.elim id (hgrowth e ·.2 hfault)⟩

/-- **Faults have culprits.** Let a machine that has been started with any contents of its
registers perform any requests, and run it. If it fails for the reserved operand at a position,
then it is left at this position, which is even; there stands an opcode that resolves its operand,
and the operand is `7`. If it fails for a jump to a position, then it is left at a jump with this
operand, which is odd, and register A is not zero. So where no opcode of the tape has such an
operand, no machine, no seed, no guard and no search fails by a machine fault other than that of
the step limit.

**Proof sketch.** A history of requests leaves a well-formed state, from which a run is continued
(`Machine.run_performAll_start`). A fault there is that of one instruction at an even position,
with the operand it was given (`Program.reserved_of_run`, `Program.misaligned_of_run`). Where there
is no such operand there is no fault, and a guard and a search fail as their runs do. -/
theorem faults_have_culprits (p : Program) :
    (∀ rs requests,
      let m := (Machine.start p rs).performAll requests
      let c := m.run.2.state.config
      (∀ pointer, m.run.1 = .error (.reservedOperand pointer) →
        c.pointer = pointer ∧ pointer % 2 = 0 ∧ p.codes[pointer + 1]? = some 7 ∧
          ∃ op : Opcode, op.resolves ∧ p.codes[pointer]? = some op.toCode) ∧
      ∀ target, m.run.1 = .error (.misalignedJump target) →
        p.codes[c.pointer]? = some Opcode.jnz.toCode ∧
          (∃ x : UInt8, x.toNat = target ∧ p.codes[c.pointer + 1]? = some x) ∧
          target % 2 = 1 ∧ c.registers.a ≠ 0) ∧
    (p.FaultFree →
      (∀ rs requests,
        let m := (Machine.start p rs).performAll requests
        FailsOnly (· = .stepLimitExceeded m.stepLimit) m.run.1) ∧
      (∀ limit seed, FailsOnly (· = .stepLimitExceeded limit) (p.outputOf limit seed)) ∧
      ∀ target limit guarded,
        let q : SeedSearch := ⟨p, target, limit, guarded⟩
        FailsOnly (fun e => e.isMachineFault = true → e = .stepLimitExceeded limit)
          q.guard.result ∧
        FailsOnly (fun e => e.isMachineFault = true → e = .stepLimitExceeded limit)
          q.findSeed.result) := by
  refine ⟨?_, fun h => ⟨?_, Program.outputOf_failsOnly_of_faultFree h, ?_⟩⟩
  · intro rs requests m c
    obtain ⟨hwf, hresult, hstate⟩ := Machine.run_performAll_start p rs requests
    have hc : c = (p.run m.stepLimit m.state).2.config := congrArg Run.config hstate
    rw [hc]
    exact ⟨fun pointer he => Program.reserved_of_run hwf (hresult ▸ he),
      fun target he => Program.misaligned_of_run (hresult ▸ he)⟩
  · intro rs requests m
    obtain ⟨hwf, hresult, -⟩ := Machine.run_performAll_start p rs requests
    show FailsOnly _ m.run.1
    rw [hresult]
    exact Program.run_failsOnly_of_faultFree h hwf m.stepLimit
  · intro target limit guarded q
    exact SeedSearch.faults_of_faultFree (q := q) h

/-- A program with sevens only where they are not resolved, which emits register A for ever. -/
def sevensTape : Program := ⟨#[1, 7, 4, 7, 5, 4, 3, 0], rfl, by simp⟩

/-- A program that emits register A and then jumps to an odd position unless A is zero. -/
def oddJumpTape : Program := ⟨#[5, 4, 3, 5], rfl, by simp⟩

/-- The odd jump tape with six in register A, stopped in front of its jump. -/
def stoppedMachine : Machine :=
  (Machine.start oddJumpTape ⟨6, 1, 1⟩).performAll [.setStepLimit 1, .run, .setStepLimit 9]

/-- A guarded search over the sevens tape can fail by no machine fault but that of its limit. The
stopped machine fails when it is run again, and is left at the jump with register A not zero. -/
theorem culprits_of_sevens_and_oddJump :
    sevensTape.FaultFree ∧
      FailsOnly (fun e => e.isMachineFault = true → e = .stepLimitExceeded 40)
        (SeedSearch.findSeed ⟨sevensTape, [7, 1], 40, true⟩).result ∧
      stoppedMachine.run.1 = .error (.misalignedJump 5) ∧
      oddJumpTape.codes[stoppedMachine.run.2.state.config.pointer]? = some Opcode.jnz.toCode ∧
      stoppedMachine.run.2.state.config.registers.a ≠ 0 := by
  have hfree : sevensTape.FaultFree := by decide
  have hfault : stoppedMachine.run.1 = .error (.misalignedJump 5) := rfl
  obtain ⟨-, hsafe⟩ := faults_have_culprits sevensTape
  obtain ⟨hblame, -⟩ := faults_have_culprits oddJumpTape
  obtain ⟨-, hmisaligned⟩ :=
    hblame ⟨6, 1, 1⟩ [.setStepLimit 1, .run, .setStepLimit 9]
  obtain ⟨hjump, -, -, ha⟩ := hmisaligned 5 hfault
  exact ⟨hfree, ((hsafe hfree).2.2 [7, 1] 40 true).2, hfault, hjump, ha⟩

end OctalTape

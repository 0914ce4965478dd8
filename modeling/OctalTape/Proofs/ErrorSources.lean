import Mathlib.Tactic.SplitIfs
import OctalTape.Snapshot
import OctalTape.Proofs.Machine.Resumption
import OctalTape.Proofs.Results
import OctalTape.Proofs.Search.Guard

set_option relaxedAutoImplicit false
set_option autoImplicit false

/-!
# Where errors come from

An error tells by its cause what has failed: a program was refused, or a snapshot, or a run of the
machine came to an end off its course, or a program does not grow its outputs as a search demands.
Whatever is asked, and in whatever state, no error of one source is passed off as one of another.

## Main definitions

* `OctalTape.Error.Source`, `OctalTape.Error.source` — what has failed.
* `OctalTape.Error.EndsRunUnder` — the faults of runs under a limit.
* `OctalTape.SeedSearch.GrowsIrregularly` — the errors of the guard itself.

## Main results

* `OctalTape.Program.ofChars_failsOnly`, `OctalTape.Snapshot.ofChars_failsOnly` — the errors of
  texts.
* `OctalTape.Program.run_failsOnly` — the errors of runs.
* `OctalTape.search_failsOnly` — a descent has no errors of its own.
* `OctalTape.SeedSearch.findSeed_failsOnly_of` — a search fails as its runs do, or by its guard.
* `OctalTape.failsOnly_by_source` — the errors of everything that can fail.

## Implementation notes

A text is read by parts, and a search makes many runs, so errors come up through loops and
sequences. `OctalTape.FailsOnly` goes through these, and what is left is to look at each place
where an error is made.
-/

namespace OctalTape

/-! ## Sources -/

namespace Error

/-- What an error says has failed. -/
inductive Source where
  /-- A tape, or the text of one, is not that of a program. -/
  | program
  /-- A text is not that of a snapshot. -/
  | snapshot
  /-- A run of the machine has ended otherwise than by leaving the tape. -/
  | machine
  /-- A program does not make one output for each octal digit. -/
  | growth
  deriving DecidableEq, Repr

/-- What the error says has failed. -/
def source : Error → Source
  | invalidCode _ | oddProgramLength _ | codeOutOfRange _ _ => .program
  | noRegisterLine _ | noProgram | unexpectedLine _ | invalidRegisterValue _ => .snapshot
  | reservedOperand _ | misalignedJump _ | stepLimitExceeded _ => .machine
  | irregularOutputGrowth _ _ => .growth

/-- The machine faults are the errors whose source is the machine. -/
lemma isMachineFault_iff_source {e : Error} : e.isMachineFault = true ↔ e.source = .machine := by
  cases e <;> simp [isMachineFault, source]

/-- The error is a machine fault, and if it is that of a step limit then of the given one. -/
def EndsRunUnder (limit : ℕ) (e : Error) : Prop :=
  e.isMachineFault = true ∧ ∀ n, e = .stepLimitExceeded n → n = limit

end Error

open Error (EndsRunUnder)

/-! ## Programs -/

namespace Program

/-- A tape is refused as a program. -/
lemma ofCodes_failsOnly (codes : List UInt8) :
    FailsOnly (·.source = .program) (ofCodes codes) := by
  unfold ofCodes
  split
  · split
    · exact .error rfl
    · exact .ok _
  · exact .error rfl

/-- A field of a text is refused as part of a program. -/
lemma readField_failsOnly (field : List Char) :
    FailsOnly (·.source = .program) (readField field) := by
  unfold readField readCode
  split
  · exact .ok _
  · exact .error rfl

/-- A text is refused as a program, for one of its fields or for the tape that they make up. -/
theorem ofChars_failsOnly (cs : List Char) :
    FailsOnly (·.source = .program) (ofChars cs) := by
  unfold ofChars
  split
  · exact ofCodes_failsOnly []
  · exact (FailsOnly.mapM readField_failsOnly _).bind ofCodes_failsOnly

end Program

/-! ## Snapshots -/

namespace Snapshot

/-- The error refuses a snapshot, or a program in one. -/
def Refuses (e : Error) : Prop := e.source = .program ∨ e.source = .snapshot

/-- A line is refused as part of a snapshot, or for the program on it. -/
lemma Line.ofChars_failsOnly (line : List Char) : FailsOnly Refuses (Line.ofChars line) := by
  unfold Line.ofChars
  split
  · split
    · exact .error (.inr rfl)
    · split
      · exact .error (.inr rfl)
      · exact .ok _
  · split
    · exact ((Program.ofChars_failsOnly _).mono fun _ => .inl).map
    · exact .error (.inr rfl)

/-- Without a line for a register there is no snapshot. -/
lemma contentOf_failsOnly (ls : List Line) (r : Register) : FailsOnly Refuses (contentOf ls r) := by
  unfold contentOf
  split
  · exact .ok _
  · exact .error (.inr rfl)

/-- Without a line for the program there is no snapshot. -/
lemma programOf_failsOnly (ls : List Line) : FailsOnly Refuses (programOf ls) := by
  unfold programOf
  split
  · exact .ok _
  · exact .error (.inr rfl)

/-- A text is refused as a snapshot, for one of its lines or for one that it lacks. -/
theorem ofChars_failsOnly (cs : List Char) : FailsOnly Refuses (ofChars cs) := by
  have hlines : ∀ ls, FailsOnly Refuses (ofLines ls) := fun ls =>
    (contentOf_failsOnly ls .a).bind fun _ => (contentOf_failsOnly ls .b).bind fun _ =>
      (contentOf_failsOnly ls .c).bind fun _ => (programOf_failsOnly ls).bind fun _ => .ok _
  exact (FailsOnly.mapM Line.ofChars_failsOnly _).bind hlines

end Snapshot

/-! ## Runs -/

/-- An instruction that cannot be executed ends a run by a machine fault, whatever its limit. -/
lemma Error.EndsRunUnder.of_execute {c : Config} {i : Instruction} {e : Error}
    (h : c.execute i = .error e) (limit : ℕ) : EndsRunUnder limit e := by
  rcases Config.execute_eq_error_iff.mp h with ⟨-, -, rfl⟩ | ⟨-, -, -, rfl⟩
  · exact ⟨rfl, nofun⟩
  · exact ⟨rfl, nofun⟩

namespace Program

/-- A run fails only by a machine fault, from whatever state it goes on. -/
theorem run_failsOnly (p : Program) (limit : ℕ) (r : Run) :
    FailsOnly (EndsRunUnder limit) (p.run limit r).1 := by
  obtain ⟨k, s, stop, -, -, hstop, hrun⟩ := exists_stops_of_run p limit r
  rw [hrun]
  cases hstop with
  | halted => exact .ok ()
  | faulted _ hfault =>
    obtain ⟨i, -, he⟩ := step_eq_fault_iff.mp hfault
    exact .error (.of_execute he limit)
  | exhausted => exact .error ⟨rfl, fun n hn => (Error.stepLimitExceeded.inj hn).symm⟩

/-- The output of a seed fails only by the fault of its run. -/
lemma outputOf_failsOnly (p : Program) (limit : ℕ) (seed : Word) :
    FailsOnly (EndsRunUnder limit) (p.outputOf limit seed) := by
  rw [outputOf_eq_map]
  exact (p.run_failsOnly limit (.start (.ofSeed seed))).map

end Program

namespace Machine

/-- The limit in force behind some requests, if `limit` is in force before: that of the last
request to set one. -/
def Request.limitInForce (limit : ℕ) : List Request → ℕ
  | [] => limit
  | .setStepLimit limit' :: requests => limitInForce limit' requests
  | .run :: requests | .read _ :: requests => limitInForce limit requests

/-- Only the requests that set the limit change it. -/
lemma stepLimit_performAll (m : Machine) (requests : List Request) :
    (m.performAll requests).stepLimit = Request.limitInForce m.stepLimit requests := by
  induction requests generalizing m with
  | nil => rfl
  | cons request requests ih =>
    rw [performAll_cons, ih]
    cases request <;> rfl

end Machine

/-! ## Searches -/

/-- A descent has no errors of its own.

**Proof sketch.** Induction along the recursion of `search`: each visit fails as its run does, or
as the descent behind it. -/
theorem search_failsOnly {P : Error → Prop} {out : Word → Except Error (List UInt8)}
    (h : ∀ a, FailsOnly P (out a)) (target : List UInt8) (stem : Word) (depth matched : ℕ) :
    FailsOnly P (search out target stem depth matched).result := by
  induction stem, depth, matched using search.induct target with
  | case1 stem depth matched ih =>
    rw [search]
    apply Report.failsOnly_firstOf
    intro candidate
    refine Report.failsOnly_bind (h candidate) fun output _ => ?_
    split_ifs with hfound hlong hgo
    · exact .ok _
    · exact .ok _
    · apply Report.failsOnly_bind
      · exact .ok ()
      · intro _ _
        exact ih candidate output hgo
    · exact .ok _

namespace SeedSearch

/-- The error says that the least seed with some number of octal digits, no more than the target
is long and no more than a word has, makes another number of outputs; and it does. -/
def GrowsIrregularly (q : SeedSearch) (e : Error) : Prop :=
  ∃ digits outputs, e = .irregularOutputGrowth digits outputs ∧
    1 ≤ digits ∧ digits ≤ min q.target.length maxDigits ∧ outputs ≠ digits ∧
    ∃ output, q.output (leastWithDigits digits) = .ok output ∧ output.length = outputs

variable {P : Error → Prop} {q : SeedSearch}

/-- A probe fails as its run does, or for the number of its outputs. -/
lemma probe_failsOnly_of (hout : ∀ a, FailsOnly P (q.output a)) {digits : ℕ} (hpos : 1 ≤ digits)
    (hle : digits ≤ min q.target.length maxDigits) :
    FailsOnly (fun e => P e ∨ q.GrowsIrregularly e) (q.probe digits).result := by
  unfold probe
  -- the run behind the error has succeeded, so its outputs can be counted
  refine Report.failsOnly_bind ((hout _).mono fun _ => .inl) fun output hrun => ?_
  split
  · exact .ok ()
  · next hne =>
    exact .error (.inr ⟨digits, output.length, rfl, hpos, hle, hne, output, hrun, rfl⟩)

/-- The guard fails as a run of the program does, or for the number of its outputs. -/
lemma guard_failsOnly_of (hout : ∀ a, FailsOnly P (q.output a)) :
    FailsOnly (fun e => P e ∨ q.GrowsIrregularly e) q.guard.result := by
  apply Report.failsOnly_forM
  intro digits hdigits
  rw [List.mem_range'_1] at hdigits
  exact probe_failsOnly_of hout hdigits.1 (by omega)

/-- The guard fails by the fault of a probe, or for the number of its outputs. -/
lemma guard_failsOnly (q : SeedSearch) :
    FailsOnly (fun e => EndsRunUnder q.stepLimit e ∨ q.GrowsIrregularly e) q.guard.result :=
  guard_failsOnly_of (q.program.outputOf_failsOnly q.stepLimit)

/-- The program without instructions makes no output from its first probe. -/
example : (guard { program := .empty, target := [0] }).result =
    .error (.irregularOutputGrowth 1 0) := rfl

/-- The search behind the guard fails as a run of the program does. -/
lemma find_failsOnly_of (hout : ∀ a, FailsOnly P (q.output a)) : FailsOnly P q.find.result := by
  rw [result_find]
  exact search_failsOnly hout q.target 0 0 0

/-- A search fails as a run of the program does, or by the guard if it has one. -/
theorem findSeed_failsOnly_of (hout : ∀ a, FailsOnly P (q.output a)) :
    FailsOnly (fun e => P e ∨ q.guarded = true ∧ q.GrowsIrregularly e) q.findSeed.result := by
  have hfind : FailsOnly (fun e => P e ∨ q.guarded = true ∧ q.GrowsIrregularly e)
      q.find.result := (find_failsOnly_of hout).mono fun _ => .inl
  unfold findSeed
  split
  · next hguarded =>
    -- only here does the guard run, so only here can its own errors come up
    apply Report.failsOnly_bind
    · exact (guard_failsOnly_of hout).mono fun _ => Or.imp_right (.intro hguarded)
    · exact fun _ _ => hfind
  · exact hfind

/-- A search fails by the fault of a run, or by the guard if it has one. -/
theorem findSeed_failsOnly (q : SeedSearch) :
    FailsOnly (fun e => EndsRunUnder q.stepLimit e ∨ q.guarded = true ∧ q.GrowsIrregularly e)
      q.findSeed.result :=
  findSeed_failsOnly_of (q.program.outputOf_failsOnly q.stepLimit)

end SeedSearch

/-! ## All errors -/

/-- **No error is passed off as one of another source.** A tape or a text is refused as a program
by errors of programs only, and a text as a snapshot by these and by errors of snapshots, none of
which is a machine fault. A machine fails only by machine faults, whatever was asked of it before,
and so does the output of a seed; the error of a step limit carries the one that was set last. The
guard of a search fails by the fault of a run or because the outputs of some number of digits,
within the target and within a word, are not as many; a search fails likewise, and if it is not
guarded then by the fault of a run only. -/
theorem failsOnly_by_source :
    (∀ codes, FailsOnly (·.source = .program) (Program.ofCodes codes)) ∧
    (∀ text, FailsOnly (·.source = .program) (Program.ofText text)) ∧
    (∀ text, FailsOnly (fun e => e.source = .program ∨ e.source = .snapshot)
      (Snapshot.ofText text)) ∧
    (∀ e : Error, e.source = .program ∨ e.source = .snapshot → e.isMachineFault = false) ∧
    (∀ p rs requests,
      FailsOnly (EndsRunUnder (Machine.Request.limitInForce defaultStepLimit requests))
        ((Machine.start p rs).performAll requests).run.1) ∧
    (∀ p limit seed, FailsOnly (EndsRunUnder limit) (Program.outputOf p limit seed)) ∧
    (∀ q : SeedSearch, FailsOnly (fun e => EndsRunUnder q.stepLimit e ∨ q.GrowsIrregularly e)
      q.guard.result) ∧
    (∀ q : SeedSearch, FailsOnly
      (fun e => EndsRunUnder q.stepLimit e ∨ q.guarded = true ∧ q.GrowsIrregularly e)
      q.findSeed.result) := by
  refine ⟨Program.ofCodes_failsOnly, fun text => Program.ofChars_failsOnly text.toList,
    fun text => Snapshot.ofChars_failsOnly text.toList, fun e he => ?_, fun p rs requests => ?_,
    Program.outputOf_failsOnly, SeedSearch.guard_failsOnly, SeedSearch.findSeed_failsOnly⟩
  · rw [← Bool.not_eq_true, Error.isMachineFault_iff_source]
    rcases he with he | he <;> simp [he]
  · have hlimit : ((Machine.start p rs).performAll requests).stepLimit =
        Machine.Request.limitInForce defaultStepLimit requests :=
      Machine.stepLimit_performAll (Machine.start p rs) requests
    rw [← hlimit]
    exact Program.run_failsOnly _ _ _

end OctalTape

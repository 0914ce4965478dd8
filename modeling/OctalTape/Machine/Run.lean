import OctalTape.Machine.Step

set_option relaxedAutoImplicit false
set_option autoImplicit false

/-!
# Runs

A run repeats steps until the machine halts, meets a fault, or has used up the steps that it is
allowed. The count of steps belongs to the run and not to one call: a run that was stopped can
be taken up again, under the same limit or another.

## Main definitions

* `OctalTape.Run` — how far a run has come.
* `OctalTape.Program.runFor` — the run after a number of further steps, or where it stopped.
* `OctalTape.Program.run` — the run under a limit on all of its steps.
* `OctalTape.Program.outputOf` — all that a program emits from a seed.

## Implementation notes

Whether the position is on the tape is asked before whether a step is left, and that before
whether the instruction can be executed. So a run that has left the tape halts under any limit,
and one that has no step left is not blamed for the fault that lies ahead.
-/

namespace OctalTape

/-- How far a run has come. -/
structure Run where
  /-- Where the machine stands. -/
  config : Config
  /-- What has been emitted so far. -/
  output : Array UInt8 := #[]
  /-- How many instructions have been executed so far. -/
  steps : Nat := 0
  deriving DecidableEq, Repr

namespace Run

/-- A run that has not yet made a step. -/
def start (registers : Registers) : Run := { config := .start registers }

/-- The run after one more step. -/
def advance (r : Run) (t : Transition) : Run :=
  match t.emitted with
  | none => { r with config := t.config, steps := r.steps + 1 }
  | some value =>
    { config := t.config, output := r.output.push value, steps := r.steps + 1 }

end Run

/-- Why a run is not going on. -/
inductive Stop where
  /-- The machine has left the tape. -/
  | halted
  /-- The next instruction cannot be executed. -/
  | faulted (error : Error)
  /-- No step is left for the next instruction. -/
  | exhausted
  deriving DecidableEq, Repr

/-- How a stop is reported under a limit: only halting is a success. -/
def Stop.report (limit : Nat) : Stop → Except Error Unit
  | halted => .ok ()
  | faulted e => .error e
  | exhausted => .error (.stepLimitExceeded limit)

/-- The number of steps that a run may take unless another limit is given. -/
def defaultStepLimit : Nat := 1000000

namespace Program

/-- Continue a run for at most the given number of steps. -/
def runFor (p : Program) : Nat → Run → Stop × Run
  | 0, r =>
    match p.fetch r.config.pointer with
    | none => (.halted, r)
    | some _ => (.exhausted, r)
  | n + 1, r =>
    match p.step r.config with
    | .halt => (.halted, r)
    | .fault e => (.faulted e, r)
    | .next t => p.runFor n (r.advance t)

/-- Continue a run until it stops, with a limit on all of its steps, those before included. -/
def run (p : Program) (limit : Nat) (r : Run) : Except Error Unit × Run :=
  let (stop, r') := p.runFor (limit - r.steps) r
  (stop.report limit, r')

/-- All that the program emits from a seed, if it halts within the limit. -/
def outputOf (p : Program) (limit : Nat) (seed : Word) : Except Error (List UInt8) :=
  let (result, r) := p.run limit (.start (.ofSeed seed))
  result.map fun _ => r.output.toList

end Program

end OctalTape

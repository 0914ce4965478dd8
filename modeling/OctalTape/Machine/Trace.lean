import OctalTape.Log
import OctalTape.Machine.Run

set_option relaxedAutoImplicit false
set_option autoImplicit false

/-!
# Traces

The trace of a run has one entry for each instruction that the run tries to execute, with the
configuration that it meets. An instruction that turns out to be a fault has its entry, as the
last one; the step that a limit forbids has none.

## Main definitions

* `OctalTape.Trace.Entry` — an instruction and the configuration that it meets.
* `OctalTape.Program.trace` — the entries that a run makes until it stops.
-/

namespace OctalTape

open Text (decimal)

/-- An instruction about to be executed, in the configuration that it meets. -/
structure Trace.Entry where
  /-- How many instructions the run has executed before. -/
  index : Nat
  config : Config
  instruction : Instruction
  deriving DecidableEq, Repr

namespace Trace.Entry

/-- The words of an entry. -/
def message (e : Trace.Entry) : String :=
  let words := ", ".intercalate (e.config.registers.toList.map fun w => decimal w.toNat)
  "Step #" ++ decimal e.index ++ ": " ++ e.instruction.opcode.name ++ " " ++
    decimal e.instruction.operand.toNat ++ " @ " ++ decimal e.config.pointer ++
    ", registers [" ++ words ++ "]."

/-- An entry of a trace is a message of the finest grain. -/
def toLog (e : Trace.Entry) : Log.Entry := ⟨.trace, e.message⟩

end Trace.Entry

namespace Program

/-- The entries made in at most the given number of steps, behind those made before. The entries
are numbered from `index`. -/
def traceFor (p : Program) :
    Nat → Nat → Config → Array Trace.Entry → Array Trace.Entry
  | 0, _, _, entries => entries
  | n + 1, index, c, entries =>
    match p.fetch c.pointer with
    | none => entries
    | some i =>
      let entries := entries.push ⟨index, c, i⟩
      match c.execute i with
      | .error _ => entries
      | .ok t => p.traceFor n (index + 1) t.config entries

/-- The entries made while a run is continued under a limit on all of its steps. -/
def trace (p : Program) (limit : Nat) (r : Run) : List Trace.Entry :=
  (p.traceFor (limit - r.steps) r.steps r.config #[]).toList

/-- The entries made by a run from a seed. -/
def traceOf (p : Program) (limit : Nat) (seed : Word) : List Trace.Entry :=
  p.trace limit (.start (.ofSeed seed))

end Program

end OctalTape

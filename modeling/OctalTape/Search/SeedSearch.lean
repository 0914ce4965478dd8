import OctalTape.Machine.Trace
import OctalTape.Search.Descent

set_option relaxedAutoImplicit false
set_option autoImplicit false

/-!
# Searching for a seed

A seed search asks for a value of register A from which a program emits a target. The descent
finds one only if the program makes one output for each octal digit of its seed; before it
begins, a guard therefore looks at the outputs from the powers of eight.

## Main definitions

* `OctalTape.SeedSearch` — a program, a target, a step limit, and whether to guard.
* `OctalTape.SeedSearch.guard` — the outputs of the powers of eight are counted.
* `OctalTape.SeedSearch.findSeed` — the guard, if it is wanted, and the descent.
* `OctalTape.selfSeed` — a seed from which a program emits its own tape.

## Implementation notes

The guard stops at the powers that a word can hold, so a target that is longer than a word has
octal digits is looked at in part only.
-/

namespace OctalTape

/-- The question for a seed. Unless another target is given, the program is to emit its own
tape. -/
structure SeedSearch where
  program : Program
  target : List UInt8 := program.toList
  stepLimit : Nat := defaultStepLimit
  guarded : Bool := true
  deriving DecidableEq

namespace SeedSearch

/-- The output of a seed. -/
def output (q : SeedSearch) (seed : Word) : Except Error (List UInt8) :=
  q.program.outputOf q.stepLimit seed

/-! ## The guard -/

/-- The number of octal digits of the largest word. -/
def maxDigits : Nat := 22

/-- The least word with the given number of octal digits. -/
def leastWithDigits (digits : Nat) : Word := UInt64.ofNat (Nat.pow 8 (digits - 1))

/-- Run the least seed with the given number of octal digits, and count its outputs. -/
def probe (q : SeedSearch) (digits : Nat) : Report Unit := do
  let seed := leastWithDigits digits
  let output ← Report.observe (.probed seed) (q.output seed)
  if output.length = digits then
    return ()
  else
    Report.fail (.irregularOutputGrowth digits output.length)

/-- Probe one seed for each number of octal digits up to the length of the target. -/
def guard (q : SeedSearch) : Report Unit :=
  (List.range' 1 (min q.target.length maxDigits)).forM q.probe

/-! ## The search -/

/-- The descent from no digits at all. -/
def descend (q : SeedSearch) : Report (Option Word) :=
  search q.output q.target 0 0 0

/-- The descent, between the events that tell of its beginning and its end. -/
def find (q : SeedSearch) : Report (Option Word) := do
  Report.tell (.began q.target)
  let descent := q.descend
  let found ← descent
  let tally := Tally.ofEvents descent.events
  Report.tell (.ended tally.runs tally.descents.length found)
  return found

/-- Look for the seed, behind the guard if it is wanted. -/
def findSeed (q : SeedSearch) : Report (Option Word) := do
  if q.guarded then
    q.guard
  q.find

end SeedSearch

/-- A seed from which the program emits its own tape. -/
def selfSeed (p : Program) : Except Error (Option Word) :=
  (SeedSearch.findSeed { program := p }).result

end OctalTape

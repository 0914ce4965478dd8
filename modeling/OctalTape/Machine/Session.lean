import OctalTape.Machine.Trace

set_option relaxedAutoImplicit false
set_option autoImplicit false

/-!
# The machine as a whole

A machine has a program, a run of it, and a limit on the steps of that run. Its user lets it
run, sets the limit, and reads the registers, in any order and as often as wanted.

## Main definitions

* `OctalTape.Machine` — a program with a run of it and a limit on its steps.
* `OctalTape.Machine.Request`, `OctalTape.Machine.Reply` — what a user asks and is answered.
* `OctalTape.Machine.perform` — the reply to a request, and the machine after it.
* `OctalTape.Machine.log` — the messages that a machine sends while it performs a request.
-/

namespace OctalTape

/-- A program with a run of it and a limit on the steps of that run. -/
structure Machine where
  program : Program
  state : Run
  stepLimit : Nat := defaultStepLimit
  deriving DecidableEq

namespace Machine

/-- The machine that has not yet made a step, with the given contents of its registers. -/
def start (program : Program) (registers : Registers) : Machine :=
  { program, state := .start registers }

/-- Let the machine run until it stops. A machine that was stopped goes on where it stands. -/
def run (m : Machine) : Except Error Unit × Machine :=
  let (result, state) := m.program.run m.stepLimit m.state
  (result, { m with state })

/-- The machine under another limit; the steps taken so far still count. -/
def setStepLimit (m : Machine) (limit : Nat) : Machine :=
  { m with stepLimit := limit }

/-! ## Requests -/

/-- What the user of a machine asks. -/
inductive Request where
  | run
  | setStepLimit (limit : Nat)
  | read (register : Register)
  deriving DecidableEq, Repr

/-- What the user is answered. -/
inductive Reply where
  | stopped (result : Except Error Unit)
  | done
  | content (word : Word)

/-- The reply to a request, and the machine after it. -/
def perform (m : Machine) : Request → Reply × Machine
  | .run =>
    let (result, m') := m.run
    (.stopped result, m')
  | .setStepLimit limit => (.done, m.setStepLimit limit)
  | .read r => (.content (m.state.config.registers.get r), m)

/-- The messages that the machine sends while it performs a request, for a log at level `l`. -/
def log (m : Machine) (l : Log.Level) : Request → List Log.Entry
  | .run => if l.admits .trace then (m.program.trace m.stepLimit m.state).map (·.toLog) else []
  | _ => []

end Machine

end OctalTape

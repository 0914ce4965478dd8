import OctalTape.Machine.Session
import OctalTape.Search.SeedSearch
import OctalTape.Tool.Failure
import OctalTape.Tool.Settings

set_option relaxedAutoImplicit false
set_option autoImplicit false

/-!
# The tools

There are two tools for the snapshot in a file. One runs it and prints what it emits; the other
looks for the seed from which its program emits itself.

## Main definitions

* `OctalTape.Tool` — the two tools.
* `OctalTape.Outcome` — what a call of a tool ends with.
* `OctalTape.Tool.answer` — the outcome, given the settings and what the file holds.
* `OctalTape.Tool.execute` — the outcome, given the arguments and a way to read files.

## Implementation notes

The way to read files may belong to any monad, so that one definition serves the disk and a
directory in memory.
-/

namespace OctalTape

open Text (decimal decimalList)

/-- The tools. -/
inductive Tool where
  /-- Run the snapshot. -/
  | run
  /-- Look for the seed from which the program emits itself. -/
  | invert
  deriving DecidableEq, Repr

/-- What a call of a tool ends with. -/
structure Outcome where
  /-- Zero for success, one for a failure, two for arguments that are refused. -/
  code : UInt32 := 0
  stdout : String := ""
  stderr : String := ""
  deriving DecidableEq, Repr

namespace Outcome

/-- The outcome of a failure. -/
def ofFailure (f : Failure) : Outcome := { code := 1, stderr := f.report }

/-- How a tool is called. -/
def usage : String := "Usage: [--step-limit <STEPS>] [--unchecked] <INPUT_PATH>\n"

/-- What is wrong with arguments that are refused. -/
def complaint : UsageError → String
  | .missingPath => "the path of the input is missing"
  | .unknownArgument => "an argument is not known"
  | .missingValue => "a value is missing"
  | .invalidNumber => "the step limit is not a number"
  | .repeatedOption => "an option is given twice"
  | .unexpectedValue => "a value is given to a flag"
  | .helpRequested => "help is asked for"

/-- The outcome of arguments that are refused. A request for help is no failure. -/
def ofUsageError (e : UsageError) : Outcome :=
  if e = .helpRequested then { stdout := usage }
  else { code := 2, stderr := "error: " ++ complaint e ++ "\n\n" ++ usage }

end Outcome

namespace Tool

/-- Run a snapshot. -/
def runSnapshot (s : Settings) (snapshot : Snapshot) : Outcome :=
  let machine := (Machine.start snapshot.program snapshot.registers).setStepLimit s.stepLimit
  let (result, machine) := machine.run
  match result with
  | .error e => .ofFailure ⟨.run, s.inputPath, .error e⟩
  | .ok () =>
    { stdout := "After running given program, the computer outputs " ++
        decimalList machine.state.output.toList ++ ".\n" }

/-- Look for the seed from which the program of a snapshot emits itself. The contents of the
registers do not matter to that. -/
def invertSnapshot (s : Settings) (snapshot : Snapshot) : Outcome :=
  let query : SeedSearch :=
    { program := snapshot.program, stepLimit := s.stepLimit, guarded := !s.unchecked }
  let report := query.findSeed
  match report.result with
  | .error e => .ofFailure ⟨.search, s.inputPath, .error e⟩
  | .ok (some seed) =>
    { stdout := "The least value of register A that makes the program output itself is " ++
        decimal seed.toNat ++ ".\n" }
  | .ok none =>
    { stderr := "There's no value of register A that makes the program output itself, after " ++
        decimal (Tally.ofEvents report.events).runs ++ " runs.\n" }

/-- What a tool makes of a snapshot. -/
def apply : Tool → Settings → Snapshot → Outcome
  | run => runSnapshot
  | invert => invertSnapshot

/-- The outcome of a call, given what reading the file has come to. -/
def answer (t : Tool) (s : Settings) (file : Except Files.ReadFault ByteArray) : Outcome :=
  match Snapshot.load s.inputPath file with
  | .error f => .ofFailure f
  | .ok snapshot => t.apply s snapshot

/-- The outcome of a call with some arguments, where `read` reads the file at a path. -/
def execute {m : Type → Type} [Monad m] (t : Tool)
    (read : String → m (Except Files.ReadFault ByteArray)) (args : List String) : m Outcome :=
  match Settings.ofArguments args with
  | .error e => pure (.ofUsageError e)
  | .ok s => return t.answer s (← read s.inputPath)

end Tool

end OctalTape

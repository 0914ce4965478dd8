import OctalTape.Files.Directory
import OctalTape.Snapshot

set_option relaxedAutoImplicit false
set_option autoImplicit false

/-!
# Failures of the tools

A tool that fails says what it was about to do with which file, and what kept it from that.

## Main definitions

* `OctalTape.Failure` — what could not be done with a file, and why.
* `OctalTape.Failure.message`, `OctalTape.Failure.Cause.message` — the words for both.
* `OctalTape.Snapshot.load` — the snapshot in a file.
-/

namespace OctalTape

/-- What kept a tool from its task. -/
inductive Failure.Cause where
  /-- The file could not be read. -/
  | unreadable (fault : Files.ReadFault)
  /-- What was read or run is in error. -/
  | error (error : Error)
  deriving DecidableEq, Repr

/-- The words for a cause. -/
def Failure.Cause.message : Failure.Cause → String
  | unreadable fault => fault.message
  | error e => e.message

/-- What a tool does with a file. -/
inductive Failure.Task where
  | read
  | parse
  | run
  | search
  deriving DecidableEq, Repr

/-- The words for a task that failed; the path of the file comes behind them. -/
def Failure.Task.message : Failure.Task → String
  | read => "Failed to read given file"
  | parse => "Failed to parse debug information in given file"
  | run => "Failed to run program in given file"
  | search => "Failed to search register A for program in given file"

/-- A task that failed on a file, and the cause. -/
structure Failure where
  task : Failure.Task
  path : String
  cause : Failure.Cause
  deriving DecidableEq, Repr

namespace Failure

/-- The words for a failure, without its cause. -/
def message (f : Failure) : String := f.task.message ++ "(" ++ f.path ++ ")."

/-- The words for a failure and for its cause. -/
def chain (f : Failure) : List String := [f.message, f.cause.message]

/-- What is written about a failure. -/
def report (f : Failure) : String :=
  "Error: " ++ f.message ++ "\n\nCaused by:\n    " ++ f.cause.message ++ "\n"

end Failure

/-- The snapshot in the file at `path`, given what reading that file has come to. -/
def Snapshot.load (path : String) (file : Except Files.ReadFault ByteArray) :
    Except Failure Snapshot :=
  match file.bind Files.decode with
  | .error fault => .error ⟨.read, path, .unreadable fault⟩
  | .ok text =>
    match Snapshot.ofText text with
    | .error e => .error ⟨.parse, path, .error e⟩
    | .ok snapshot => .ok snapshot

end OctalTape

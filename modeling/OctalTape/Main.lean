import OctalTape.Tool.Basic

set_option relaxedAutoImplicit false
set_option autoImplicit false

/-!
# The command line

The first argument names the tool, `run` or `invert`; the others are its own.
-/

namespace OctalTape.CommandLine

open Files (ReadFault)

/-- The fault behind an error that the system reports. The number of the error may come with
either sign, depending on the call that failed. -/
def faultOf : IO.Error → ReadFault
  | .noFileOrDirectory .. => .notFound
  | .inappropriateType _ number details =>
    if number = 20 ∨ number = -20 then .notADirectory
    else if number = 21 ∨ number = -21 then .isADirectory
    else .other details
  | e => .other (toString e)

/-- Read the file at a path on disk. -/
def readFile (path : String) : IO (Except ReadFault ByteArray) := do
  try
    return .ok (← IO.FS.readBinFile path)
  catch e =>
    return .error (faultOf e)

/-- Write an outcome to the standard streams. -/
def deliver (o : Outcome) : IO UInt32 := do
  (← IO.getStdout).putStr o.stdout
  (← IO.getStderr).putStr o.stderr
  return o.code

/-- The tool of a name. -/
def tool? : String → Option Tool
  | "run" => some .run
  | "invert" => some .invert
  | _ => none

end OctalTape.CommandLine

open OctalTape OctalTape.CommandLine in
/-- Call the tool that the first argument names. -/
def main (args : List String) : IO UInt32 :=
  match args with
  | name :: rest =>
    match tool? name with
    | some t => do deliver (← t.execute readFile rest)
    | none => deliver (.ofUsageError .unknownArgument)
  | [] => deliver (.ofUsageError .missingPath)

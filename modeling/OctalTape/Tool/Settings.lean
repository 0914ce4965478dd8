import OctalTape.Machine.Run
import OctalTape.Text.Numeral

set_option relaxedAutoImplicit false
set_option autoImplicit false

/-!
# The settings of a tool

A tool is called with the path of a file, and with two options: `--step-limit` takes a number,
`--unchecked` nothing. `--help` and `-h` ask for help, and behind `--` all arguments are paths.

## Main definitions

* `OctalTape.Settings` — the path, the step limit, and whether the guard is left out.
* `OctalTape.UsageError` — why arguments are refused.
* `OctalTape.Argument` — the forms of an argument.
* `OctalTape.Settings.ofArguments` — the settings that arguments make up.

## Implementation notes

A value that stands in an argument of its own is kept pending until the next value or option
arrives, or the arguments end; only then is it looked at. So if two arguments are wrong, a wrong
value can be overtaken by an argument that is refused at sight: one that no option knows, a
second path, or a flag with a value.
-/

namespace OctalTape

/-- The settings of a tool. -/
structure Settings where
  inputPath : String
  stepLimit : Nat := defaultStepLimit
  /-- Whether the guard of a search is left out. -/
  unchecked : Bool := false
  deriving DecidableEq, Repr

/-- Why arguments are refused. -/
inductive UsageError where
  /-- There is no path. -/
  | missingPath
  /-- No option has this name, or a path stands where there is a path already. -/
  | unknownArgument
  /-- An option has no value, or the path is empty. -/
  | missingValue
  /-- The value of the step limit is not a number. -/
  | invalidNumber
  /-- An option is given twice. -/
  | repeatedOption
  /-- A flag is given a value. -/
  | unexpectedValue
  /-- Help is asked for. -/
  | helpRequested
  deriving DecidableEq, Repr

/-! ## Arguments -/

/-- The forms of an argument. -/
inductive Argument where
  /-- Two dashes alone. -/
  | separator
  /-- Two dashes, a name, and perhaps a value behind an equals sign. -/
  | long (name : List Char) (value : Option (List Char))
  /-- One dash and letters, of which the first is named. -/
  | short (letter : Char)
  /-- Any other text, a single dash and the empty text among them. -/
  | plain
  deriving DecidableEq, Repr

/-- The form of an argument. -/
def Argument.ofChars : List Char → Argument
  | ['-', '-'] => .separator
  | '-' :: '-' :: cs =>
    match cs.dropWhile (· != '=') with
    | [] => .long cs none
    | _ :: value => .long (cs.takeWhile (· != '=')) (some value)
  | '-' :: c :: _ => .short c
  | _ => .plain

/-! ## Drafts -/

/-- A value that has arrived and is not yet looked at. -/
inductive Pending where
  | nothing
  /-- The next argument is to be the step limit. -/
  | awaitingLimit
  | limit (text : List Char)
  | path (text : String)
  deriving DecidableEq, Repr

/-- Settings in the making. -/
structure Draft where
  inputPath : Option String := none
  stepLimit : Option Nat := none
  unchecked : Bool := false
  pending : Pending := .nothing
  /-- Whether the separator has been met. -/
  onlyPaths : Bool := false
  deriving DecidableEq, Repr

namespace Draft

/-- Give the draft a step limit. -/
def setLimit (d : Draft) (text : List Char) : Except UsageError Draft :=
  if d.stepLimit.isSome then .error .repeatedOption
  else
    match Text.readBelow? UInt64.size text with
    | none => .error .invalidNumber
    | some limit => .ok { d with stepLimit := some limit }

/-- Leave out the guard. -/
def setUnchecked (d : Draft) : Except UsageError Draft :=
  if d.unchecked then .error .repeatedOption else .ok { d with unchecked := true }

/-- Look at the value that is pending. -/
def settle (d : Draft) : Except UsageError Draft :=
  let settled := { d with pending := .nothing }
  match d.pending with
  | .nothing => .ok settled
  | .awaitingLimit => .error .missingValue
  | .limit text => settled.setLimit text
  | .path text =>
    if text = "" then .error .missingValue else .ok { settled with inputPath := some text }

/-- Whether a path has arrived. -/
def hasPath (d : Draft) : Bool :=
  match d.pending with
  | .path _ => true
  | _ => d.inputPath.isSome

/-- Take an argument as a path. -/
def addPath (d : Draft) (text : String) : Except UsageError Draft :=
  if d.hasPath then .error .unknownArgument
  else d.settle.map ({ · with pending := .path text })

/-- Take an argument as an option with a name. -/
def addOption (d : Draft) (name : List Char) (value : Option (List Char)) :
    Except UsageError Draft :=
  if name = "step-limit".toList then
    d.settle.bind fun settled =>
      match value with
      | none => .ok { settled with pending := .awaitingLimit }
      | some text => settled.setLimit text
  else if name = "unchecked".toList then
    if value.isSome then .error .unexpectedValue else d.settle.bind setUnchecked
  else if name = "help".toList then
    if value.isSome then .error .unexpectedValue
    else d.settle.bind fun _ => .error .helpRequested
  else .error .unknownArgument

/-- The draft after one more argument. -/
def add (d : Draft) (text : String) : Except UsageError Draft :=
  if d.onlyPaths then d.addPath text
  else
    match Argument.ofChars text.toList with
    | .separator => .ok { d with onlyPaths := true }
    | .long name value => d.addOption name value
    | .short letter =>
      if letter = 'h' then d.settle.bind fun _ => .error .helpRequested
      else .error .unknownArgument
    | .plain =>
      if d.pending = .awaitingLimit then .ok { d with pending := .limit text.toList }
      else d.addPath text

/-- The settings of a finished draft. -/
def finish (d : Draft) : Except UsageError Settings := do
  let settled ← d.settle
  match settled.inputPath with
  | none => .error .missingPath
  | some inputPath =>
    return { inputPath, stepLimit := settled.stepLimit.getD defaultStepLimit,
             unchecked := settled.unchecked }

end Draft

/-- The settings that arguments make up. -/
def Settings.ofArguments (args : List String) : Except UsageError Settings := do
  (← args.foldlM Draft.add {}).finish

end OctalTape

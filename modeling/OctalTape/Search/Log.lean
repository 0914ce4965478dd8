import OctalTape.Search.SeedSearch

set_option relaxedAutoImplicit false
set_option autoImplicit false

/-!
# The log of a search

The messages that a search sends are its events in words. In a log of the finest grain each run
of the program has its trace in front of what the search makes of its output.

## Main definitions

* `OctalTape.SeedSearch.entries` — the messages of an event.
* `OctalTape.SeedSearch.log` — the messages of a list of events.
-/

namespace OctalTape

open Text (decimal octal decimalList)

/-- The words for a seed that may have been found. -/
def foundText : Option Word → String
  | none => "None"
  | some seed => "Some(" ++ decimal seed.toNat ++ ")"

/-- The message of an event itself, if it has one. -/
def Event.entry? : Event → Option Log.Entry
  | .probed seed (.ok output) =>
    some ⟨.debug, "A = " ++ octal seed.toNat ++ " makes " ++ decimal output.length ++ " outputs."⟩
  | .probed _ (.error _) => none
  | .began target =>
    some ⟨.info, "Searching register A for output " ++ decimalList target ++ "."⟩
  | .tried _ _ => none
  | .descended depth candidate output =>
    some ⟨.debug, "Prefix " ++ octal candidate.toNat ++ " at depth " ++ decimal depth ++
      " outputs " ++ decimalList output ++ "."⟩
  | .ended runs descents found =>
    some ⟨.info, "Search finished after " ++ decimal runs ++ " runs and " ++ decimal descents ++
      " descents, found " ++ foundText found ++ "."⟩

/-- The seed from which the program was run in an event. -/
def Event.seed? : Event → Option Word
  | .probed seed _ => some seed
  | .tried candidate _ => some candidate
  | _ => none

namespace SeedSearch

/-- The messages that the machine sends in an event. -/
def trace (q : SeedSearch) (e : Event) : List Log.Entry :=
  match e.seed? with
  | none => []
  | some seed => (q.program.traceOf q.stepLimit seed).map (·.toLog)

/-- The messages of an event, for a log at level `l`. -/
def entries (q : SeedSearch) (l : Log.Level) (e : Event) : List Log.Entry :=
  (if l.admits .trace then q.trace e else []) ++ e.entry?.toList.filter (l.admits ·.level)

/-- The messages of some events, for a log at level `l`. -/
def log (q : SeedSearch) (l : Log.Level) (events : List Event) : List Log.Entry :=
  events.flatMap (q.entries l)

end SeedSearch

end OctalTape

set_option relaxedAutoImplicit false
set_option autoImplicit false

/-!
# Logs

Runs and searches can tell what they are doing. Each message has a level; a log that is kept at
some level holds the messages of that level and of the coarser ones.

## Main definitions

* `OctalTape.Log.Level` — the levels, and which of them a log admits.
* `OctalTape.Log.Entry` — a message with its level.
-/

namespace OctalTape.Log

/-- How fine the grain of a message is. -/
inductive Level where
  /-- The start and the end of a search. -/
  | info
  /-- The decisions of a search. -/
  | debug
  /-- The single steps of the machine. -/
  | trace
  deriving DecidableEq, Repr

namespace Level

/-- The place of a level, counted from the coarsest. -/
def rank : Level → Nat
  | info => 0
  | debug => 1
  | trace => 2

/-- A log kept at level `l` holds the messages of level `m` if `m` is no finer. -/
def admits (l m : Level) : Bool := m.rank ≤ l.rank

/-- The word that stands for a level in front of a message. -/
def label : Level → String
  | info => "INFO"
  | debug => "DEBUG"
  | trace => "TRACE"

end Level

/-- A message with its level. -/
structure Entry where
  level : Level
  message : String
  deriving DecidableEq, Repr

/-- An entry as a line of a log. -/
def Entry.line (e : Entry) : String := e.level.label ++ " " ++ e.message

end OctalTape.Log

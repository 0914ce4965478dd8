import OctalTape.Search.Log

set_option relaxedAutoImplicit false
set_option autoImplicit false

/-!
# Asking for seeds again and again

The user of a search sets the target, the limit and the guard, and lets it look for a seed, in
any order and as often as wanted. The tally of the latest search can be read until the next
begins.

## Main definitions

* `OctalTape.Seeker` — a seed search with the tally of the latest time that it was made.
* `OctalTape.Seeker.Request`, `OctalTape.Seeker.Reply` — what a user asks and is answered.
* `OctalTape.Seeker.perform` — the reply to a request, and the seeker after it.
* `OctalTape.Seeker.log` — the messages that a seeker sends while it performs a request.
-/

namespace OctalTape

/-- A seed search with the tally of the latest time that it was made. -/
structure Seeker where
  query : SeedSearch
  tally : Tally := {}
  deriving DecidableEq

namespace Seeker

/-- The seeker that has not yet been asked anything. -/
def start (program : Program) : Seeker := { query := { program } }

/-- What the user of a seeker asks. -/
inductive Request where
  | setTarget (target : List UInt8)
  | setStepLimit (limit : Nat)
  | setGuarded (guarded : Bool)
  | findSeed
  | guard
  deriving DecidableEq, Repr

/-- What the user is answered. -/
inductive Reply where
  | done
  | found (result : Except Error (Option Word))
  | guarded (result : Except Error Unit)

/-- The reply to a request, and the seeker after it. Only a search touches the tally, and it
keeps what it had counted when it failed. -/
def perform (s : Seeker) : Request → Reply × Seeker
  | .setTarget target => (.done, { s with query := { s.query with target } })
  | .setStepLimit stepLimit => (.done, { s with query := { s.query with stepLimit } })
  | .setGuarded guarded => (.done, { s with query := { s.query with guarded } })
  | .findSeed =>
    let report := s.query.findSeed
    (.found report.result, { s with tally := .ofEvents report.events })
  | .guard => (.guarded s.query.guard.result, s)

/-- What happens while a request is performed. -/
def events (s : Seeker) : Request → List Event
  | .findSeed => s.query.findSeed.events
  | .guard => s.query.guard.events
  | _ => []

/-- The messages that the seeker sends while it performs a request, for a log at level `l`. -/
def log (s : Seeker) (l : Log.Level) (r : Request) : List Log.Entry :=
  s.query.log l (s.events r)

end Seeker

end OctalTape

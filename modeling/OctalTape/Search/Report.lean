import OctalTape.Error

set_option relaxedAutoImplicit false
set_option autoImplicit false

/-!
# Reports of a search

A search reports what it does as a list of events. The events outlive an error: a search that
fails still reports what it did before. What a search amounts to, its tally, is read off its
events.

## Main definitions

* `OctalTape.Event` — what can happen in a search.
* `OctalTape.Report` — a result or an error, with the events that led to it.
* `OctalTape.Report.firstOf` — the first result that a list of alternatives yields.
* `OctalTape.Tally` — the candidates run and the descents made.

## Main results

* `OctalTape.Tally.ofEvents_append` — tallies add up.
-/

namespace OctalTape

/-! ## Events -/

/-- What can happen in a search. -/
inductive Event where
  /-- The guard has run the program from a seed. -/
  | probed (seed : Word) (result : Except Error (List UInt8))
  /-- The search for a target begins. -/
  | began (target : List UInt8)
  /-- The search has run the program from a candidate. -/
  | tried (candidate : Word) (result : Except Error (List UInt8))
  /-- The search goes on to the extensions of a candidate, which makes part of the target. -/
  | descended (depth : Nat) (candidate : Word) (output : List UInt8)
  /-- The search has come to an end without an error. -/
  | ended (runs descents : Nat) (found : Option Word)

/-! ## Reports -/

/-- A result, or the error in its place, with the events that led to it. -/
structure Report (α : Type) where
  result : Except Error α
  events : List Event

namespace Report

variable {α β : Type}

/-- Reports in sequence: the events of the first, and those of the second if the first has a
result. -/
def andThen (r : Report α) (f : α → Report β) : Report β :=
  match r.result with
  | .error e => ⟨.error e, r.events⟩
  | .ok a => ⟨(f a).result, r.events ++ (f a).events⟩

instance : Monad Report where
  pure a := ⟨.ok a, []⟩
  bind := andThen

/-- A result or an error, with the event that it is. -/
def observe (event : Except Error α → Event) (result : Except Error α) : Report α :=
  ⟨result, [event result]⟩

/-- One event. -/
def tell (event : Event) : Report Unit := ⟨.ok (), [event]⟩

/-- An error, without an event. -/
def fail (e : Error) : Report α := ⟨.error e, []⟩

/-- Go through the alternatives until one yields something. -/
def firstOf (alternatives : List α) (f : α → Report (Option β)) : Report (Option β) :=
  match alternatives with
  | [] => pure none
  | a :: rest => do
    match ← f a with
    | some b => return some b
    | none => firstOf rest f

/-! ## Reports in sequence -/

/-- A result without events is this result. -/
@[simp]
theorem result_pure (a : α) : (pure a : Report α).result = .ok a := rfl

/-- A result without events has none. -/
@[simp]
theorem events_pure (a : α) : (pure a : Report α).events = [] := rfl

/-- Behind a result, the events of what follows are added to those before. -/
theorem bind_of_ok {r : Report α} {a : α} (h : r.result = .ok a) (f : α → Report β) :
    r >>= f = ⟨(f a).result, r.events ++ (f a).events⟩ := by
  show andThen r f = _
  simp [andThen, h]

/-- Behind an error nothing follows, and no event is added. -/
theorem bind_of_error {r : Report α} {e : Error} (h : r.result = .error e) (f : α → Report β) :
    r >>= f = ⟨.error e, r.events⟩ := by
  show andThen r f = _
  simp [andThen, h]

/-- How reports in sequence are grouped does not matter. -/
theorem andThen_assoc {γ : Type} (r : Report α) (f : α → Report β) (g : β → Report γ) :
    andThen (andThen r f) g = andThen r fun a => andThen (f a) g := by
  obtain ⟨result, events⟩ := r
  cases result with
  | error e => rfl
  | ok a => cases h : (f a).result <;> simp [andThen, h]

/-- A sequence may end with the result that it has. -/
theorem andThen_pure (r : Report α) : andThen r pure = r := by
  obtain ⟨result, events⟩ := r
  cases result <;> simp [andThen]

instance : LawfulMonad Report :=
  LawfulMonad.mk' Report andThen_pure (fun _ _ => rfl) andThen_assoc

end Report

/-! ## Tallies -/

/-- A candidate to whose extensions the search went on. -/
structure Descent where
  depth : Nat
  candidate : Word
  deriving DecidableEq, Repr

/-- How many candidates the search has run to their end, and to which of them it went on. -/
structure Tally where
  runs : Nat := 0
  descents : List Descent := []
  deriving DecidableEq, Repr

namespace Tally

/-- One tally and then another. -/
def add (s t : Tally) : Tally := ⟨s.runs + t.runs, s.descents ++ t.descents⟩

/-- What one event adds. A run that failed does not count, nor does one of the guard. -/
def ofEvent : Event → Tally
  | .tried _ (.ok _) => { runs := 1 }
  | .descended depth candidate _ => { descents := [⟨depth, candidate⟩] }
  | _ => {}

/-- The tally of the events of a search. -/
def ofEvents (es : List Event) : Tally :=
  es.foldr (fun e tally => (ofEvent e).add tally) {}

/-- No events, nothing to tally. -/
@[simp]
theorem ofEvents_nil : ofEvents [] = {} := rfl

/-- The first event is tallied before the others. -/
@[simp]
theorem ofEvents_cons (e : Event) (es : List Event) :
    ofEvents (e :: es) = (ofEvent e).add (ofEvents es) := rfl

/-- Tallies add up. -/
theorem ofEvents_append (es fs : List Event) :
    ofEvents (es ++ fs) = (ofEvents es).add (ofEvents fs) := by
  induction es with
  | nil => simp [add]
  | cons e es ih => simp [ih, add, Nat.add_assoc]

end Tally

end OctalTape

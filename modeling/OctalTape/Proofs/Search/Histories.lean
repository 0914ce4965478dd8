import Mathlib.Data.Nat.Notation
import Mathlib.Tactic.Basic
import OctalTape.Search.Session

set_option relaxedAutoImplicit false
set_option autoImplicit false

/-!
# Searches one after another

A seeker is asked again and again, and its settings change in between. What it has been asked before
matters only for the settings that are in force, each of them the one that was set last. A search
does what it does for a seeker that has just been started and given these settings; and the tally
is that of the latest search, whatever has been asked since.

## Main definitions

* `OctalTape.Seeker.performAll` — the seeker after some requests.
* `OctalTape.Seeker.Request.latest` — what some requests have set last.
* `OctalTape.Seeker.Request.settings` — the requests that set what is in force after some requests.

## Main results

* `OctalTape.Seeker.query_performAll` — the settings after some requests are those set last.
* `OctalTape.Seeker.tally_performAll_of_no_search` — only a search touches the tally.
* `OctalTape.Seeker.searches_independent` — all together, in any history.
-/

namespace OctalTape.Seeker

/-- The seeker after some requests, whatever it has replied to them. -/
def performAll (s : Seeker) (requests : List Request) : Seeker :=
  requests.foldl (fun s request => (s.perform request).2) s

/-- A seeker that is asked nothing stays as it is. -/
@[simp]
theorem performAll_nil (s : Seeker) : s.performAll [] = s := rfl

/-- The first of some requests is performed before the others. -/
@[simp]
theorem performAll_cons (s : Seeker) (request : Request) (requests : List Request) :
    s.performAll (request :: requests) = (s.perform request).2.performAll requests := rfl

/-- Requests in two parts are performed one part after the other. -/
@[simp]
theorem performAll_append (s : Seeker) (before after : List Request) :
    s.performAll (before ++ after) = (s.performAll before).performAll after :=
  List.foldl_append

/-! ## Settings -/

namespace Request

/-- The target that a request sets. -/
def target? : Request → Option (List UInt8)
  | setTarget target => some target
  | _ => none

/-- The step limit that a request sets. -/
def stepLimit? : Request → Option ℕ
  | setStepLimit limit => some limit
  | _ => none

/-- Whether a request sets the guard, and how. -/
def guarded? : Request → Option Bool
  | setGuarded guarded => some guarded
  | _ => none

/-- What some requests have set last, or what was set before if they have set nothing. -/
def latest {α : Type} (set? : Request → Option α) (initial : α) (requests : List Request) : α :=
  (requests.filterMap set?).getLastD initial

/-- The first of some requests sets what the others begin with. -/
lemma latest_cons {α : Type} (set? : Request → Option α) (initial : α) (request : Request)
    (requests : List Request) :
    latest set? initial (request :: requests) =
      latest set? ((set? request).getD initial) requests := by
  unfold latest
  cases h : set? request with
  | none => rw [List.filterMap_cons_none h, Option.getD_none]
  | some a => rw [List.filterMap_cons_some h, List.getLastD_cons, Option.getD_some]

/-- The requests that set what is in force after some requests to a seeker for the program `p`. -/
def settings (p : Program) (requests : List Request) : List Request :=
  [.setTarget (latest target? p.toList requests),
    .setStepLimit (latest stepLimit? defaultStepLimit requests),
    .setGuarded (latest guarded? true requests)]

end Request

open Request

/-- A request sets what it does, and leaves the other settings as they are. -/
lemma query_perform (s : Seeker) (request : Request) :
    (s.perform request).2.query =
      { program := s.query.program
        target := request.target?.getD s.query.target
        stepLimit := request.stepLimit?.getD s.query.stepLimit
        guarded := request.guarded?.getD s.query.guarded } := by
  cases request <;> rfl

/-- **The settings after some requests** are those that they have set last.

**Proof sketch.** Induction on the requests; the first sets what the others begin with. -/
theorem query_performAll (s : Seeker) (requests : List Request) :
    (s.performAll requests).query =
      { program := s.query.program
        target := latest target? s.query.target requests
        stepLimit := latest stepLimit? s.query.stepLimit requests
        guarded := latest guarded? s.query.guarded requests } := by
  induction requests generalizing s with
  | nil => rfl
  | cons request requests ih =>
    rw [performAll_cons, ih, query_perform]
    simp only [latest_cons]

/-- A seeker that has just been started and is given the settings in force has the same question. -/
lemma query_performAll_settings (p : Program) (requests : List Request) :
    ((start p).performAll (settings p requests)).query = ((start p).performAll requests).query := by
  rw [query_performAll (start p) requests]
  rfl

/-! ## Tallies -/

/-- No request but a search touches the tally. -/
lemma tally_perform_of_ne (s : Seeker) {request : Request} (h : request ≠ .findSeed) :
    (s.perform request).2.tally = s.tally := by
  cases request with
  | findSeed => exact absurd rfl h
  | setTarget | setStepLimit | setGuarded | guard => rfl

/-- Without a search, the tally stays as it is. -/
theorem tally_performAll_of_no_search {requests : List Request} (h : .findSeed ∉ requests)
    (s : Seeker) : (s.performAll requests).tally = s.tally := by
  induction requests generalizing s with
  | nil => rfl
  | cons request requests ih =>
    rw [List.mem_cons, not_or] at h
    rw [performAll_cons, ih h.2, tally_perform_of_ne s (Ne.symm h.1)]

/-! ## Histories -/

/-- **No search leaves anything behind for the next.** Let a seeker that has just been started
perform any requests, among them searches that fail. A search then has the result, the tally and
the events that it has for a seeker that has just been started on the same program and given no
more than the target, the limit and the guard in force; and so has the guard. No other request
touches the tally: it is that of the latest search, and empty before the first.

**Proof sketch.** The settings alone make the same query (`query_performAll_settings`), and the
replies, the tally of a search and the events are functions of the query. A request that is no
search leaves the tally alone, so it is that of the last search. -/
theorem searches_independent (p : Program) (requests : List Request) :
    let s := (start p).performAll requests
    let fresh := (start p).performAll (settings p requests)
    (s.perform .findSeed).1 = (fresh.perform .findSeed).1 ∧
    (s.perform .findSeed).2.tally = (fresh.perform .findSeed).2.tally ∧
    (s.perform .guard).1 = (fresh.perform .guard).1 ∧
    (∀ request, s.events request = fresh.events request) ∧
    (∀ request, request ≠ .findSeed → (s.perform request).2.tally = s.tally) ∧
    (.findSeed ∉ requests → s.tally = {}) ∧
    (∀ before after, requests = before ++ .findSeed :: after → .findSeed ∉ after →
      s.tally = (((start p).performAll before).perform .findSeed).2.tally) := by
  intro s fresh
  have hquery : s.query = fresh.query := (query_performAll_settings p requests).symm
  refine ⟨?_, ?_, ?_, fun request => ?_, fun request => tally_perform_of_ne s,
    fun hnone => tally_performAll_of_no_search hnone (start p), ?_⟩
  · show Reply.found s.query.findSeed.result = Reply.found fresh.query.findSeed.result
    rw [hquery]
  · show Tally.ofEvents s.query.findSeed.events = Tally.ofEvents fresh.query.findSeed.events
    rw [hquery]
  · show Reply.guarded s.query.guard.result = Reply.guarded fresh.query.guard.result
    rw [hquery]
  · unfold events
    rw [hquery]
  · rintro before after rfl hafter
    show ((start p).performAll (before ++ .findSeed :: after)).tally = _
    rw [performAll_append, performAll_cons, tally_performAll_of_no_search hafter]

end OctalTape.Seeker

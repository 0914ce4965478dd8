import Mathlib.Tactic.Basic
import OctalTape.Search.Report
import OctalTape.Proofs.Results

set_option relaxedAutoImplicit false
set_option autoImplicit false

/-!
# Results of reports

What a report results in depends on the results of its parts, and not on their events. For each
way to put reports together there is a law that says so.

## Main definitions

* `OctalTape.Report.orElse` — the result of alternatives from that of the first and of the rest.

## Main results

* `OctalTape.Report.result_bind_eq_ok_iff` — the results of reports in sequence.
* `OctalTape.Report.result_forM_eq_ok_iff`, `OctalTape.Report.result_forM_eq_error_iff` — the
  results of loops.
* `OctalTape.Report.result_firstOf_cons`, `OctalTape.Report.events_firstOf_cons` — the results
  and the events of alternatives.
* `OctalTape.Report.failsOnly_bind` and its companions — the errors of all these.
-/

namespace OctalTape

namespace Report

variable {α β : Type}

/-! ## Sequences -/

/-- Behind a result, the reports that follow decide. -/
lemma result_bind_of_ok {r : Report α} {a : α} (h : r.result = .ok a) (f : α → Report β) :
    (r >>= f).result = (f a).result := by
  rw [bind_of_ok h]

/-- Behind an error, nothing follows. -/
lemma result_bind_of_error {r : Report α} {e : Error} (h : r.result = .error e)
    (f : α → Report β) : (r >>= f).result = .error e := by
  rw [bind_of_error h]

/-- Reports in sequence have a result if the first has one and the second has one behind it. -/
lemma result_bind_eq_ok_iff {r : Report α} {f : α → Report β} {b : β} :
    (r >>= f).result = .ok b ↔ ∃ a, r.result = .ok a ∧ (f a).result = .ok b := by
  cases h : r.result with
  | error e =>
    rw [result_bind_of_error h]
    simp
  | ok a =>
    rw [result_bind_of_ok h]
    simp

/-- The events of reports in sequence are those of the first and those of what follows its
result. -/
lemma mem_events_bind_iff {r : Report α} {f : α → Report β} {event : Event} :
    event ∈ (r >>= f).events ↔
      event ∈ r.events ∨ ∃ a, r.result = .ok a ∧ event ∈ (f a).events := by
  cases h : r.result with
  | error e =>
    rw [bind_of_error h]
    simp
  | ok a =>
    rw [bind_of_ok h]
    simp

/-- The events of a loop are events of its turns. -/
lemma exists_mem_of_mem_events_forM {l : List α} {f : α → Report Unit} {event : Event}
    (h : event ∈ (l.forM f).events) : ∃ a ∈ l, event ∈ (f a).events := by
  induction l with
  | nil => cases h
  | cons a l ih =>
    rcases mem_events_bind_iff.mp h with ha | ⟨_, -, hl⟩
    · exact ⟨a, List.mem_cons_self, ha⟩
    · obtain ⟨b, hb, hevent⟩ := ih hl
      exact ⟨b, List.mem_cons_of_mem a hb, hevent⟩

/-- A loop has a result if each of its turns has one. -/
lemma result_forM_eq_ok_iff {l : List α} {f : α → Report Unit} :
    (l.forM f).result = .ok () ↔ ∀ a ∈ l, (f a).result = .ok () := by
  induction l with
  | nil => exact iff_of_true rfl (by simp)
  | cons a l ih =>
    show (f a >>= fun _ => l.forM f).result = _ ↔ _
    rw [result_bind_eq_ok_iff, List.forall_mem_cons, ← ih]
    exact ⟨fun ⟨_, ha, hl⟩ => ⟨ha, hl⟩, fun ⟨ha, hl⟩ => ⟨(), ha, hl⟩⟩

/-- The result of a loop is that of its turns in sequence. -/
lemma result_forM (l : List α) (f : α → Report Unit) :
    (l.forM f).result = (l.mapM fun a => (f a).result).map fun _ => () := by
  induction l with
  | nil => rfl
  | cons a l ih =>
    show (f a >>= fun _ => l.forM f).result = _
    rw [List.mapM_cons]
    cases h : (f a).result with
    | error e => rw [result_bind_of_error h]; rfl
    | ok _ =>
      rw [result_bind_of_ok h, ih]
      cases l.mapM fun a => (f a).result <;> rfl

/-- A loop fails by the first of its turns that does, whatever the later ones would do. -/
lemma result_forM_eq_error_iff {l : List α} {f : α → Report Unit} {e : Error} :
    (l.forM f).result = .error e ↔ ∃ before a after, l = before ++ a :: after ∧
      (∀ b ∈ before, (f b).result = .ok ()) ∧ (f a).result = .error e := by
  have hunit : ∀ b, (∃ x, (f b).result = .ok x) ↔ (f b).result = .ok () := fun b =>
    ⟨fun ⟨_, h⟩ => h, fun h => ⟨(), h⟩⟩
  rw [result_forM, map_eq_error_iff]
  simp only [mapM_eq_error_iff, hunit]

/-- A loop counts nothing if none of its turns does. -/
lemma tally_forM {l : List α} {f : α → Report Unit}
    (h : ∀ a, Tally.ofEvents (f a).events = {}) : Tally.ofEvents (l.forM f).events = {} := by
  induction l with
  | nil => rfl
  | cons a l ih =>
    show Tally.ofEvents (f a >>= fun _ => l.forM f).events = {}
    cases hr : (f a).result with
    | error e => rw [bind_of_error hr, h a]
    | ok _ =>
      rw [bind_of_ok hr, Tally.ofEvents_append, h a, ih]
      rfl

/-! ## Alternatives -/

/-- The result of some alternatives from that of the first and that of the rest: the rest counts
only if the first yields nothing. -/
def orElse (first rest : Except Error (Option β)) : Except Error (Option β) :=
  match first with
  | .ok none => rest
  | _ => first

/-- The rest does not count if the first yields something or fails. -/
lemma orElse_of_ne {first rest : Except Error (Option β)} (h : first ≠ .ok none) :
    orElse first rest = first := by
  unfold orElse
  split
  · exact absurd rfl h
  · rfl

/-- The first of some alternatives is split off. -/
lemma result_firstOf_cons (a : α) (as : List α) (f : α → Report (Option β)) :
    (firstOf (a :: as) f).result = orElse (f a).result (firstOf as f).result := by
  rw [firstOf]
  cases h : (f a).result with
  | error e => rw [result_bind_of_error h]; rfl
  | ok b =>
    rw [result_bind_of_ok h]
    cases b <;> rfl

/-- Alternatives are gone through in the same way if the same is done with each. -/
lemma firstOf_congr {l : List α} {f g : α → Report (Option β)} (h : ∀ a ∈ l, f a = g a) :
    firstOf l f = firstOf l g := by
  induction l with
  | nil => rfl
  | cons a l ih =>
    rw [List.forall_mem_cons] at h
    rw [firstOf, firstOf, h.1, ih h.2]

/-- The events of the rest follow those of the first of some alternatives if that yields
nothing. -/
lemma events_firstOf_cons (a : α) (as : List α) (f : α → Report (Option β)) :
    (firstOf (a :: as) f).events = (f a).events ++
      match (f a).result with
      | .ok none => (firstOf as f).events
      | _ => [] := by
  rw [firstOf]
  cases h : (f a).result with
  | error e => rw [bind_of_error h, List.append_nil]
  | ok b =>
    rw [bind_of_ok h]
    cases b <;> rfl

/-- The events of alternatives are events of one of them. -/
lemma exists_mem_of_mem_events_firstOf {l : List α} {f : α → Report (Option β)} {event : Event}
    (h : event ∈ (firstOf l f).events) : ∃ a ∈ l, event ∈ (f a).events := by
  induction l with
  | nil => cases h
  | cons a l ih =>
    rw [firstOf] at h
    rcases mem_events_bind_iff.mp h with ha | ⟨found, -, hl⟩
    · exact ⟨a, List.mem_cons_self, ha⟩
    · cases found with
      | none =>
        obtain ⟨b, hb, hevent⟩ := ih hl
        exact ⟨b, List.mem_cons_of_mem a hb, hevent⟩
      | some _ => cases hl

/-! ## Errors -/

variable {P : Error → Prop}

/-- The errors of reports in sequence are those of the first and those of what follows its
result. -/
lemma failsOnly_bind {r : Report α} {f : α → Report β} (h : FailsOnly P r.result)
    (hf : ∀ a, r.result = .ok a → FailsOnly P (f a).result) :
    FailsOnly P (r >>= f).result := by
  cases hr : r.result with
  | error e =>
    rw [result_bind_of_error hr]
    exact .error (h e hr)
  | ok a =>
    rw [result_bind_of_ok hr]
    exact hf a hr

/-- The errors of a loop are those of its turns. -/
lemma failsOnly_forM {l : List α} {f : α → Report Unit}
    (h : ∀ a ∈ l, FailsOnly P (f a).result) : FailsOnly P (l.forM f).result := by
  induction l with
  | nil => exact .ok ()
  | cons a l ih =>
    rw [List.forall_mem_cons] at h
    exact failsOnly_bind h.1 fun _ _ => ih h.2

/-- The errors of alternatives are those of each. -/
lemma failsOnly_firstOf {l : List α} {f : α → Report (Option β)}
    (h : ∀ a, FailsOnly P (f a).result) : FailsOnly P (firstOf l f).result := by
  induction l with
  | nil => exact .ok none
  | cons a l ih =>
    unfold firstOf
    apply failsOnly_bind (h a)
    intro found _
    cases found with
    | none => exact ih
    | some b => exact .ok _

end Report

end OctalTape

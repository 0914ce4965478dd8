import Mathlib.Tactic.Basic
import OctalTape.Error

set_option relaxedAutoImplicit false
set_option autoImplicit false

/-!
# Results and errors

What is put together from attempts has a result if each of them has one, and otherwise the error of
one of them.

## Main definitions

* `OctalTape.FailsOnly` — each error of an attempt has a property.

## Main results

* `OctalTape.mapM_eq_ok_iff` — the results of a loop are those of its turns.
* `OctalTape.mapM_eq_error_iff` — the error of a loop is that of its first turn that fails.
* `OctalTape.FailsOnly.bind`, `OctalTape.FailsOnly.mapM` — no error comes from elsewhere.
-/

namespace OctalTape

variable {α β : Type}

/-- Attempts in sequence have a result if the first has one and the second has one behind it. -/
lemma bind_eq_ok_iff {x : Except Error α} {f : α → Except Error β} {b : β} :
    x >>= f = .ok b ↔ ∃ a, x = .ok a ∧ f a = .ok b := by
  cases x <;> simp [bind, Except.bind]

/-- Attempts in sequence fail if the first fails, or if the second fails behind its result. -/
lemma bind_eq_error_iff {x : Except Error α} {f : α → Except Error β} {e : Error} :
    x >>= f = .error e ↔ x = .error e ∨ ∃ a, x = .ok a ∧ f a = .error e := by
  cases x <;> simp [bind, Except.bind]

/-- What is made of the result of an attempt is a result if the attempt has one. -/
lemma map_eq_ok_iff {x : Except Error α} {f : α → β} {b : β} :
    x.map f = .ok b ↔ ∃ a, x = .ok a ∧ f a = b := by
  cases x <;> simp [Except.map]

/-- It fails as the attempt does. -/
lemma map_eq_error_iff {x : Except Error α} {f : α → β} {e : Error} :
    x.map f = .error e ↔ x = .error e := by
  cases x <;> simp [Except.map]

/-- A loop has results exactly if each of its turns has one. -/
theorem mapM_eq_ok_iff {f : α → Except Error β} {as : List α} {bs : List β} :
    as.mapM f = .ok bs ↔ as.map f = bs.map .ok := by
  induction as generalizing bs with
  | nil => cases bs <;> simp [pure, Except.pure]
  | cons a as ih =>
    simp only [List.mapM_cons, bind_eq_ok_iff, ih]
    cases bs with
    | nil => simp [pure, Except.pure]
    | cons b bs => simp [pure, Except.pure]

/-- The results of a loop that has some are those of its turns. -/
lemma mem_iff_of_mapM_eq_ok {f : α → Except Error β} {as : List α} {bs : List β}
    (h : as.mapM f = .ok bs) {b : β} : b ∈ bs ↔ ∃ a ∈ as, f a = .ok b := by
  rw [← List.mem_map, mapM_eq_ok_iff.mp h, List.mem_map]
  simp

/-- A loop has results at all exactly if each of its turns has one. -/
lemma exists_mapM_eq_ok_iff {f : α → Except Error β} {as : List α} :
    (∃ bs, as.mapM f = .ok bs) ↔ ∀ a ∈ as, ∃ b, f a = .ok b := by
  induction as with
  | nil => exact iff_of_true ⟨[], rfl⟩ (List.forall_mem_nil _)
  | cons a as ih =>
    simp only [List.mapM_cons, bind_eq_ok_iff, List.forall_mem_cons, ← ih]
    constructor
    · rintro ⟨_, b, hb, bs, hbs, -⟩
      exact ⟨⟨b, hb⟩, bs, hbs⟩
    · rintro ⟨⟨b, hb⟩, bs, hbs⟩
      exact ⟨b :: bs, b, hb, bs, hbs, rfl⟩

/-- A loop fails by the first of its turns that does, whatever the later ones would do.

**Proof sketch.** Induction on the turns. The first one fails itself, or it has a result and is one
of those in front of the turn that fails. -/
theorem mapM_eq_error_iff {f : α → Except Error β} {as : List α} {e : Error} :
    as.mapM f = .error e ↔ ∃ before a after, as = before ++ a :: after ∧
      (∀ b ∈ before, ∃ x, f b = .ok x) ∧ f a = .error e := by
  induction as with
  | nil => simp [pure, Except.pure]
  | cons a as ih =>
    simp only [List.mapM_cons, bind_eq_error_iff, ih]
    constructor
    · rintro (ha | ⟨x, hx, ⟨before, b, after, rfl, hbefore, hb⟩ | ⟨xs, -, hpure⟩⟩)
      · exact ⟨[], a, as, rfl, List.forall_mem_nil _, ha⟩
      · exact ⟨a :: before, b, after, rfl, List.forall_mem_cons.mpr ⟨⟨x, hx⟩, hbefore⟩, hb⟩
      · cases hpure
    · rintro ⟨before, b, after, hsplit, hbefore, hb⟩
      cases before with
      | nil =>
        obtain ⟨rfl, rfl⟩ := List.cons.inj hsplit
        exact .inl hb
      | cons b' before =>
        obtain ⟨rfl, rfl⟩ := List.cons.inj hsplit
        obtain ⟨⟨x, hx⟩, hbefore⟩ := List.forall_mem_cons.mp hbefore
        exact .inr ⟨x, hx, .inl ⟨before, b, after, rfl, hbefore, hb⟩⟩

/-! ## Errors of a kind -/

/-- Each error of an attempt has the property `P`. -/
def FailsOnly (P : Error → Prop) (x : Except Error α) : Prop :=
  ∀ e, x = .error e → P e

namespace FailsOnly

variable {P Q : Error → Prop} {x : Except Error α}

/-- A result is no error. -/
lemma ok (a : α) : FailsOnly P (.ok a : Except Error α) := nofun

/-- An error with the property is one. -/
lemma error {e : Error} (h : P e) : FailsOnly P (.error e : Except Error α) := by
  rintro _ ⟨⟩
  exact h

/-- A property may be weakened. -/
lemma mono (h : FailsOnly P x) (hPQ : ∀ e, P e → Q e) : FailsOnly Q x :=
  fun e he => hPQ e (h e he)

/-- The errors of attempts in sequence are those of the first and those of what follows it. -/
lemma bind {f : α → Except Error β} (h : FailsOnly P x) (hf : ∀ a, FailsOnly P (f a)) :
    FailsOnly P (x >>= f) := by
  cases x with
  | error e => exact error (h e rfl)
  | ok a => exact hf a

/-- What is done with a result adds no error. -/
lemma map {f : α → β} (h : FailsOnly P x) : FailsOnly P (x.map f) := by
  cases x with
  | error e => exact error (h e rfl)
  | ok a => exact ok _

/-- The errors of a loop are those of its turns. -/
lemma mapM {f : α → Except Error β} (h : ∀ a, FailsOnly P (f a)) (as : List α) :
    FailsOnly P (as.mapM f) := by
  induction as with
  | nil => exact ok []
  | cons a as ih =>
    rw [List.mapM_cons]
    exact (h a).bind fun b => ih.bind fun bs => ok (b :: bs)

end FailsOnly

end OctalTape

import Mathlib.Control.Monad.Basic
import Mathlib.Tactic.SplitIfs
import OctalTape.Proofs.Machine.Resumption
import OctalTape.Proofs.Search.Guard

set_option relaxedAutoImplicit false
set_option autoImplicit false

/-!
# Searching under a greater step limit

A run that does not use up its step limit is the same under any greater one. A search makes many
runs, and it fails with the first run that fails. So if a search does not fail for its step limit,
none of its runs has used it up, and under a greater limit the search does the same: it has the
same result, and it comes to it by the same events.

## Main definitions

* `OctalTape.Report.AgreesUnless` — a report that is the same as another, unless that one has
  failed with a given error.

## Main results

* `OctalTape.Program.outputOf_eq_of_le` — the output of a seed under a greater limit.
* `OctalTape.Report.AgreesUnless.bind` and its companions — how agreement goes through sequences,
  loops and alternatives.
* `OctalTape.search_agreesUnless` — the descent over two ways in which outputs depend on seeds.
* `OctalTape.SeedSearch.findSeed_eq_of_le` — a whole search, and the guard alone.
-/

namespace OctalTape

/-- The output of a seed, or the error of its run, is the same under a greater limit, unless the
run has used up the lesser one. -/
theorem Program.outputOf_eq_of_le {p : Program} {limit limit' : ℕ} (h : limit ≤ limit') {a : Word}
    (hout : p.outputOf limit a ≠ .error (.stepLimitExceeded limit)) :
    p.outputOf limit' a = p.outputOf limit a := by
  have hresult : (p.run limit (.start (.ofSeed a))).1 ≠ .error (.stepLimitExceeded limit) := by
    intro hexhausted
    apply hout
    rw [outputOf_eq_map, hexhausted]
    rfl
  rw [outputOf_eq_map, outputOf_eq_map, run_eq_of_le h hresult]

/-! ## Reports that agree -/

namespace Report

variable {α β : Type} {e : Error}

/-- The second report is the same as the first, unless the first has failed with the error `e`. -/
def AgreesUnless (e : Error) (r r' : Report α) : Prop :=
  r.result ≠ .error e → r' = r

namespace AgreesUnless

/-- A report agrees with itself. -/
lemma refl (r : Report α) : AgreesUnless e r r := fun _ => rfl

/-- Observed results agree if the results do. -/
lemma observe {event : Except Error α → Event} {x x' : Except Error α}
    (h : x ≠ .error e → x' = x) : AgreesUnless e (observe event x) (observe event x') := by
  intro hne
  rw [h hne]

/-- Sequences agree if their parts do.

**Proof sketch.** If the sequence does not end with the error, neither does its first part, which
is then the same, and so is the second. -/
lemma bind {r r' : Report α} {f f' : α → Report β} (h : AgreesUnless e r r')
    (hf : ∀ a, AgreesUnless e (f a) (f' a)) : AgreesUnless e (r >>= f) (r' >>= f') := by
  intro hne
  cases hr : r.result with
  | error d =>
    rw [result_bind_of_error hr] at hne
    have hr' : r' = r := by
      apply h
      intro heq
      rw [hr, Except.error.injEq] at heq
      exact hne (by rw [heq])
    rw [hr', bind_of_error hr, bind_of_error hr]
  | ok a =>
    rw [result_bind_of_ok hr] at hne
    have hr' : r' = r := h (by simp [hr])
    rw [hr', bind_of_ok hr, bind_of_ok hr, hf a hne]

/-- Loops agree if their turns do. -/
lemma forM {l : List α} {f f' : α → Report Unit} (h : ∀ a, AgreesUnless e (f a) (f' a)) :
    AgreesUnless e (l.forM f) (l.forM f') := by
  induction l with
  | nil => exact refl _
  | cons a l ih => exact (h a).bind fun _ => ih

/-- Alternatives agree one by one. -/
lemma firstOf {l : List α} {f f' : α → Report (Option β)}
    (h : ∀ a, AgreesUnless e (f a) (f' a)) :
    AgreesUnless e (firstOf l f) (firstOf l f') := by
  induction l with
  | nil => exact refl _
  | cons a l ih =>
    unfold Report.firstOf
    apply (h a).bind
    intro found
    cases found with
    | none => exact ih
    | some b => exact refl _

end AgreesUnless

end Report

open Report (AgreesUnless)

/-! ## The descent -/

/-- If seeds have the same outputs in two ways, apart from seeds whose run fails with `e` in the
first, then the descents agree, unless the first fails with `e`.

**Proof sketch.** Induction along the descent. It goes through the same candidates, runs each, and
then makes the same tests or descends further. -/
theorem search_agreesUnless {out out' : Word → Except Error (List UInt8)} {e : Error}
    (h : ∀ a, out a ≠ .error e → out' a = out a) (target : List UInt8) (stem : Word)
    (depth matched : ℕ) :
    AgreesUnless e (search out target stem depth matched)
      (search out' target stem depth matched) := by
  induction stem, depth, matched using search.induct target with
  | case1 stem depth matched ih =>
    rw [search, search]
    apply AgreesUnless.firstOf
    intro candidate
    apply (AgreesUnless.observe (h candidate)).bind
    intro output
    split_ifs with hfound hlong hgo
    · exact .refl _
    · exact .refl _
    · apply (AgreesUnless.refl _).bind
      intro _
      exact ih candidate output hgo
    · exact .refl _

namespace SeedSearch

variable {q : SeedSearch} {limit : ℕ}

/-! ## The whole search -/

/-- The outputs of seeds under a greater limit. -/
lemma output_eq_of_le (h : q.stepLimit ≤ limit) {a : Word}
    (hout : q.output a ≠ .error (.stepLimitExceeded q.stepLimit)) :
    output { q with stepLimit := limit } a = q.output a :=
  Program.outputOf_eq_of_le h hout

/-- The guard under a greater limit. -/
lemma guard_agreesUnless (h : q.stepLimit ≤ limit) :
    AgreesUnless (.stepLimitExceeded q.stepLimit) q.guard
      (guard { q with stepLimit := limit }) := by
  apply AgreesUnless.forM
  intro digits
  exact (AgreesUnless.observe (output_eq_of_le h)).bind fun _ => .refl _

/-- The descent under a greater limit, with the events around it. The last of these counts what
the descent has done. -/
lemma find_agreesUnless (h : q.stepLimit ≤ limit) :
    AgreesUnless (.stepLimitExceeded q.stepLimit) q.find
      (find { q with stepLimit := limit }) := by
  intro hne
  rw [result_find] at hne
  have hdescend : descend { q with stepLimit := limit } = q.descend :=
    search_agreesUnless (fun _ => output_eq_of_le h) q.target 0 0 0 hne
  unfold find
  rw [hdescend]

/-- **A greater step limit never changes an answer.** If a search does not fail for its step
limit, then under any greater limit it has the same result, be that a seed, nothing or an error,
and it makes the same events, so that its tally is the same. So does the guard alone. -/
theorem findSeed_eq_of_le (q : SeedSearch) (limit : ℕ) (h : q.stepLimit ≤ limit) :
    let q' : SeedSearch := { q with stepLimit := limit }
    (q.findSeed.result ≠ .error (.stepLimitExceeded q.stepLimit) →
      q'.findSeed.result = q.findSeed.result ∧ q'.findSeed.events = q.findSeed.events ∧
        Tally.ofEvents q'.findSeed.events = Tally.ofEvents q.findSeed.events) ∧
    (q.guard.result ≠ .error (.stepLimitExceeded q.stepLimit) →
      q'.guard.result = q.guard.result) := by
  intro q'
  have hagrees : AgreesUnless (.stepLimitExceeded q.stepLimit) q.findSeed q'.findSeed := by
    show AgreesUnless _ (if q.guarded then _ else _) (if q.guarded then _ else _)
    split_ifs
    · exact (guard_agreesUnless h).bind fun _ => find_agreesUnless h
    · exact find_agreesUnless h
  refine ⟨fun hne => ?_, fun hne => ?_⟩
  · rw [hagrees hne]
    exact ⟨rfl, rfl, rfl⟩
  · rw [guard_agreesUnless h hne]

/-- The question for a seed from which a program emits zero and one, its octal digits, under a
limit of three steps for each of two digits. -/
def tightSearch : SeedSearch where
  program := ⟨#[5, 4, 0, 3, 3, 0], rfl, by simp⟩
  target := [0, 1]
  stepLimit := 6

/-- The limit of the tight search is just enough to find eight, and under a greater limit it is
found with the same tally. -/
theorem findSeed_tightSearch :
    let q' : SeedSearch := { tightSearch with stepLimit := 1000 }
    tightSearch.stepLimit ≤ 1000 ∧
      tightSearch.findSeed.result ≠ .error (.stepLimitExceeded 6) ∧
      tightSearch.guard.result ≠ .error (.stepLimitExceeded 6) ∧
      q'.findSeed.result = .ok (some 8) ∧
      Tally.ofEvents q'.findSeed.events = ⟨3, [⟨0, 1⟩]⟩ ∧ q'.guard.result = .ok () := by
  intro q'
  have hle : tightSearch.stepLimit ≤ 1000 := by decide
  have hfound : tightSearch.findSeed.result = .ok (some 8) := by decide +kernel
  have htally : Tally.ofEvents tightSearch.findSeed.events = ⟨3, [⟨0, 1⟩]⟩ := by
    decide +kernel
  have hguard : tightSearch.guard.result = .ok () := by decide +kernel
  have hne : tightSearch.findSeed.result ≠ .error (.stepLimitExceeded 6) := by simp [hfound]
  have hne' : tightSearch.guard.result ≠ .error (.stepLimitExceeded 6) := by simp [hguard]
  obtain ⟨hfind, hprobe⟩ := findSeed_eq_of_le tightSearch 1000 hle
  obtain ⟨hresult, -, hevents⟩ := hfind hne
  refine ⟨hle, hne, hne', ?_, ?_, ?_⟩
  · rw [hresult, hfound]
  · rw [hevents, htally]
  · rw [hprobe hne', hguard]

end SeedSearch

end OctalTape

import Mathlib.Tactic.SplitIfs
import OctalTape.Proofs.Search.Visit

set_option relaxedAutoImplicit false
set_option autoImplicit false

/-!
# Two tests of the search that are implied

The search turns away a candidate whose output is longer than the target, and it goes down only as
long as its depth leaves room for another value. Neither matters. An output that is too long is no
part of the end of the target; and where the search goes down, the output has become longer with
each digit, so that the depth is less than its length, which is less than that of the target. The
search without the two tests does the same.

## Main definitions

* `OctalTape.plainSearch` — the search without the two tests.

## Main results

* `OctalTape.search_eq_plainSearch` — no call whose depth is at most the length matched is changed.
* `OctalTape.depth_lt_of_descended` — the search makes no other calls.
* `OctalTape.SeedSearch.two_tests_redundant` — all together, for any question.
-/

namespace OctalTape

/-- The search without its tests on the length of an output and on the depth: it goes down exactly
to those candidates whose output differs from the target, is a part of its end, and is longer than
before. -/
def plainSearch (out : Word → Except Error (List UInt8)) (target : List UInt8)
    (stem : Word) (depth matched : ℕ) : Report (Option Word) :=
  Report.firstOf (extensions stem) fun candidate => do
    let output ← Report.observe (.tried candidate) (out candidate)
    if hfound : output = target then
      return some candidate
    else if hgo : output <:+ target ∧ matched < output.length then
      Report.tell (.descended depth candidate output)
      plainSearch out target candidate (depth + 1) output.length
    else
      return none
termination_by target.length - matched
decreasing_by
  have hshort := length_lt_of_isSuffix_of_ne hgo.1 hfound
  omega

section Search

variable {out : Word → Except Error (List UInt8)} {target : List UInt8}

/-- **The two tests are redundant.** Wherever the depth is at most the length matched, the search
reports the same as the search without the tests.

**Proof sketch.** Induction on how much longer the target is than what is matched. Both go through
the same candidates, and the tests that are left decide in the same way
(`search_eq_firstOf_visit`). A candidate to which both go down has a longer output, so the depth is
again at most the length matched. -/
theorem search_eq_plainSearch {depth matched : ℕ} (h : depth ≤ matched) (stem : Word) :
    search out target stem depth matched = plainSearch out target stem depth matched := by
  induction hn : target.length - matched using Nat.strong_induction_on
    generalizing stem depth matched with
  | _ n ih =>
    rw [search_eq_firstOf_visit h, plainSearch]
    refine Report.firstOf_congr fun candidate _ => ?_
    unfold visit
    congr 1
    funext output
    split_ifs with hfound hgo hgo' hgo'
    · rfl
    · have hshort := length_lt_of_isSuffix_of_ne hgo.2 hfound
      rw [ih (target.length - output.length) (by omega) (by omega) candidate rfl]
    · exact absurd hgo.symm hgo'
    · exact absurd hgo'.symm hgo
    · rfl

/-- **The depth stays below the length matched**, and that below the length of the target. Where
the search goes down from `depth` to the extensions of a candidate, it calls itself one deeper,
with the length of the candidate's output as the length matched.

**Proof sketch.** Induction along the search. The first call from it is one deeper, and has matched
one more at least; the calls from that are covered by the induction. -/
theorem depth_lt_of_descended {stem : Word} {depth matched d : ℕ} {candidate : Word}
    {output : List UInt8} (h : depth ≤ matched)
    (hdown : .descended d candidate output ∈ (search out target stem depth matched).events) :
    d + 1 ≤ output.length ∧ output.length < target.length := by
  induction stem, depth, matched using search.induct target with
  | case1 stem depth matched ih =>
    rw [search] at hdown
    obtain ⟨candidate', -, hdown⟩ := Report.exists_mem_of_mem_events_firstOf hdown
    rcases Report.mem_events_bind_iff.mp hdown with htried | ⟨output', -, hdown⟩
    · cases List.mem_singleton.mp htried
    split_ifs at hdown with hfound hlong hgo
    · cases hdown
    · cases hdown
    · rcases Report.mem_events_bind_iff.mp hdown with hhere | ⟨_, -, hdeep⟩
      · cases List.mem_singleton.mp hhere
        exact ⟨by omega, length_lt_of_isSuffix_of_ne hgo.2.2 hfound⟩
      · exact ih candidate' output' hgo (by omega) hdeep
    · cases hdown

end Search

namespace SeedSearch

/-- The guard does not go down. -/
lemma descended_not_mem_events_guard {q : SeedSearch} {depth : ℕ} {candidate : Word}
    {output : List UInt8} : .descended depth candidate output ∉ q.guard.events := by
  intro h
  obtain ⟨digits, -, hprobe⟩ := Report.exists_mem_of_mem_events_forM h
  rcases Report.mem_events_bind_iff.mp hprobe with hprobed | ⟨_, -, hrest⟩
  · cases List.mem_singleton.mp hprobed
  · split_ifs at hrest <;> cases hrest

/-- Where a search goes down, its descent does.

**Proof sketch.** The events of a search are those of the guard, one for the begin, those of the
descent, and one for the end, and of these only the descent goes down. -/
lemma descended_mem_events_descend {q : SeedSearch} {depth : ℕ} {candidate : Word}
    {output : List UInt8} (h : .descended depth candidate output ∈ q.findSeed.events) :
    .descended depth candidate output ∈ q.descend.events := by
  have hfind : .descended depth candidate output ∈ q.find.events := by
    cases hguarded : q.guarded with
    | false =>
      rw [findSeed, hguarded] at h
      exact h
    | true =>
      rw [findSeed, hguarded] at h
      rcases Report.mem_events_bind_iff.mp h with hguard | ⟨_, -, hfind⟩
      · exact absurd hguard descended_not_mem_events_guard
      · exact hfind
  rcases Report.mem_events_bind_iff.mp hfind with hbegan | ⟨_, -, hrest⟩
  · cases List.mem_singleton.mp hbegan
  rcases Report.mem_events_bind_iff.mp hrest with hdescend | ⟨_, -, hrest⟩
  · exact hdescend
  rcases Report.mem_events_bind_iff.mp hrest with hended | ⟨_, -, hrest⟩
  · cases List.mem_singleton.mp hended
  · cases hrest

/-- **Two tests of the search are redundant**, whatever the program, the target and the step limit
are. Every call of the search whose depth is at most the length matched reports the same result or
error, the same events, and so the same runs and descents, as the search that goes down exactly to
those candidates whose output differs from the target, is a part of its end, and is longer than
what is matched. All calls that a search for a seed makes are such: the first has depth zero, with
nothing matched; and each other one is made behind an event of going down, one deeper than that,
with the length of its output as the length matched. -/
theorem two_tests_redundant (q : SeedSearch) :
    (∀ stem depth matched, depth ≤ matched →
      search q.output q.target stem depth matched =
        plainSearch q.output q.target stem depth matched) ∧
    q.descend = plainSearch q.output q.target 0 0 0 ∧
    ∀ depth candidate output, .descended depth candidate output ∈ q.findSeed.events →
      depth + 1 ≤ output.length ∧ output.length < q.target.length :=
  ⟨fun stem _ _ h => search_eq_plainSearch h stem, search_eq_plainSearch (Nat.le_refl 0) 0,
    fun _ _ _ h => depth_lt_of_descended (Nat.le_refl 0) (descended_mem_events_descend h)⟩

/-- The question for a seed from which a program emits one and zero, by emitting the second octal
digit of what is left and then that behind it. -/
def secondDigitSearch : SeedSearch where
  program := ⟨#[0, 1, 0, 2, 5, 4, 3, 0], rfl, by simp⟩
  target := [1, 0]

/-- The call that finds eight behind the digit one is the same without the two tests. -/
theorem two_tests_redundant_secondDigitSearch :
    let q := secondDigitSearch
    1 ≤ 1 ∧ (search q.output q.target 1 1 1).result = .ok (some 8) ∧
      search q.output q.target 1 1 1 = plainSearch q.output q.target 1 1 1 := by
  intro q
  exact ⟨Nat.le_refl 1, by decide +kernel, (two_tests_redundant q).1 1 1 1 (Nat.le_refl 1)⟩

/-- A call that is deeper than anything has been matched is another matter: here the test on the
depth keeps it from the seed. -/
example :
    let q := secondDigitSearch
    (search q.output q.target 0 1 0).result = .ok none ∧
      (plainSearch q.output q.target 0 1 0).result = .ok (some 8) := by
  decide +kernel

end SeedSearch

end OctalTape

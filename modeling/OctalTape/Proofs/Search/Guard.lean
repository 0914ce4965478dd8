import Mathlib.Algebra.Group.Nat.Defs
import OctalTape.Search.SeedSearch
import OctalTape.Proofs.Search.Results

set_option relaxedAutoImplicit false
set_option autoImplicit false

/-!
# What the guard accepts

The guard runs the least seed of each number of octal digits, up to the length of the target or
to the longest word. It accepts a program if each of these runs emits as many values as its seed
has digits, and then it leaves the search to the descent.

## Main results

* `OctalTape.SeedSearch.toNat_leastWithDigits` — the least seed with some digits is a power of
  eight.
* `OctalTape.SeedSearch.result_guard_eq_ok_iff` — which programs the guard accepts.
* `OctalTape.SeedSearch.result_findSeed_of_guard` — behind a guard that accepts the program, the
  descent decides.
* `OctalTape.SeedSearch.result_descend_of_findSeed_eq_ok` — what a search finds, or does not find,
  is what its descent does.
* `OctalTape.SeedSearch.findSeed_cases` — the result and the tally of a search are those of its
  descent, unless the guard has failed.
-/

namespace OctalTape

namespace SeedSearch

/-! ## Probes -/

/-- The least seed with some digits is a power of eight. -/
lemma toNat_leastWithDigits {digits : ℕ} (h : digits ≤ maxDigits) :
    (leastWithDigits digits).toNat = 8 ^ (digits - 1) := by
  apply UInt64.toNat_ofNat_of_lt'
  have hle : digits - 1 ≤ 21 := by
    simp only [maxDigits] at h
    omega
  calc 8 ^ (digits - 1) ≤ 8 ^ 21 := Nat.pow_le_pow_right (by decide) hle
    _ < UInt64.size := by decide

/-- A probe is passed if the run emits one value for each digit. -/
lemma result_probe_eq_ok_iff {q : SeedSearch} {digits : ℕ} :
    (q.probe digits).result = .ok () ↔
      ∃ output, q.output (leastWithDigits digits) = .ok output ∧ output.length = digits := by
  rw [probe, Report.result_bind_eq_ok_iff]
  refine exists_congr fun output => and_congr_right fun _ => ?_
  split
  · next h => exact iff_of_true rfl h
  · next h => exact iff_of_false nofun h

/-- The guard accepts a program if, for each number of octal digits up to the length of the
target and to the longest word, the least seed with them emits one value for each of them. -/
theorem result_guard_eq_ok_iff {q : SeedSearch} :
    q.guard.result = .ok () ↔ ∀ digits, 1 ≤ digits → digits ≤ min q.target.length maxDigits →
      ∃ output, q.output (leastWithDigits digits) = .ok output ∧ output.length = digits := by
  rw [guard, Report.result_forM_eq_ok_iff]
  simp only [List.mem_range'_1, result_probe_eq_ok_iff]
  refine forall_congr' fun digits => ⟨fun h h1 hle => h ⟨h1, by omega⟩, fun h hd => ?_⟩
  exact h hd.1 (by omega)

/-! ## The search behind the guard -/

/-- The events around the descent do not change what it results in. -/
lemma result_find (q : SeedSearch) : q.find.result = q.descend.result := by
  rw [find, Report.result_bind_of_ok (a := ()) rfl]
  cases h : q.descend.result with
  | error e => exact Report.result_bind_of_error h _
  | ok found => exact Report.result_bind_of_ok h _

/-- Without the guard, a search results in what its descent does. -/
lemma result_findSeed_of_not_guarded {q : SeedSearch} (h : q.guarded = false) :
    q.findSeed.result = q.descend.result := by
  rw [findSeed, h, ← result_find]
  rfl

/-- A search that the guard accepts results in what its descent does. -/
lemma result_findSeed_of_guard {q : SeedSearch} (h : q.guard.result = .ok ()) :
    q.findSeed.result = q.descend.result := by
  cases hguarded : q.guarded with
  | false => exact result_findSeed_of_not_guarded hguarded
  | true =>
    rw [findSeed, hguarded, ← result_find]
    exact Report.result_bind_of_ok h _

/-- A search that does not fail results in what its descent does, whether it is guarded or not. -/
lemma result_descend_of_findSeed_eq_ok {q : SeedSearch} {found : Option Word}
    (h : q.findSeed.result = .ok found) : q.descend.result = .ok found := by
  cases hguarded : q.guarded with
  | false => rwa [← result_findSeed_of_not_guarded hguarded]
  | true =>
    have hguard : q.guard.result = .ok () := by
      rw [findSeed, hguarded] at h
      obtain ⟨_, hguard, -⟩ := Report.result_bind_eq_ok_iff.mp h
      exact hguard
    rwa [← result_findSeed_of_guard hguard]

/-! ## Tallies -/

/-- The probes of the guard are not counted. -/
lemma tally_guard (q : SeedSearch) : Tally.ofEvents q.guard.events = {} := by
  refine Report.tally_forM fun digits => ?_
  rw [probe]
  cases h : q.output (leastWithDigits digits) with
  | error e => rw [Report.bind_of_error (e := e) rfl]; rfl
  | ok output =>
    rw [Report.bind_of_ok (a := output) rfl]
    split <;> rfl

/-- The events around the descent do not count. -/
lemma tally_find (q : SeedSearch) :
    Tally.ofEvents q.find.events = Tally.ofEvents q.descend.events := by
  rw [find, Report.bind_of_ok (a := ()) rfl]
  cases h : q.descend.result with
  | error e =>
    rw [Report.bind_of_error h]
    simp [Report.tell, Tally.ofEvent, Tally.add]
  | ok found =>
    rw [Report.bind_of_ok h, Report.bind_of_ok (a := ()) rfl]
    simp [Report.tell, Tally.ofEvent, Tally.add, Tally.ofEvents_append]

/-- **What a search reports**: the error of the guard and an empty tally, or the result and the
tally of the descent.

**Proof sketch.** Without the guard a search is its descent between two events that are not
tallied. With it, the guard goes in front: its error ends the search, and otherwise it adds nothing
to the tally. -/
lemma findSeed_cases (q : SeedSearch) :
    (∃ e, q.guarded = true ∧ q.guard.result = .error e ∧ q.findSeed.result = .error e ∧
      Tally.ofEvents q.findSeed.events = {}) ∨
    ((q.guarded = true → q.guard.result = .ok ()) ∧ q.findSeed.result = q.descend.result ∧
      Tally.ofEvents q.findSeed.events = Tally.ofEvents q.descend.events) := by
  cases hguarded : q.guarded with
  | false =>
    refine .inr ⟨nofun, result_findSeed_of_not_guarded hguarded, ?_⟩
    rw [findSeed, hguarded, ← tally_find]
    rfl
  | true =>
    have hseed : q.findSeed = q.guard >>= fun _ => q.find := by
      rw [findSeed, hguarded]
      rfl
    cases hguard : q.guard.result with
    | error e =>
      refine .inl ⟨e, rfl, rfl, ?_⟩
      rw [hseed, Report.bind_of_error hguard]
      exact ⟨rfl, q.tally_guard⟩
    | ok _ =>
      refine .inr ⟨fun _ => rfl, result_findSeed_of_guard hguard, ?_⟩
      rw [hseed, Report.bind_of_ok hguard, Tally.ofEvents_append, q.tally_guard, tally_find]
      simp [Tally.add]

end SeedSearch

end OctalTape

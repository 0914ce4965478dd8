import Mathlib.Tactic.Ring
import OctalTape.Proofs.Search.Guard
import OctalTape.Search.Session

set_option relaxedAutoImplicit false
set_option autoImplicit false

/-!
# What the guard reports

The guard reports the first number of octal digits at which the outputs do not grow as they should:
the run from the least seed with so many digits has a fault, or makes another number of outputs.
What is reported ends a guarded search before it has begun. If there is nothing to report, the guard
leaves no trace: the search has the result and the tally that it has without a guard.

## Main definitions

* `OctalTape.SeedSearch.GrowsAt` — at a number of digits the outputs grow as they should.
* `OctalTape.SeedSearch.FailsAt` — they do not, and this is the error.

## Main results

* `OctalTape.SeedSearch.le_maxDigits_iff` — the numbers of digits for which the least seed is a
  word.
* `OctalTape.SeedSearch.result_guard_eq_error_iff` — which programs the guard refuses, and how.
* `OctalTape.SeedSearch.findSeed_guarded_of_error`, `OctalTape.SeedSearch.findSeed_guarded_of_ok` —
  the search behind the guard.
* `OctalTape.Seeker.guard_verdict` — all together, in whatever state a search is asked for.
-/

namespace OctalTape

namespace SeedSearch

variable {q : SeedSearch} {digits : ℕ} {e : Error}

/-! ## Seeds with few digits -/

/-- The run from the least seed with this number of octal digits halts, and emits one value for each
of them. -/
def GrowsAt (q : SeedSearch) (digits : ℕ) : Prop :=
  ∃ seed : Word, seed.toNat = 8 ^ (digits - 1) ∧
    ∃ output, q.output seed = .ok output ∧ output.length = digits

/-- The run from the least seed with this number of octal digits has a fault, and the error is that
of the run; or it emits another number of values, and the error tells both. -/
def FailsAt (q : SeedSearch) (digits : ℕ) (e : Error) : Prop :=
  ∃ seed : Word, seed.toNat = 8 ^ (digits - 1) ∧
    (q.output seed = .error e ∨
      ∃ output, q.output seed = .ok output ∧ output.length ≠ digits ∧
        e = .irregularOutputGrowth digits output.length)

/-- The least seed with some octal digits is a word for no more than the longest word has. -/
lemma le_maxDigits_iff (h : 1 ≤ digits) : digits ≤ maxDigits ↔ 8 ^ (digits - 1) < 2 ^ 64 := by
  have hpow : 8 ^ (digits - 1) = 2 ^ (3 * (digits - 1)) := by rw [Nat.pow_mul]
  rw [hpow, Nat.pow_lt_pow_iff_right (by decide), maxDigits]
  omega

/-- The least seed with some octal digits is the one that the guard runs. -/
lemma exists_seed_iff {P : Word → Prop} (h : digits ≤ maxDigits) :
    (∃ seed : Word, seed.toNat = 8 ^ (digits - 1) ∧ P seed) ↔ P (leastWithDigits digits) := by
  constructor
  · rintro ⟨seed, hseed, hP⟩
    rw [← toNat_leastWithDigits h] at hseed
    rwa [← UInt64.toNat_inj.mp hseed]
  · exact fun hP => ⟨leastWithDigits digits, toNat_leastWithDigits h, hP⟩

/-- A probe is passed if the outputs grow as they should. -/
lemma result_probe_eq_ok_iff_growsAt (h : digits ≤ maxDigits) :
    (q.probe digits).result = .ok () ↔ q.GrowsAt digits := by
  rw [result_probe_eq_ok_iff, GrowsAt, exists_seed_iff h]

/-- A probe fails if the outputs do not grow as they should.

**Proof sketch.** The probe runs the program once. It fails as the run does, or for the length of
its output. -/
lemma result_probe_eq_error_iff (h : digits ≤ maxDigits) :
    (q.probe digits).result = .error e ↔ q.FailsAt digits e := by
  rw [FailsAt, exists_seed_iff h, probe]
  cases hrun : q.output (leastWithDigits digits) with
  | error e' =>
    rw [Report.result_bind_of_error (e := e') rfl]
    simp
  | ok output =>
    rw [Report.result_bind_of_ok (a := output) rfl]
    split
    · next hlen => simp [hlen]
    · next hlen =>
      constructor
      · rintro ⟨⟩
        exact .inr ⟨output, rfl, hlen, rfl⟩
      · rintro (hfault | ⟨output', ⟨⟩, -, rfl⟩)
        · cases hfault
        · rfl

/-! ## The guard -/

/-- The guard refuses a program at the first number of octal digits, up to the length of the target
and to the longest word, at which the outputs do not grow as they should.

**Proof sketch.** The guard makes the probes for `1`, `2`, … in turn, and fails at the first that
does (`Report.result_forM_eq_error_iff`). The list of these numbers is cut there, and the numbers
in front of the cut are those below it. -/
theorem result_guard_eq_error_iff :
    q.guard.result = .error e ↔ ∃ digits, 1 ≤ digits ∧ digits ≤ min q.target.length maxDigits ∧
      (∀ fewer, 1 ≤ fewer → fewer < digits → q.GrowsAt fewer) ∧ q.FailsAt digits e := by
  rw [guard, Report.result_forM_eq_error_iff]
  constructor
  · rintro ⟨before, digits, after, hsplit, hbefore, hfails⟩
    obtain ⟨k, hk, rfl, hrest⟩ := List.range'_eq_append_iff.mp hsplit
    obtain ⟨hdigits, hpos, -⟩ := List.range'_eq_cons_iff.mp hrest.symm
    have hle : digits ≤ min q.target.length maxDigits := by omega
    refine ⟨digits, by omega, hle, fun fewer h1 hlt => ?_, ?_⟩
    · rw [← result_probe_eq_ok_iff_growsAt (by omega)]
      exact hbefore fewer (List.mem_range'_1.mpr (by omega))
    · rwa [← result_probe_eq_error_iff (by omega)]
  · rintro ⟨digits, hpos, hle, hbefore, hfails⟩
    refine ⟨List.range' 1 (digits - 1), digits,
      List.range' (digits + 1) (min q.target.length maxDigits - digits), ?_,
      fun fewer hfewer => ?_, ?_⟩
    · rw [List.range'_eq_append_iff]
      refine ⟨digits - 1, by omega, rfl, ?_⟩
      rw [eq_comm, List.range'_eq_cons_iff]
      exact ⟨by omega, by omega, by congr 1; omega⟩
    · rw [List.mem_range'_1] at hfewer
      rw [result_probe_eq_ok_iff_growsAt (by omega)]
      exact hbefore fewer hfewer.1 (by omega)
    · rwa [result_probe_eq_error_iff (by omega)]

/-! ## The search behind the guard -/

/-- What the guard reports, the guarded search reports. It counts nothing. -/
lemma findSeed_guarded_of_error (h : q.guard.result = .error e) :
    let guarded : SeedSearch := { q with guarded := true }
    guarded.findSeed.result = .error e ∧ Tally.ofEvents guarded.findSeed.events = {} := by
  intro guarded
  have hguard : guarded.guard.result = .error e := h
  rcases guarded.findSeed_cases with ⟨e', -, hguard', hresult, htally⟩ | ⟨hok, -, -⟩
  · rw [hguard] at hguard'
    cases hguard'
    exact ⟨hresult, htally⟩
  · rw [hguard] at hok
    cases hok rfl

/-- If the guard has nothing to report, the guarded search does what the search without a guard
does. -/
lemma findSeed_guarded_of_ok (h : q.guard.result = .ok ()) :
    let guarded : SeedSearch := { q with guarded := true }
    let free : SeedSearch := { q with guarded := false }
    guarded.findSeed.result = free.findSeed.result ∧
      Tally.ofEvents guarded.findSeed.events = Tally.ofEvents free.findSeed.events := by
  intro guarded free
  have hguard : guarded.guard.result = .ok () := h
  rcases guarded.findSeed_cases with ⟨e, -, herror, -⟩ | ⟨-, hresult, htally⟩
  · rw [hguard] at herror
    cases herror
  rcases free.findSeed_cases with ⟨e, hon, -⟩ | ⟨-, hresult', htally'⟩
  · cases hon
  · -- the descent does not look at the guard
    exact ⟨hresult.trans hresult'.symm, htally.trans htally'.symm⟩

end SeedSearch

/-- **The guard reports the first irregular probe, and nothing else.** Let `K` be the length of the
target, or `22` if that is less, so that the powers `8 ^ (k - 1)` for `k` up to `K` are those that
fit into a word. The guard accepts a program if the run from each of them halts with `k` outputs.
Otherwise it reports, for the least `k` for which this is not so, the fault of the run, or the
number of its outputs. A guarded search reports the same, with a tally of nothing, whatever was
tallied before; and if the guard accepts the program, the search has the same result and the same
tally as without a guard.

**Proof sketch.** The parts are `result_guard_eq_ok_iff`, `result_guard_eq_error_iff` and what a
guarded search makes of each verdict; a power of eight below `2 ^ 64` is one with at most 22 digits
(`le_maxDigits_iff`). -/
theorem Seeker.guard_verdict (s : Seeker) :
    let q := s.query
    let K := min q.target.length 22
    let guarded : Seeker := { s with query := { q with guarded := true } }
    let free : Seeker := { s with query := { q with guarded := false } }
    (∀ k, 1 ≤ k → (k ≤ K ↔ k ≤ q.target.length ∧ 8 ^ (k - 1) < 2 ^ 64)) ∧
    (q.guard.result = .ok () ↔ ∀ k, 1 ≤ k → k ≤ K → q.GrowsAt k) ∧
    (∀ e, q.guard.result = .error e ↔ ∃ k, 1 ≤ k ∧ k ≤ K ∧
      (∀ j, 1 ≤ j → j < k → q.GrowsAt j) ∧ q.FailsAt k e) ∧
    (∀ e, q.guard.result = .error e →
      guarded.perform .findSeed = (.found (.error e), { guarded with tally := {} })) ∧
    (q.guard.result = .ok () →
      (guarded.perform .findSeed).1 = (free.perform .findSeed).1 ∧
      (guarded.perform .findSeed).2.tally = (free.perform .findSeed).2.tally) := by
  intro q K guarded free
  refine ⟨fun k hk => ?_, ?_, fun e => SeedSearch.result_guard_eq_error_iff, fun e he => ?_,
    fun hok => ?_⟩
  · rw [← SeedSearch.le_maxDigits_iff hk]
    exact Nat.le_min
  · rw [SeedSearch.result_guard_eq_ok_iff]
    refine forall_congr' fun k => imp_congr_right fun _ => forall_congr' fun hk => ?_
    have hle : k ≤ SeedSearch.maxDigits := hk.trans (Nat.min_le_right _ _)
    rw [SeedSearch.GrowsAt, SeedSearch.exists_seed_iff hle]
  · obtain ⟨hresult, htally⟩ := SeedSearch.findSeed_guarded_of_error he
    show (Reply.found _, _) = _
    rw [hresult, htally]
  · obtain ⟨hresult, htally⟩ := SeedSearch.findSeed_guarded_of_ok hok
    exact ⟨congrArg Reply.found hresult, htally⟩

/-- A run that has a fault is reported as it is. -/
example : (SeedSearch.guard { program := ⟨#[5, 4, 0, 3, 3, 0, 5, 7], rfl, by simp⟩ }).result =
    .error (.reservedOperand 6) := by decide +kernel

end OctalTape

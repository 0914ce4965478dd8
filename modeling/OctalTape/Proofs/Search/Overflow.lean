import OctalTape.Proofs.Machine.Overflow
import OctalTape.Proofs.Search.GuardVerdict
import OctalTape.Proofs.Search.Histories

set_option relaxedAutoImplicit false
set_option autoImplicit false

/-!
# A search whose numbers have 64 bits

A search computes its candidates, the powers that its guard runs, and its depth. The *checked*
search makes each of these sums and differences only if the exact result fits, and runs its program
on the checked machine; otherwise it comes to nothing. It is the search itself, as long as the tape
and the target are not longer than a list in memory can be and the limits on the steps fit.

## Main definitions

* `OctalTape.Checked.search`, `OctalTape.Checked.guard` — the descent and the guard in checked
  arithmetic.
* `OctalTape.Checked.performSeeker` — what a seeker is asked, in checked arithmetic.
* `OctalTape.Seeker.Fits`, `OctalTape.Seeker.Request.Fits` — the numbers of a seeker and of a
  request fit.

## Main results

* `OctalTape.Checked.guard_eq`, `OctalTape.Checked.search_eq` — where the numbers fit, no check
  fails.
* `OctalTape.Checked.performSeeker_eq` — so none of the checks of a seeker ever fails.
* `OctalTape.nothing_overflows` — all together, for machines and for seekers.

## Implementation notes

The checked search is a report that may also come to nothing, `OptionT Report`; that no check fails
means that it is the report of the search, lifted. A product by eight is a multiple of eight, so
where it fits there is room for another digit. The depth stays below the length of the target
because it is compared with it before the search goes deeper. The checked search ends because the
outputs grow up to that length: what bounds its depth is to be proved, and not to be built in.
-/

namespace OctalTape

namespace Checked

/-! ## Checked words and differences -/

/-- A number as a word, unless it does not fit into one. -/
def word (n : ℕ) : Option Word := if n < UInt64.size then some (UInt64.ofNat n) else none

/-- A difference, unless it is negative. -/
def diff (m n : ℕ) : Option ℕ := if n ≤ m then some (m - n) else none

/-- Exactly the numbers from the size of a word on do not fit. -/
lemma word_eq_none_iff {n : ℕ} : word n = none ↔ UInt64.size ≤ n := by
  unfold word
  split <;> simp <;> omega

/-- A number is the word that has the same value. -/
lemma word_eq_some_iff {n : ℕ} {w : Word} : word n = some w ↔ w.toNat = n := by
  unfold word
  constructor
  · intro h
    split at h
    · next hlt =>
      cases h
      exact UInt64.toNat_ofNat_of_lt' hlt
    · cases h
  · rintro rfl
    rw [if_pos w.toNat_lt_size, UInt64.ofNat_toNat]

/-- The difference from a number that is no greater is the exact one. -/
lemma diff_of_le {m n : ℕ} (h : n ≤ m) : diff m n = some (m - n) := if_pos h

/-! ## Checked reports -/

section Reports

variable {α β γ : Type}

/-- What has been checked, without an event. -/
def need (x : Option α) : OptionT Report α := OptionT.mk (pure x)

/-- Go through the alternatives until one yields something. -/
def firstOf (alternatives : List α) (f : α → OptionT Report (Option β)) :
    OptionT Report (Option β) :=
  match alternatives with
  | [] => return none
  | a :: rest => do
    match ← f a with
    | some b => return some b
    | none => firstOf rest f

/-- A report, unless it comes to nothing. -/
def settle (x : OptionT Report α) : Option (Report α) :=
  match x.run with
  | ⟨.error e, events⟩ => some ⟨.error e, events⟩
  | ⟨.ok result, events⟩ => result.map fun a => ⟨.ok a, events⟩

/-- A check that does not fail leaves no trace. -/
@[simp]
theorem need_some (a : α) : need (some a) = pure a := rfl

/-- Alternatives of which none comes to nothing. -/
lemma firstOf_eq {l : List α} {f : α → OptionT Report (Option γ)} {g : β → Report (Option γ)}
    {k : α → β} (h : ∀ a ∈ l, f a = OptionT.lift (g (k a))) :
    firstOf l f = OptionT.lift (Report.firstOf (l.map k) g) := by
  induction l with
  | nil => rfl
  | cons a l ih =>
    rw [List.forall_mem_cons] at h
    rw [firstOf, h.1, ih h.2, List.map_cons, Report.firstOf, OptionT.lift_bind]
    congr 1
    funext found
    cases found <;> rfl

/-- A report that does not come to nothing has the same events. -/
lemma events_run_lift (r : Report α) : (OptionT.lift r).run.events = r.events := by
  rw [OptionT.run_lift]
  cases h : r.result with
  | error e => rw [Report.bind_of_error h]
  | ok a => rw [Report.bind_of_ok h, Report.events_pure, List.append_nil]

/-- A lifted report does not come to nothing. -/
lemma settle_lift (r : Report α) : settle (OptionT.lift r) = some r := by
  obtain ⟨result, events⟩ := r
  unfold settle
  rw [OptionT.run_lift]
  cases result with
  | error e => rfl
  | ok a => simp [Report.bind_of_ok]

end Reports

/-! ## The checked search -/

/-- Run the program from a seed; its result is an event. -/
def observe (q : SeedSearch) (event : Except Error (List UInt8) → Event) (seed : Word) :
    OptionT Report (List UInt8) := do
  let result ← need (outputOf q.program q.stepLimit seed)
  OptionT.lift (Report.observe event result)

/-- Count the outputs for some numbers of octal digits, up to the first whose least seed is no
word. -/
def guardFrom (q : SeedSearch) : List ℕ → OptionT Report Unit
  | [] => return ()
  | digits :: rest => do
    let exponent ← need (diff digits 1)
    match word (8 ^ exponent) with
    | none => return ()
    | some seed =>
      let output ← observe q (.probed seed) seed
      if output.length = digits then
        guardFrom q rest
      else
        OptionT.lift (Report.fail (.irregularOutputGrowth digits output.length))

/-- Count the outputs for each number of octal digits up to the length of the target. -/
def guard (q : SeedSearch) : OptionT Report Unit :=
  guardFrom q (List.range' 1 q.target.length)

/-- Look for a seed of the target among the numbers that begin with the digits of `stem`. -/
def search (q : SeedSearch) (stem : Word) (depth matched : ℕ) : OptionT Report (Option Word) :=
  match word (8 * stem.toNat) with
  | none => return none
  | some base =>
    firstOf octalDigits fun digit => do
      let candidate ← need (word (base.toNat + digit.toNat))
      let output ← observe q (.tried candidate) candidate
      if output = q.target then
        return some candidate
      else if hlong : q.target.length < output.length then
        return none
      else if hmatched : matched < output.length then
        let deeper ← need (fit (depth + 1))
        if deeper < q.target.length ∧ output <:+ q.target then
          OptionT.lift (Report.tell (.descended depth candidate output))
          search q candidate deeper output.length
        else
          return none
      else
        return none
termination_by q.target.length - matched

/-- The descent, between the events that tell of its beginning and its end. -/
def find (q : SeedSearch) : OptionT Report (Option Word) := do
  OptionT.lift (Report.tell (.began q.target))
  let descent := search q 0 0 0
  let found ← descent
  let tally := Tally.ofEvents descent.run.events
  OptionT.lift (Report.tell (.ended tally.runs tally.descents.length found))
  return found

/-- Look for the seed, behind the guard if it is wanted. -/
def findSeed (q : SeedSearch) : OptionT Report (Option Word) := do
  if q.guarded then
    guard q
  find q

/-- The reply to a request to a seeker, and the seeker after it. -/
def performSeeker (s : Seeker) : Seeker.Request → Option (Seeker.Reply × Seeker)
  | .findSeed => do
    let report ← settle (findSeed s.query)
    return (.found report.result, { s with tally := .ofEvents report.events })
  | .guard => do
    let report ← settle (guard s.query)
    return (.guarded report.result, s)
  | .setTarget target => return (.done, { s with query := { s.query with target } })
  | .setStepLimit stepLimit => return (.done, { s with query := { s.query with stepLimit } })
  | .setGuarded guarded => return (.done, { s with query := { s.query with guarded } })

end Checked

/-! ## Questions whose numbers fit -/

/-- The numbers of a question fit: the tape and the target are lists in memory, and the limit on the
steps has 64 bits. -/
structure SeedSearch.Fits (q : SeedSearch) : Prop where
  size_le : q.program.size ≤ maxLength
  length_le : q.target.length ≤ maxLength
  stepLimit_lt : q.stepLimit < UInt64.size

namespace Checked

open SeedSearch (maxDigits leastWithDigits le_maxDigits_iff toNat_leastWithDigits)

variable {q : SeedSearch}

/-- A run for a question whose numbers fit. -/
lemma observe_eq (h : q.Fits) (event : Except Error (List UInt8) → Event) (seed : Word) :
    observe q event seed = OptionT.lift (Report.observe event (q.output seed)) := by
  unfold observe
  rw [outputOf_eq (lt_size_of_le_maxLength h.size_le) h.stepLimit_lt]
  rfl

/-- The checked guard runs the least seed with some digits if it is a word, as the guard does. -/
lemma guardFrom_cons_of_le {digits : ℕ} {rest : List ℕ} (h : q.Fits) (hpos : 1 ≤ digits)
    (hle : digits ≤ maxDigits) :
    guardFrom q (digits :: rest) = OptionT.lift (q.probe digits) >>= fun _ => guardFrom q rest := by
  have hword : word (8 ^ (digits - 1)) = some (leastWithDigits digits) :=
    word_eq_some_iff.mpr (toNat_leastWithDigits hle)
  simp only [guardFrom, diff_of_le hpos, need_some, pure_bind, hword, observe_eq h,
    SeedSearch.probe, OptionT.lift_bind, bind_assoc]
  congr 1
  funext output
  split <;> rfl

/-- The checked guard ends where the least seed is no word. -/
lemma guardFrom_cons_of_lt {digits : ℕ} {rest : List ℕ} (hlt : maxDigits < digits) :
    guardFrom q (digits :: rest) = return () := by
  have hpos : 1 ≤ digits := Nat.one_le_of_lt hlt
  have hword : word (8 ^ (digits - 1)) = none := word_eq_none_iff.mpr <| Nat.le_of_not_lt fun h =>
    absurd ((le_maxDigits_iff hpos).mpr h) (Nat.not_le_of_lt hlt)
  simp only [guardFrom, diff_of_le hpos, need_some, pure_bind, hword]

/-- **No check of the guard fails.**

**Proof sketch.** Induction on how many numbers of digits are left, counted from `digits`; the guard
stops by itself behind the longest word. -/
lemma guardFrom_range' (h : q.Fits) (n : ℕ) {digits : ℕ} (hpos : 1 ≤ digits) :
    guardFrom q (List.range' digits n) =
      OptionT.lift ((List.range' digits (min n (maxDigits + 1 - digits))).forM q.probe) := by
  induction n generalizing digits with
  | zero => rw [Nat.zero_min]; rfl
  | succ n ih =>
    rw [List.range'_succ]
    rcases Nat.lt_or_ge maxDigits digits with hlt | hle
    · rw [guardFrom_cons_of_lt hlt, show maxDigits + 1 - digits = 0 by omega, Nat.min_zero]
      rfl
    · rw [guardFrom_cons_of_le h hpos hle, ih (by omega),
        show min (n + 1) (maxDigits + 1 - digits) =
          min n (maxDigits + 1 - (digits + 1)) + 1 by omega,
        List.range'_succ, ← OptionT.lift_bind]
      rfl

/-- The checked guard is the guard: the numbers of digits beyond the longest word do not count. -/
theorem guard_eq (h : q.Fits) : guard q = OptionT.lift q.guard :=
  guardFrom_range' h q.target.length (Nat.le_refl 1)

/-- A product by eight that fits has room for another digit, and the sum is the extension. -/
lemma word_add_digit {stem base digit : Word} (hbase : word (8 * stem.toNat) = some base)
    (hdigit : digit ∈ octalDigits) : word (base.toNat + digit.toNat) = some (8 * stem + digit) := by
  have hstem := word_eq_some_iff.mp hbase
  rw [word_eq_some_iff, hstem]
  exact toNat_extend (hstem ▸ base.toNat_lt_size) (mem_octalDigits.mp hdigit)

/-- **No check of the descent fails**, as long as it may go one digit deeper.

**Proof sketch.** Induction along the descent. Where a product by eight fits, there is room for
another digit, and the sum is a candidate of the descent. It goes deeper only below the length of
the target, so it may go deeper there once more. -/
theorem search_eq (h : q.Fits) (stem : Word) {depth : ℕ} (hdepth : depth + 1 < UInt64.size)
    (matched : ℕ) :
    search q stem depth matched =
      OptionT.lift (OctalTape.search q.output q.target stem depth matched) := by
  induction stem, depth, matched using search.induct q with
  | case1 stem depth matched hnone =>
    have hsize := word_eq_none_iff.mp hnone
    rw [OctalTape.search, extensions, if_neg (Nat.not_lt_of_le hsize), search]
    simp only [hnone]
    rfl
  | case2 stem depth matched base hbase ih =>
    have hstem : 8 * stem.toNat < UInt64.size := word_eq_some_iff.mp hbase ▸ base.toNat_lt_size
    rw [OctalTape.search, extensions, if_pos hstem, search]
    simp only [hbase]
    refine firstOf_eq fun digit hdigit => ?_
    simp only [word_add_digit hbase hdigit, need_some, pure_bind, observe_eq h, OptionT.lift_bind,
      fit_of_lt hdepth]
    congr 1
    funext output
    by_cases hfound : output = q.target
    · rw [if_pos hfound, if_pos hfound]
      rfl
    by_cases hlong : q.target.length < output.length
    · rw [if_neg hfound, if_neg hfound, dif_pos hlong, if_pos hlong]
      rfl
    rw [if_neg hfound, if_neg hfound, dif_neg hlong, if_neg hlong]
    by_cases hgo : matched < output.length ∧ depth + 1 < q.target.length ∧ output <:+ q.target
    · have hlength := lt_size_of_le_maxLength h.length_le
      rw [dif_pos hgo.1, if_pos hgo.2, dif_pos hgo, OptionT.lift_bind]
      congr 1
      funext _
      exact ih _ _ hlong hgo.1 _ (by omega)
    · rw [dif_neg hgo]
      split
      · next hmatched =>
        rw [if_neg fun hdeeper => hgo ⟨hmatched, hdeeper⟩]
        rfl
      · rfl

/-- No check of the descent fails between its beginning and its end. -/
lemma find_eq (h : q.Fits) : find q = OptionT.lift q.find := by
  have hdescent : search q 0 0 0 = OptionT.lift q.descend := search_eq h 0 (by decide) 0
  simp only [find, SeedSearch.find, hdescent, events_run_lift, OptionT.lift_bind, OptionT.lift_pure]

/-- No check of a whole search fails, behind the guard or without it. -/
lemma findSeed_eq (h : q.Fits) : findSeed q = OptionT.lift q.findSeed := by
  unfold findSeed SeedSearch.findSeed
  rw [guard_eq h, find_eq h]
  cases q.guarded <;> simp [OptionT.lift_bind]

end Checked

/-! ## Seekers whose numbers fit -/

namespace Seeker

/-- What a user hands over with a request fits: a limit has 64 bits, and a target is a list in
memory. -/
def Request.Fits : Request → Prop
  | .setTarget target => target.length ≤ maxLength
  | .setStepLimit limit => limit < UInt64.size
  | _ => True

variable {s : Seeker}

/-- The numbers of a seeker that has just been started fit if its tape does. -/
lemma fits_start {p : Program} (hp : p.size ≤ maxLength) : (start p).query.Fits := by
  refine ⟨hp, ?_, show defaultStepLimit < UInt64.size by decide⟩
  -- it seeks its own tape
  show p.codes.toList.length ≤ maxLength
  rwa [Array.length_toList]

/-- A request keeps the numbers of a seeker such that they fit. -/
lemma fits_perform (h : s.query.Fits) {request : Request} (hrequest : request.Fits) :
    (s.perform request).2.query.Fits := by
  cases request with
  | setTarget target => exact ⟨h.size_le, hrequest, h.stepLimit_lt⟩
  | setStepLimit limit => exact ⟨h.size_le, h.length_le, hrequest⟩
  | setGuarded guarded => exact ⟨h.size_le, h.length_le, h.stepLimit_lt⟩
  | findSeed | guard => exact h

/-- Any requests do. -/
theorem fits_performAll (h : s.query.Fits) {requests : List Request}
    (hrequests : ∀ request ∈ requests, request.Fits) : (s.performAll requests).query.Fits := by
  induction requests generalizing s with
  | nil => exact h
  | cons request requests ih =>
    rw [List.forall_mem_cons] at hrequests
    rw [performAll_cons]
    exact ih (fits_perform h hrequests.1) hrequests.2

end Seeker

/-- **No check of a seeker fails** whose numbers fit, whatever it is asked. -/
theorem Checked.performSeeker_eq {s : Seeker} (h : s.query.Fits) (request : Seeker.Request) :
    performSeeker s request = some (s.perform request) := by
  cases request with
  | findSeed =>
    unfold performSeeker
    rw [findSeed_eq h, settle_lift]
    rfl
  | guard =>
    unfold performSeeker
    rw [guard_eq h, settle_lift]
    rfl
  | setTarget | setStepLimit | setGuarded => rfl

/-! ## All together -/

/-- **Nothing overflows.** Let the tape be no longer than a list in memory can be. Let a machine
that has been started with any contents of its registers, or a seeker that has been started, perform
any requests, with limits of 64 bits and with targets that are no longer than a list can be.
Whatever is asked next, no check of it fails. So the position of an operand, the position behind an
instruction, the count of steps, the exponent of a power that the guard runs, the candidates and the
depth of the search are what they would be without a bound, wherever they are computed; there is a
register for each index; and what is emitted is an octal digit before it becomes a byte. A candidate
is eight times its stem and a digit: where the product fits into a word, the sum does. -/
theorem nothing_overflows (p : Program) (hp : p.size ≤ maxLength) :
    (∀ rs (requests : List Machine.Request), (∀ r ∈ requests, r.Fits) → ∀ request,
      let m := (Machine.start p rs).performAll requests
      Checked.performMachine m request = some (m.perform request)) ∧
    (∀ requests : List Seeker.Request, (∀ r ∈ requests, r.Fits) → ∀ request,
      let s := (Seeker.start p).performAll requests
      Checked.performSeeker s request = some (s.perform request)) ∧
    (∀ stem, 8 * stem.toNat < UInt64.size → ∀ digit ∈ octalDigits,
      8 * stem.toNat + digit.toNat < UInt64.size ∧
        (8 * stem + digit).toNat = 8 * stem.toNat + digit.toNat) := by
  refine ⟨fun rs requests hrequests request => ?_, fun requests hrequests request => ?_,
    fun stem hstem digit hdigit => ?_⟩
  · exact Checked.performMachine_eq ((Machine.Fits.start hp rs).performAll hrequests) request
  · exact Checked.performSeeker_eq (Seeker.fits_performAll (Seeker.fits_start hp) hrequests) request
  · have hsum := toNat_extend hstem (mem_octalDigits.mp hdigit)
    exact ⟨hsum ▸ UInt64.toNat_lt_size _, hsum⟩

/-- Under the greatest limit that fits, a machine is run and taken up again, and a seed is sought
after the guard has been asked for; the last extension of the greatest stem that has any is the
greatest word. -/
theorem nothing_overflows_under_greatest_limit :
    let p : Program := ⟨#[2, 4, 5, 5, 0, 3, 3, 0], rfl, by simp⟩
    let asked : List Machine.Request := [.setStepLimit (UInt64.size - 1), .run, .read .b]
    let sought : List Seeker.Request :=
      [.setTarget [1, 2, 3], .setStepLimit (UInt64.size - 1), .guard]
    let m := (Machine.start p ⟨83, 0, 0⟩).performAll asked
    let s := (Seeker.start p).performAll sought
    let stem : Word := 2305843009213693951
    p.size ≤ maxLength ∧ (∀ r ∈ asked, r.Fits) ∧ (∀ r ∈ sought, r.Fits) ∧
    Checked.performMachine m .run = some (m.perform .run) ∧
    Checked.performSeeker s .findSeed = some (s.perform .findSeed) ∧
    8 * stem.toNat < UInt64.size ∧ (8 * stem + 7).toNat = 8 * stem.toNat + 7 := by
  intro p asked sought m s stem
  have hp : p.size ≤ maxLength := by decide
  have hasked : ∀ r ∈ asked, r.Fits := by simp [asked, Machine.Request.Fits]
  have hsought : ∀ r ∈ sought, r.Fits := by simp [sought, Seeker.Request.Fits, maxLength]
  have hstem : 8 * stem.toNat < UInt64.size := by decide
  obtain ⟨hmachine, hseeker, hcandidate⟩ := nothing_overflows p hp
  exact ⟨hp, hasked, hsought, hmachine ⟨83, 0, 0⟩ asked hasked .run,
    hseeker sought hsought .findSeed, hstem, (hcandidate stem hstem 7 (by decide)).2⟩

end OctalTape

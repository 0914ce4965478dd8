import Mathlib.Data.Nat.Digits.Lemmas
import Mathlib.Tactic.Ring
import OctalTape.Proofs.Search.Exact

set_option relaxedAutoImplicit false
set_option autoImplicit false

/-!
# Searches in an echo

The least digit loop divides register A by eight and emits what is then its lowest digit. So its
output is an echo of its seed: the octal digits from the lowest, but without that, and a zero
behind them. Such an output tells the seed up to the digit that is missing, and the search, which
finds the least seed, fills in a zero.

## Main definitions

* `OctalTape.DigitLoop.echoBody` — the body of the loop.
* `OctalTape.echoSum` — the least number whose echo has the given values.
* `OctalTape.IsEcho` — the values that are the echo of some word.

## Main results

* `OctalTape.DigitLoop.map_toNat_emissions_echoBody` — the output is the digits of an eighth of the
  seed, and a zero.
* `OctalTape.emissions_echoBody_eq_iff` — which seeds have a given echo.
* `OctalTape.SeedSearch.findSeed_echo` — what a search for any target in the echo results in.
-/

namespace OctalTape

/-! ## The loop -/

namespace DigitLoop

/-- The body of the loop: an octal digit is taken off register A, and the next one is emitted. -/
def echoBody : List Instruction := [⟨.adv, 3⟩, ⟨.out, 4⟩]

/-- The tape of the loop. -/
lemma of_toList_eq_echo {p : Program} (h : p.toList = [0, 3, 5, 4, 3, 0]) :
    DigitLoop p echoBody where
  tape := h
  no_jump := by decide
  one_shift := by decide
  shift_digit := by decide
  one_output := by decide
  no_reserved := by decide
  defined_b := by decide
  defined_c := by decide

/-- One pass emits the digit behind the one that it takes off. -/
lemma toNat_passValue_echoBody (a : Word) : (passValue echoBody a).toNat = a.toNat / 8 % 8 := by
  have hvalue : passValue echoBody a = (a.divPow2 3).lowDigit.toUInt8 := rfl
  rw [hvalue, Word.toNat_toUInt8_lowDigit, Word.toNat_divPow2, Nat.shiftRight_eq_div_pow]
  rfl

/-- **The echo of a word** is the octal digits of its eighth part from the lowest, and a zero.

**Proof sketch.** Induction along the recursion of `emissions`. A pass emits the lowest digit of
the eighth part, and goes on as long as that part is not zero. -/
theorem map_toNat_emissions_echoBody (a : Word) :
    (emissions echoBody a).map UInt8.toNat = Nat.digits 8 (a.toNat / 8) ++ [0] := by
  induction a using emissions.induct with
  | case1 a ih =>
    have hlt : a < 8 ↔ a.toNat / 8 = 0 := by
      rw [UInt64.lt_iff_toNat_lt]
      show _ < 8 ↔ _
      omega
    by_cases ha : a < 8
    · rw [emissions_of_lt ha, List.map_singleton, toNat_passValue_echoBody, hlt.mp ha]
      rfl
    · rw [emissions_of_not_lt ha, List.map_cons, ih ha, toNat_passValue_echoBody, UInt64.toNat_div,
        Nat.digits_eq_cons_digits_div (by decide) (mt hlt.mpr ha)]
      rfl

end DigitLoop

open DigitLoop (emissions echoBody map_toNat_emissions_echoBody)

/-! ## Which values are an echo -/

/-- The digits of a number with a zero behind them: all are less than eight, the last is zero, and
the one in front of it is not.

**Proof sketch.** The digits of a number are less than eight and end with one that is not zero. Any
such digits are those of their number (`Nat.digits_ofDigits`), and a zero behind them does not
change it. -/
lemma eq_digits_concat_zero_iff {ds : List ℕ} {n : ℕ} :
    ds = Nat.digits 8 n ++ [0] ↔ (∀ d ∈ ds, d < 8) ∧ ds.getLast? = some 0 ∧
      ds.dropLast.getLast? ≠ some 0 ∧ Nat.ofDigits 8 ds = n := by
  constructor
  · rintro rfl
    refine ⟨?_, by simp, ?_, by rw [Nat.ofDigits_append_zero, Nat.ofDigits_digits]⟩
    · simp only [List.mem_append, List.mem_singleton]
      rintro d (hd | rfl)
      · exact Nat.digits_lt_base (by decide) hd
      · decide
    · rw [List.dropLast_concat]
      intro hlast
      have hne : Nat.digits 8 n ≠ [] := by
        intro hnil
        rw [hnil] at hlast
        cases hlast
      rw [List.getLast?_eq_some_getLast hne, Option.some.injEq] at hlast
      exact Nat.getLast_digit_ne_zero 8 (Nat.digits_ne_nil_iff_ne_zero.mp hne) hlast
  · rintro ⟨hdigits, hlast, hproper, rfl⟩
    obtain ⟨ds, rfl⟩ := List.getLast?_eq_some_iff.mp hlast
    rw [List.dropLast_concat] at hproper
    rw [Nat.ofDigits_append_zero, Nat.digits_ofDigits 8 (by decide) ds
      (fun d hd => hdigits d (List.mem_append_left _ hd)) fun hne hzero => hproper ?_]
    rw [List.getLast?_eq_some_getLast hne, hzero]

/-- The sum of some values, each times the power of eight for its place and the lowest digit. It is
the least number whose echo they are, if they are one. -/
def echoSum (values : List UInt8) : ℕ :=
  (values.mapIdx fun i value => value.toNat * 8 ^ (i + 1)).sum

/-- The sum of some values, each times the power of eight for its place and `k` more. -/
lemma sum_mapIdx_mul_pow (values : List UInt8) (k : ℕ) :
    (values.mapIdx fun i value => value.toNat * 8 ^ (i + k)).sum =
      8 ^ k * Nat.ofDigits 8 (values.map UInt8.toNat) := by
  induction values generalizing k with
  | nil => simp
  | cons value values ih =>
    have hrest := ih (k + 1)
    rw [List.mapIdx_cons, List.sum_cons, List.map_cons, Nat.ofDigits_cons]
    simp only [Nat.zero_add, Nat.add_right_comm _ 1 k, Nat.add_assoc] at hrest ⊢
    rw [hrest]
    ring

/-- The values are the digits of an eighth of their sum. -/
lemma echoSum_eq (values : List UInt8) :
    echoSum values = 8 * Nat.ofDigits 8 (values.map UInt8.toNat) :=
  sum_mapIdx_mul_pow values 1

/-- The values are the echo of some word: they are octal digits, the last is zero and the one in
front of it is not, unless there is none, and the least number whose echo they are fits into a
word. -/
structure IsEcho (values : List UInt8) : Prop where
  ne_nil : values ≠ []
  le_seven : ∀ value ∈ values, value ≤ 7
  last_zero : values.getLast? = some 0
  proper : values.length = 1 ∨ values.dropLast.getLast? ≠ some 0
  fits : echoSum values < UInt64.size

/-- The last of some values is zero if the last of their numbers is. -/
lemma getLast?_map_toNat_eq_zero_iff {values : List UInt8} :
    (values.map UInt8.toNat).getLast? = some 0 ↔ values.getLast? = some 0 := by
  rw [List.getLast?_map, Option.map_eq_some_iff]
  constructor
  · rintro ⟨value, hlast, hzero⟩
    obtain rfl : value = 0 := UInt8.toNat_inj.mp hzero
    exact hlast
  · exact fun hlast => ⟨0, hlast, rfl⟩

/-- Without the word in which it has to fit, an echo is told by its values as numbers.

**Proof sketch.** The conditions are the same one by one, for the values and for their numbers. An
echo of one value is a zero, and in front of that nothing stands. -/
lemma isEcho_iff {values : List UInt8} :
    IsEcho values ↔ ((∀ d ∈ values.map UInt8.toNat, d < 8) ∧
      (values.map UInt8.toNat).getLast? = some 0 ∧
      (values.map UInt8.toNat).dropLast.getLast? ≠ some 0) ∧ echoSum values < UInt64.size := by
  have hlt : ∀ value : UInt8, value.toNat < 8 ↔ value ≤ 7 := by
    intro value
    rw [UInt8.le_iff_toNat_le]
    exact Nat.lt_succ_iff
  rw [← List.map_dropLast, Ne, getLast?_map_toNat_eq_zero_iff, getLast?_map_toNat_eq_zero_iff,
    List.forall_mem_map]
  simp only [hlt]
  constructor
  · intro h
    refine ⟨⟨h.le_seven, h.last_zero, ?_⟩, h.fits⟩
    rcases h.proper with hone | hproper
    · obtain ⟨value, rfl⟩ := List.length_eq_one_iff.mp hone
      exact nofun
    · exact hproper
  · rintro ⟨⟨hseven, hlast, hproper⟩, hfits⟩
    refine ⟨?_, hseven, hlast, .inr hproper, hfits⟩
    rintro rfl
    cases hlast

/-- **The seeds of an echo** are the words whose eighth part has the values as its digits. -/
theorem emissions_echoBody_eq_iff {a : Word} {values : List UInt8} :
    emissions echoBody a = values ↔ IsEcho values ∧ a.toNat / 8 * 8 = echoSum values := by
  have hinj : Function.Injective (List.map UInt8.toNat) :=
    List.map_injective_iff.mpr fun _ _ => UInt8.toNat_inj.mp
  have ha : a.toNat < UInt64.size := a.toNat_lt_size
  rw [← hinj.eq_iff, map_toNat_emissions_echoBody, eq_comm, eq_digits_concat_zero_iff, isEcho_iff,
    echoSum_eq]
  constructor
  · rintro ⟨hseven, hlast, hproper, hsum⟩
    exact ⟨⟨⟨hseven, hlast, hproper⟩, by omega⟩, by omega⟩
  · rintro ⟨⟨⟨hseven, hlast, hproper⟩, -⟩, hsum⟩
    exact ⟨hseven, hlast, hproper, by omega⟩

/-- An echo is that of its sum, and of no lesser word. -/
lemma IsEcho.least_seed {values : List UInt8} (h : IsEcho values) :
    emissions echoBody (UInt64.ofNat (echoSum values)) = values ∧
      ∀ a, emissions echoBody a = values → UInt64.ofNat (echoSum values) ≤ a := by
  have hsum : (UInt64.ofNat (echoSum values)).toNat = echoSum values :=
    UInt64.toNat_ofNat_of_lt' h.fits
  refine ⟨emissions_echoBody_eq_iff.mpr ⟨h, ?_⟩, fun a ha => ?_⟩
  · rw [hsum, echoSum_eq]
    omega
  · have hle := (emissions_echoBody_eq_iff.mp ha).2
    rw [UInt64.le_iff_toNat_le, hsum]
    omega

/-! ## The search -/

namespace SeedSearch

/-- **The inverse of the echo.** Under every limit that leaves eleven steps for each code of the
tape, a search for any target, with the guard or without it, finds the sum of its values, each
times the power of eight for its place and the lowest digit, if the target is the echo of a word.
Otherwise it finds nothing.

**Proof sketch.** The program is a digit loop, so its outputs are regular and a search finds the
least seed of its target or there is none (`findSeed_cases_of_octalRegular`). A seed of the target
exists exactly if this is an echo, and then the sum is the least one (`IsEcho.least_seed`). -/
theorem findSeed_echo (q : SeedSearch) (hprogram : q.program.toList = [0, 3, 5, 4, 3, 0])
    (hlimit : 66 ≤ q.stepLimit) :
    (IsEcho q.target → q.findSeed.result = .ok (some (UInt64.ofNat (echoSum q.target)))) ∧
    (¬ IsEcho q.target → q.findSeed.result = .ok none) := by
  have hloop := DigitLoop.of_toList_eq_echo hprogram
  have hsteps : 11 * q.program.size ≤ q.stepLimit := by rwa [hloop.size_eq]
  have hseed : ∀ s, q.output s = .ok q.target ↔ emissions echoBody s = q.target := fun s => by
    rw [output, hloop.outputOf_eq hsteps, Except.ok.injEq]
  have hfound := findSeed_cases_of_octalRegular (hloop.octalRegular hsteps)
  constructor
  · intro hecho
    obtain ⟨hown, hlesser⟩ := hecho.least_seed
    rcases hfound with ⟨s, hs, hout, hleast⟩ | ⟨-, hempty⟩
    · have hle := hleast _ ((hseed _).mpr hown)
      rw [hs, UInt64.le_antisymm hle (hlesser s ((hseed s).mp hout))]
    · exact absurd ((hseed _).mpr hown) (hempty _)
  · intro hno
    rcases hfound with ⟨s, -, hout, -⟩ | ⟨hnone, -⟩
    · exact absurd (emissions_echoBody_eq_iff.mp ((hseed s).mp hout)).1 hno
    · exact hnone

/-- The question for a seed from which the loop emits its own tape. -/
def echoSearch : SeedSearch where
  program := ⟨(echoBody.flatMap Instruction.codes ++ [3, 0]).toArray, rfl, by
    simp [echoBody, Instruction.codes, Opcode.toCode]⟩
  stepLimit := 66

/-- The loop emits its own tape from 117440, and it emits two zeros from no seed. -/
theorem findSeed_echoSearch :
    echoSearch.program.toList = [0, 3, 5, 4, 3, 0] ∧ 66 ≤ echoSearch.stepLimit ∧
      echoSearch.findSeed.result = .ok (some 117440) ∧
      (SeedSearch.findSeed { echoSearch with target := [0, 0] }).result = .ok none := by
  have hlimit : 66 ≤ echoSearch.stepLimit := Nat.le_refl 66
  have hecho : IsEcho [0, 3, 5, 4, 3, 0] :=
    ⟨List.cons_ne_nil _ _, by simp, rfl, .inr (by decide), by decide +kernel⟩
  have hzeros : ¬ IsEcho [0, 0] := fun h => absurd h.proper (by decide)
  refine ⟨rfl, hlimit, ?_, ?_⟩
  · exact (findSeed_echo echoSearch rfl hlimit).1 hecho
  · exact (findSeed_echo { echoSearch with target := [0, 0] } rfl hlimit).2 hzeros

end SeedSearch

end OctalTape

import OctalTape.Proofs.Machine.DigitLoop
import OctalTape.Proofs.Search.Cumulative

set_option relaxedAutoImplicit false
set_option autoImplicit false

/-!
# Searches in regular outputs

If each octal digit of a seed makes one value of its output, the search is exact: it finds the
least seed of the target if there is any, and says that there is none otherwise. A target of
`n` values can only come from a seed of `n` digits, and the digits with which such a seed is
written are visited, because the output of each prefix is a part of the end of the target. Among
lists of `n` digits, the first in the lexicographic order denotes the least number.

## Main definitions

* `OctalTape.OctalRegular` — outputs in which each octal digit of the seed makes one value.

## Main results

* `OctalTape.OctalRegular.decisive_octalString` — a seed of the target is written with decisive
  digits.
* `OctalTape.OctalRegular.length_eq_of_decisive` — decisive digits are as many as the target has
  values.
* `OctalTape.SeedSearch.findSeed_eq_least` — the search finds the least seed of the target.
-/

namespace OctalTape

/-- Each octal digit of a seed makes one value of its output, the lowest digit the first. -/
structure OctalRegular (out : Word → Except Error (List UInt8)) : Prop where
  /-- No run fails, -/
  halts : ∀ a, ∃ output, out a = .ok output
  /-- each emits one value for each octal digit of its seed, -/
  length_eq : ∀ {a output}, out a = .ok output → output.length = octalLength a.toNat
  /-- and all but the first are emitted without the lowest digit too. -/
  out_div : ∀ {a output}, 8 ≤ a → out a = .ok output → out (a / 8) = .ok output.tail

namespace OctalRegular

variable {out : Word → Except Error (List UInt8)} {target : List UInt8}

/-- Regular outputs are cumulative: each digit adds one value at the front.

**Proof sketch.** Without its lowest digit a number emits the same values but the first, and there
is one, since there are as many values as digits. -/
lemma cumulative (h : OctalRegular out) : Cumulative out where
  halts := h.halts
  ne_nil {a} _ hnil := by
    have hlen := h.length_eq hnil
    have hpos := octalLength_pos a.toNat
    rw [List.length_nil] at hlen
    omega
  out_div {a output} ha hout := by
    refine ⟨output.tail, h.out_div ha hout, List.tail_suffix output, fun heq => ?_⟩
    have hlen := h.length_eq hout
    have hpos := octalLength_pos a.toNat
    have htail := congrArg List.length heq
    rw [List.length_tail] at htail
    omega

/-- A seed of the target is written with decisive digits. -/
theorem decisive_octalString (h : OctalRegular out) {a : Word} (hout : out a = .ok target) :
    Decisive out target (octalString a.toNat) :=
  h.cumulative.decisive_octalString hout

/-! ## Decisive digits -/

/-- Decisive digits denote a seed of the target, since no run fails. -/
lemma out_of_decisive (h : OctalRegular out) {w : List (Fin 8)} (hw : Decisive out target w) :
    out (octalWord w) = .ok target := by
  rcases hw.ends with ⟨e, he⟩ | hout
  · obtain ⟨output, hok⟩ := h.halts (octalWord w)
    rw [hok] at he
    cases he
  · exact hout

/-- Decisive digits are as many as the target has values.

**Proof sketch.** They are no fewer, because the number that they denote has one digit for each
value. They are no more, because behind each digit but the last the output gets longer and
stays shorter than the target. -/
theorem length_eq_of_decisive (h : OctalRegular out) {w : List (Fin 8)}
    (hw : Decisive out target w) : w.length = target.length := by
  have htarget := h.length_eq (h.out_of_decisive hw)
  rw [toNat_octalWord hw.visited.fits] at htarget
  have hge := octalLength_octalValue_le hw.visited.ne_nil
  obtain ⟨v, d, rfl⟩ : ∃ v d, w = v ++ [d] :=
    ⟨_, _, (List.dropLast_concat_getLast hw.visited.ne_nil).symm⟩
  obtain ⟨-, hext⟩ := visited_concat_iff.mp hw.visited
  have hle := length_le_matchedLength hext
  have hlt : matchedLength out v < target.length := by
    by_cases hv : v = []
    · subst hv
      rw [htarget]
      exact octalLength_pos _
    · exact (hext v hv (List.prefix_refl v)).matchedLength_lt hv
  rw [List.length_append, List.length_singleton] at hge ⊢
  omega

/-- The first decisive digits denote the least seed of the target. -/
lemma octalWord_le_of_first (h : OctalRegular out) {w : List (Fin 8)}
    (hw : FirstDecisive out target w) {s : Word} (hs : out s = .ok target) : octalWord w ≤ s := by
  have hv := h.decisive_octalString hs
  have hlen : w.length = (octalString s.toNat).length := by
    rw [h.length_eq_of_decisive hw.decisive, h.length_eq_of_decisive hv]
  have hle := hw.octalWord_le hv hlen.le
  rwa [octalWord_octalString] at hle

end OctalRegular

/-! ## Digit loops -/

/-- Digit loops have regular outputs. -/
theorem DigitLoop.octalRegular {p : Program} {body : List Instruction} {limit : ℕ}
    (h : DigitLoop p body) (hlimit : 11 * p.size ≤ limit) : OctalRegular (p.outputOf limit) where
  halts a := ⟨_, h.outputOf_eq hlimit a⟩
  length_eq {a output} hout := by
    rw [h.outputOf_eq hlimit] at hout
    rw [← Except.ok.inj hout, length_emissions]
  out_div {a output} ha hout := by
    rw [h.outputOf_eq hlimit] at hout ⊢
    rw [← Except.ok.inj hout, emissions_of_not_lt (UInt64.not_lt.mpr ha), List.tail_cons]

/-! ## The search -/

namespace SeedSearch

/-- The guard accepts a program with regular outputs. -/
lemma result_guard_of_octalRegular {q : SeedSearch} (h : OctalRegular q.output) :
    q.guard.result = .ok () := by
  rw [result_guard_eq_ok_iff]
  intro digits hpos hle
  obtain ⟨output, hout⟩ := h.halts (leastWithDigits digits)
  refine ⟨output, hout, ?_⟩
  rw [h.length_eq hout, toNat_leastWithDigits (hle.trans (Nat.min_le_right _ _)), octalLength_pow]
  omega

/-- A search in regular outputs finds the least seed of the target, or there is none and it finds
nothing. -/
lemma findSeed_cases_of_octalRegular {q : SeedSearch} (h : OctalRegular q.output) :
    (∃ s, q.findSeed.result = .ok (some s) ∧ q.output s = .ok q.target ∧
      ∀ s', q.output s' = .ok q.target → s ≤ s') ∨
    (q.findSeed.result = .ok none ∧ ∀ s, q.output s ≠ .ok q.target) := by
  rw [result_findSeed_of_guard (result_guard_of_octalRegular h)]
  rcases q.descend_cases_of_cumulative h.cumulative with ⟨w, hw, hout, hseed⟩ | hnone
  · exact .inl ⟨_, hseed, hout, fun s => h.octalWord_le_of_first hw⟩
  · exact .inr hnone

/-- **The search is exact.** If each octal digit of a seed makes one value of its output, a
search for any target, with the guard or without it, finds the least seed of the target if
there is a seed of it, finds nothing if there is none, and never fails. -/
theorem findSeed_eq_least (q : SeedSearch) (h : OctalRegular q.output) :
    let found := q.findSeed.result
    (∀ s, found = .ok (some s) ↔
      q.output s = .ok q.target ∧ ∀ s', q.output s' = .ok q.target → s ≤ s') ∧
    (found = .ok none ↔ ∀ s, q.output s ≠ .ok q.target) ∧
    ∀ e, found ≠ .error e := by
  intro found
  rcases findSeed_cases_of_octalRegular h with ⟨s, hs, hout, hleast⟩ | ⟨hnone, hempty⟩
  · rw [show found = _ from hs]
    refine ⟨fun t => ⟨?_, fun ht => ?_⟩, iff_of_false nofun fun hempty => hempty _ hout, nofun⟩
    · rintro ⟨⟩
      exact ⟨hout, hleast⟩
    · rw [UInt64.le_antisymm (ht.2 s hout) (hleast t ht.1)]
  · rw [show found = _ from hnone]
    exact ⟨fun s => iff_of_false nofun fun hs => hempty s hs.1, iff_of_true rfl hempty, nofun⟩

/-- The question for a seed from which the mixing loop emits six and seven. -/
def mixingSearch : SeedSearch where
  program := DigitLoop.mixingLoop
  target := [6, 7]
  stepLimit := 176

/-- Eleven is the least seed from which the mixing loop emits six and seven. -/
theorem findSeed_mixingSearch :
    OctalRegular mixingSearch.output ∧ mixingSearch.findSeed.result = .ok (some 11) := by
  have hregular : OctalRegular mixingSearch.output :=
    DigitLoop.digitLoop_mixingLoop.octalRegular (by decide)
  have hless : ∀ n < 11, mixingSearch.output (UInt64.ofNat n) ≠ .ok [6, 7] := by decide
  refine ⟨hregular, ((findSeed_eq_least mixingSearch hregular).1 11).mpr ⟨by decide, ?_⟩⟩
  intro s hs
  rw [UInt64.le_iff_toNat_le]
  refine Nat.le_of_not_lt fun hlt => hless s.toNat hlt ?_
  rw [UInt64.ofNat_toNat]
  exact hs

end SeedSearch

end OctalTape

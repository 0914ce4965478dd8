import Mathlib.Tactic.Basic
import Mathlib.Tactic.SplitIfs
import OctalTape.Search.SeedSearch
import OctalTape.Proofs.Octal
import OctalTape.Proofs.Search.Results

set_option relaxedAutoImplicit false
set_option autoImplicit false

/-!
# Visits to candidates

The descent visits the extensions of a number one after the other. As long as it is no deeper
than the output of that number is long, two of the tests that it makes at a candidate are
implied by the others: an output that is longer than the target is no part of its end, and one
that is a proper part of its end leaves room for another digit.

## Main definitions

* `OctalTape.visit` — a visit to a candidate, with the tests that decide.
* `OctalTape.digitsBehind` — the digits that fit behind others.

## Main results

* `OctalTape.search_eq_firstOf_visit` — the descent is the first visit that yields something.
* `OctalTape.visit_of_error` and its three companions — what a visit reports.
* `OctalTape.extensions_octalWord` — the extensions of a number are its digits and one more.
-/

namespace OctalTape

/-! ## Visits -/

/-- Visit a candidate in a search for `target` that is `depth` digits deep, where the output of
the number that the candidate extends has the length `matched`. -/
def visit (out : Word → Except Error (List UInt8)) (target : List UInt8) (depth matched : ℕ)
    (candidate : Word) : Report (Option Word) := do
  let output ← Report.observe (.tried candidate) (out candidate)
  if output = target then
    return some candidate
  else if matched < output.length ∧ output <:+ target then
    Report.tell (.descended depth candidate output)
    search out target candidate (depth + 1) output.length
  else
    return none

section Visits

variable {out : Word → Except Error (List UInt8)} {target : List UInt8} {depth matched : ℕ}

/-- A proper part of the end of a list is shorter than the list. -/
lemma length_lt_of_isSuffix_of_ne {l m : List UInt8} (h : l <:+ m) (hne : l ≠ m) :
    l.length < m.length :=
  Nat.lt_of_le_of_ne h.length_le fun hlen => hne (h.eq_of_length hlen)

/-- The descent is the first visit that yields something, as long as it is no deeper than the
output of its number is long.

**Proof sketch.** The descent makes two tests more, which compare the length of the output and the
depth with the length of the target. An output that is a proper part of the end of the target is
shorter than the target, and if it is longer than `matched` it is longer than the depth. -/
theorem search_eq_firstOf_visit (h : depth ≤ matched) (stem : Word) :
    search out target stem depth matched =
      Report.firstOf (extensions stem) (visit out target depth matched) := by
  rw [search]
  congr 1
  funext candidate
  unfold visit
  congr 1
  funext output
  by_cases heq : output = target
  · rw [if_pos heq, if_pos heq]
  · rw [if_neg heq, if_neg heq]
    by_cases hgo : matched < output.length ∧ output <:+ target
    · have hlt := length_lt_of_isSuffix_of_ne hgo.2 heq
      rw [if_neg (by omega), dif_pos ⟨hgo.1, by omega, hgo.2⟩, if_pos hgo]
    · rw [dif_neg (fun hall => hgo ⟨hall.1, hall.2.2⟩), if_neg hgo, ite_self]

variable {candidate : Word}

/-- A visit where the run fails reports the same error. -/
lemma visit_of_error {e : Error} (h : out candidate = .error e) :
    visit out target depth matched candidate = ⟨.error e, [.tried candidate (.error e)]⟩ := by
  rw [visit, h]
  rfl

/-- A visit where the run emits the target reports the candidate. -/
lemma visit_of_target (h : out candidate = .ok target) :
    visit out target depth matched candidate =
      ⟨.ok (some candidate), [.tried candidate (.ok target)]⟩ := by
  rw [visit, h, Report.bind_of_ok (a := target) rfl, if_pos rfl]
  rfl

/-- A visit where the run emits a longer part of the end of the target reports what the descent
from there does. -/
lemma visit_of_descend {output : List UInt8} (h : out candidate = .ok output)
    (hne : output ≠ target) (hgo : matched < output.length ∧ output <:+ target) :
    visit out target depth matched candidate =
      ⟨(search out target candidate (depth + 1) output.length).result,
        .tried candidate (.ok output) :: .descended depth candidate output ::
          (search out target candidate (depth + 1) output.length).events⟩ := by
  rw [visit, h, Report.bind_of_ok (a := output) rfl, if_neg hne, if_pos hgo,
    Report.bind_of_ok (a := ()) rfl]
  rfl

/-- Any other visit yields nothing. -/
lemma visit_of_other {output : List UInt8} (h : out candidate = .ok output)
    (hne : output ≠ target) (hgo : ¬ (matched < output.length ∧ output <:+ target)) :
    visit out target depth matched candidate =
      ⟨.ok none, [.tried candidate (.ok output)]⟩ := by
  rw [visit, h, Report.bind_of_ok (a := output) rfl, if_neg hne, if_neg hgo]
  rfl

end Visits

/-! ## Extensions by one digit -/

/-- The octal digits as words are the eight digits in their order. -/
lemma octalDigits_eq : octalDigits = (List.finRange 8).map fun d => UInt64.ofNat d.val := by
  decide

/-- The digits that fit into a word behind others: all of them or none. -/
def digitsBehind (u : List (Fin 8)) : List (Fin 8) :=
  if 8 * octalValue u < UInt64.size then List.finRange 8 else []

/-- A digit fits if the number of all digits does. -/
lemma mem_digitsBehind {u : List (Fin 8)} {d : Fin 8} :
    d ∈ digitsBehind u ↔ octalValue (u ++ [d]) < UInt64.size := by
  have hd := d.isLt
  have hfits : octalValue (u ++ [d]) < UInt64.size ↔ 8 * octalValue u < UInt64.size := by
    rw [octalValue_concat]
    simp only [UInt64.size]
    omega
  rw [hfits, digitsBehind]
  split
  · next h => exact iff_of_true (List.mem_finRange d) h
  · next h => exact iff_of_false (List.not_mem_nil) h

/-- The digits that fit are in their order. -/
lemma pairwise_digitsBehind (u : List (Fin 8)) : (digitsBehind u).Pairwise (· < ·) := by
  unfold digitsBehind
  split
  · exact List.pairwise_lt_finRange 8
  · exact List.Pairwise.nil

/-- The extensions of a number are its digits and one more. -/
lemma extensions_octalWord {u : List (Fin 8)} (h : octalValue u < UInt64.size) :
    extensions (octalWord u) = (digitsBehind u).map fun d => octalWord (u ++ [d]) := by
  unfold extensions digitsBehind
  rw [toNat_octalWord h]
  split
  · rw [octalDigits_eq, List.map_map]
    apply List.map_congr_left
    intro d _
    show 8 * octalWord u + UInt64.ofNat d.val = octalWord (u ++ [d])
    rw [octalWord, octalWord, octalValue_concat, UInt64.ofNat_add, UInt64.ofNat_mul]
    rfl
  · rfl

end OctalTape

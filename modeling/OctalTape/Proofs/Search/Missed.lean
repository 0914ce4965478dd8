import OctalTape.Proofs.Search.FirstPath
import OctalTape.Proofs.Search.Probes

set_option relaxedAutoImplicit false
set_option autoImplicit false

/-!
# What a search can miss

The guard counts the outputs of some seeds. The descent relies on more: that without its lowest
digits a seed emits the end of what it emits with them. A program may emit one value for each
octal digit of every seed and break this all the same. Then the guard accepts it, and the search
turns back at the first digits of seeds that it is looking for. It may say that there is no seed
where there is one, and find a seed that is not the least.

Whatever the outputs are, a seed is missed for one of two reasons. Either the search would not go
on from the first digits of it, or the digits of it are fewer than those on the path of what was
found.

## Main definitions

* `OctalTape.repeatLoop` — a program that emits the lowest digit of its seed again and again.
* `OctalTape.SeedSearch.repeatSearch` — the question for a seed of the same digit twice.

## Main results

* `OctalTape.exists_visited_isPrefix` — to digits that are not visited, the search has stopped
  earlier on the way.
* `OctalTape.length_output_repeatLoop` — the repeating loop emits one value for each octal digit,
  and yet it is a counterexample to leastness and to completeness.
* `OctalTape.SeedSearch.length_lt_of_findSeed_eq_some` — a lesser seed than the one that was found
  is only come to by fewer digits, if at all.
* `OctalTape.SeedSearch.exists_deadEnd_of_findSeed_eq_none` — if nothing is found, then each seed
  of the target begins with a dead end.
-/

namespace OctalTape

variable {out : Word → Except Error (List UInt8)} {target : List UInt8}

/-! ## Where the search has stopped -/

/-- To digits that are not visited although they denote a word, the search has stopped earlier on
the way: it has come to some of the first of them that are not extendable.

**Proof sketch.** Induction on the number of digits. If those before the last are not visited
either, it has stopped on the way to them; else they are the ones that are not extendable. -/
lemma exists_visited_isPrefix {w : List (Fin 8)} (hw : w ≠ []) (hfits : octalValue w < UInt64.size)
    (h : ¬ Visited out target w) :
    ∃ u, Visited out target u ∧ u <+: w ∧ ¬ Extendable out target u := by
  induction w using List.reverseRecOn with
  | nil => exact absurd rfl hw
  | append_singleton w d ih =>
    have hpre : w <+: w ++ [d] := List.prefix_append w [d]
    rw [visited_concat_iff] at h
    obtain ⟨v, hv, hvw, hext⟩ : ∃ v, v ≠ [] ∧ v <+: w ∧ ¬ Extendable out target v := by
      by_contra hnone
      refine h ⟨hfits, fun v hv hvw => ?_⟩
      by_contra hext
      exact hnone ⟨v, hv, hvw, hext⟩
    have hnonempty : w ≠ [] := by
      rintro rfl
      exact hv (List.prefix_nil.mp hvw)
    by_cases hvisited : Visited out target w
    · obtain rfl : v = w := by
        by_contra hne
        exact hext (hvisited.extendable v hv hvw hne)
      exact ⟨v, hvisited, hpre, hext⟩
    · obtain ⟨u, hu, huw, hstop⟩ :=
        ih hnonempty ((octalValue_le_of_isPrefix hpre).trans_lt hfits) hvisited
      exact ⟨u, hu, huw.trans hpre, hstop⟩

/-! ## The repeating loop -/

/-- A program that keeps the lowest digit of its seed, and emits it once for each octal digit. -/
def repeatLoop : Program := ⟨#[2, 4, 0, 3, 5, 5, 3, 2], rfl, by simp⟩

/-- The repeating loop first takes the lowest digit of its seed. In each pass it shifts three bits
out of register A and emits that digit. -/
lemma literalLoop_repeatLoop :
    LiteralLoop repeatLoop [⟨.bst, 4⟩] [⟨.adv, 3⟩, ⟨.out, 5⟩] [] := by
  refine ⟨⟨2, rfl, ?_⟩, rfl, by decide, fun i hi => ?_⟩
  · exact ⟨rfl, rfl, rfl, rfl, trivial⟩
  · simp only [List.append_nil, List.cons_append, List.nil_append, List.mem_cons,
      List.not_mem_nil, or_false] at hi
    rcases hi with rfl | rfl | rfl
    all_goals exact ⟨by decide, by decide⟩

/-- From every seed, the repeating loop emits one value for each octal digit. -/
theorem length_output_repeatLoop {limit : ℕ} (hlimit : 67 ≤ limit) (a : Word) :
    ∃ output, repeatLoop.outputOf limit a = .ok output ∧ output.length = octalLength a.toNat := by
  have hlen := octalLength_word_le a
  refine literalLoop_repeatLoop.outputOf_length_iff.mpr
    ⟨octalLength a.toNat, LiteralLoop.exhausts_octalLength a.toNat, ?_, ?_⟩
  · simp only [List.length_cons, List.length_nil]
    omega
  · simp [Instruction.outputs]

namespace SeedSearch

/-- The question for a seed from which the repeating loop emits one digit twice. -/
def repeatSearch (digit : UInt8) : SeedSearch where
  program := repeatLoop
  target := [digit, digit]

/-- Asked for two twos, the search finds eighteen. -/
lemma result_findSeed_repeatSearch_two :
    (repeatSearch 2).findSeed.result = .ok (some 18) := by decide +kernel

/-- Asked for two zeros, the search finds nothing. -/
lemma result_findSeed_repeatSearch_zero :
    (repeatSearch 0).findSeed.result = .ok none := by decide +kernel

/-! ## Seeds that are missed -/

/-- **Which lesser seeds are missed.** The seed that a search finds has a path, the first decisive
one. A lesser seed of the target is missed only if the search would not come to it at all, or if
all digits by which it would are fewer than those on that path.

**Proof sketch.** Digits that the search would come to are decisive if they denote a seed of the
target, so they are behind the path in the lexicographic order. If they are no fewer, they denote
no lesser number (`octalValue_le_of_lt`). -/
theorem length_lt_of_findSeed_eq_some {q : SeedSearch} {s : Word}
    (h : q.findSeed.result = .ok (some s)) :
    ∃ w, FirstDecisive q.output q.target w ∧ octalWord w = s ∧ q.output s = .ok q.target ∧
      ∀ v, Visited q.output q.target v → q.output (octalWord v) = .ok q.target →
        octalWord v < s → v.length < w.length := by
  have hdescend := result_descend_of_findSeed_eq_ok h
  obtain ⟨w, hw, rfl, hout⟩ := result_descend_eq_some_iff.mp hdescend
  refine ⟨w, hw, rfl, hout, fun v hv hvout hless => Nat.lt_of_not_le fun hlen => ?_⟩
  have hle := hw.octalWord_le ⟨hv, .inr hvout⟩ hlen
  exact UInt64.not_lt.mpr hle hless

/-- Asked for two twos, the search finds eighteen. To a lesser seed of two twos it would only come
by fewer digits than are on the path of eighteen. -/
theorem length_lt_repeatSearch_two :
    (repeatSearch 2).findSeed.result = .ok (some 18) ∧
      ∃ w, FirstDecisive (repeatSearch 2).output [2, 2] w ∧ octalWord w = 18 ∧
        ∀ v, Visited (repeatSearch 2).output [2, 2] v →
          (repeatSearch 2).output (octalWord v) = .ok [2, 2] → octalWord v < 18 →
            v.length < w.length := by
  have hfound := result_findSeed_repeatSearch_two
  obtain ⟨w, hw, hword, -, hless⟩ := length_lt_of_findSeed_eq_some hfound
  exact ⟨hfound, w, hw, hword, hless⟩

/-- The guard is on, all seeds emit one value for each octal digit, and the search finds eighteen,
but ten is a lesser seed of two twos. -/
theorem findSeed_repeatSearch_not_least :
    (repeatSearch 2).guarded = true ∧
      (∀ a, ∃ output, (repeatSearch 2).output a = .ok output ∧
        output.length = octalLength a.toNat) ∧
      (repeatSearch 2).findSeed.result = .ok (some 18) ∧
      (10 : Word) < 18 ∧ (repeatSearch 2).output 10 = .ok (repeatSearch 2).target :=
  ⟨rfl, length_output_repeatLoop (by decide), result_findSeed_repeatSearch_two, by decide,
    by decide⟩

/-- **Why a search finds nothing.** If a search finds nothing, then the digits of each seed of the
target begin with a dead end.

**Proof sketch.** If the search came to the digits of the seed, it would end there. So it has
stopped on the way, at digits that are not extendable (`exists_visited_isPrefix`). They are not
decisive, because the search has not ended, so they are a dead end. -/
theorem exists_deadEnd_of_findSeed_eq_none {q : SeedSearch} (h : q.findSeed.result = .ok none)
    {s : Word} (hs : q.output s = .ok q.target) :
    ∃ u, DeadEnd q.output q.target u ∧ u <+: octalString s.toNat := by
  have hnone := result_descend_eq_none_iff.mp (result_descend_of_findSeed_eq_ok h)
  have hmissed : ¬ Visited q.output q.target (octalString s.toNat) := fun hvisited =>
    hnone _ ⟨hvisited, .inr (by rw [octalWord_octalString, hs])⟩
  have hfits : octalValue (octalString s.toNat) < UInt64.size := by
    rw [octalValue_octalString]
    exact s.toNat_lt_size
  obtain ⟨u, hu, hpre, hstop⟩ := exists_visited_isPrefix (octalString_ne_nil _) hfits hmissed
  rcases hu.decisive_or_extendable_or_deadEnd with hend | hgo | hdead
  · exact absurd hend (hnone u)
  · exact absurd hgo hstop
  · exact ⟨u, hdead, hpre⟩

/-- Asked for two zeros, the search finds nothing, because the first digit of the seed eight is a
dead end. -/
theorem deadEnd_repeatSearch_zero :
    (repeatSearch 0).findSeed.result = .ok none ∧ (repeatSearch 0).output 8 = .ok [0, 0] ∧
      DeadEnd (repeatSearch 0).output [0, 0] [1] := by
  have hnone := result_findSeed_repeatSearch_zero
  have height : (repeatSearch 0).output 8 = .ok [0, 0] := by decide
  obtain ⟨u, hdead, hpre⟩ := exists_deadEnd_of_findSeed_eq_none hnone height
  have hdigits : octalString (8 : Word).toNat = [1] ++ [0] := by
    rw [octalString_of_le (by decide), octalString_of_lt (by decide)]
    rfl
  rw [hdigits] at hpre
  rcases List.prefix_concat_iff.mp hpre with rfl | hpre
  · obtain ⟨output, hout, hne, -⟩ := hdead.turns
    exact absurd (Except.ok.inj (hout.symm.trans height)) hne
  · obtain rfl : u = [1] :=
      hpre.eq_of_length_le (List.length_pos_iff.mpr hdead.visited.ne_nil)
    exact ⟨hnone, height, hdead⟩

/-- The guard is on, all seeds emit one value for each octal digit, and the search finds nothing,
but eight is a seed of two zeros with two octal digits. -/
theorem findSeed_repeatSearch_incomplete :
    (repeatSearch 0).guarded = true ∧ (repeatSearch 0).target ≠ [] ∧
      (∀ a, ∃ output, (repeatSearch 0).output a = .ok output ∧
        output.length = octalLength a.toNat) ∧
      (repeatSearch 0).findSeed.result = .ok none ∧
      octalLength (8 : Word).toNat = (repeatSearch 0).target.length ∧
      (repeatSearch 0).output 8 = .ok (repeatSearch 0).target :=
  ⟨rfl, List.cons_ne_nil _ _, length_output_repeatLoop (by decide),
    result_findSeed_repeatSearch_zero, octalLength_pow 1, by decide⟩

end SeedSearch

end OctalTape

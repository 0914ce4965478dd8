import Mathlib.Logic.Function.Iterate
import Mathlib.Tactic.SplitIfs
import OctalTape.Proofs.Search.Descents

set_option relaxedAutoImplicit false
set_option autoImplicit false

/-!
# How deep a search goes

The search goes down from a number to its extensions, and the number zero is an extension of
itself. Nothing in the numbers keeps the search from going down from zero to zero again and again;
what does is that it only goes down where the output gets longer. So a path begins with one zero
at most, and every other digit makes the number greater. A word has 22 octal digits, hence no path
is longer than 23, however long the target is.

## Main definitions

* `OctalTape.oneCall` — the body of the search, over what it is to do where it calls itself.

## Main results

* `OctalTape.Entered.pow_le_octalValue` — how great the number on a path is at least.
* `OctalTape.iterate_oneCall_eq` — the search is its own body, unrolled often enough.
* `OctalTape.SeedSearch.descents_bounded` — bounds for all descents, and for the nesting of calls.
-/

namespace OctalTape

variable {out : Word → Except Error (List UInt8)} {target : List UInt8}

/-! ## Paths -/

namespace Entered

variable {v : List (Fin 8)}

/-- No path begins with two zeros: the second does not make the output longer. -/
lemma ne_zero_zero (h : Entered out target v) (t : List (Fin 8)) : v ≠ 0 :: 0 :: t := by
  rintro rfl
  obtain ⟨output, hout, -, -, hgrown⟩ := h.extendable [0, 0] (by simp) ⟨t, rfl⟩
  have hword : octalWord [0, 0] = octalWord [0] := rfl
  rw [hword] at hout
  have hsame : matchedLength out [0, 0].dropLast = output.length :=
    matchedLength_of_ok (by simp) hout
  omega

/-- Behind its first two digits, each digit of a path makes the number at least eight times as
great.

**Proof sketch.** The digits do not begin with two zeros (`ne_zero_zero`). So the first or the
second one is at least one, and already counts for as much. -/
lemma pow_le_octalValue (h : Entered out target v) (hlen : 2 ≤ v.length) :
    8 ^ (v.length - 2) ≤ octalValue v := by
  obtain ⟨d, e, t, rfl⟩ : ∃ d e t, v = d :: e :: t := by
    match v, hlen with
    | d :: e :: t, _ => exact ⟨d, e, t, rfl⟩
  have hlead : 1 ≤ d.val ∨ 1 ≤ e.val := by
    by_contra hzero
    obtain ⟨rfl, rfl⟩ : d = 0 ∧ e = 0 := by omega
    exact h.ne_zero_zero t rfl
  rw [octalValue_cons, octalValue_cons]
  show 8 ^ t.length ≤ _
  rcases hlead with hd | he
  · calc 8 ^ t.length ≤ 8 ^ (t.length + 1) := Nat.pow_le_pow_right (by decide) (by omega)
      _ ≤ d.val * 8 ^ (t.length + 1) := Nat.le_mul_of_pos_left _ hd
      _ ≤ _ := Nat.le_add_right _ _
  · calc 8 ^ t.length ≤ e.val * 8 ^ t.length := Nat.le_mul_of_pos_left _ he
      _ ≤ e.val * 8 ^ t.length + octalValue t := Nat.le_add_right _ _
      _ ≤ _ := Nat.le_add_left _ _

/-- No path is longer than 23 digits. -/
lemma length_le (h : Entered out target v) : v.length ≤ 23 := by
  by_cases hlen : 2 ≤ v.length
  · have hpow : 8 ^ (v.length - 2) < 8 ^ 22 :=
      (h.pow_le_octalValue hlen).trans_lt (h.fits.trans (by decide))
    have hlt := (Nat.pow_lt_pow_iff_right (by decide)).mp hpow
    omega
  · omega

end Entered

/-! ## Calls -/

/-- One call of the search, where `call` stands for the calls that it makes itself. -/
def oneCall (out : Word → Except Error (List UInt8)) (target : List UInt8)
    (call : Word → ℕ → ℕ → Report (Option Word)) (stem : Word) (depth matched : ℕ) :
    Report (Option Word) :=
  Report.firstOf (extensions stem) fun candidate => do
    let output ← Report.observe (.tried candidate) (out candidate)
    if output = target then
      return some candidate
    else if target.length < output.length then
      return none
    else if matched < output.length ∧ depth + 1 < target.length ∧ output <:+ target then
      Report.tell (.descended depth candidate output)
      call candidate (depth + 1) output.length
    else
      return none

/-- **The calls of the search are nested at most 24 deep.** From digits that are entered, the
search does the same if its calls are cut off and replaced by anything, as long as this is not done
before the 24th digit.

**Proof sketch.** Induction on the number of calls that are left. Where the search calls itself, it
has entered one more digit, and it never enters 24. -/
theorem iterate_oneCall_eq (beyond : Word → ℕ → ℕ → Report (Option Word)) {u : List (Fin 8)}
    (hu : Entered out target u) {n : ℕ} (hn : 24 ≤ u.length + n) :
    (oneCall out target)^[n] beyond (octalWord u) u.length (matchedLength out u) =
      search out target (octalWord u) u.length (matchedLength out u) := by
  induction n generalizing u with
  | zero =>
    have hlen := hu.length_le
    omega
  | succ n ih =>
    rw [Function.iterate_succ_apply', search, oneCall]
    refine Report.firstOf_congr fun candidate hcandidate => ?_
    rw [extensions_octalWord hu.fits] at hcandidate
    obtain ⟨d, hd, rfl⟩ := List.mem_map.mp hcandidate
    cases hout : out (octalWord (u ++ [d])) with
    | error e => rw [Report.bind_of_error (e := e) rfl, Report.bind_of_error (e := e) rfl]
    | ok output =>
      rw [Report.bind_of_ok (a := output) rfl, Report.bind_of_ok (a := output) rfl]
      split_ifs with hfound hlong hgo
      · rfl
      · rfl
      · have hext : Extendable out target (u ++ [d]) :=
          (extendable_concat_iff hout).mpr ⟨hgo.2.2, hfound, hgo.1⟩
        have hentered := (hu.visited_concat (mem_digitsBehind.mp hd)).entered hext
        have hdeep := ih hentered (by rw [List.length_append, List.length_singleton]; omega)
        rw [matchedLength_of_ok (by simp) hout, List.length_append, List.length_singleton] at hdeep
        rw [hdeep]
      · rfl

namespace SeedSearch

/-- **No search goes deep**, however long its target is. A descent of depth `d` leaves room for
another value of the target, its number has at most `d + 1` octal digits, and at least `d` unless
it is the first; it is zero only at depth zero. So the depth is at most 22, and the calls of the
search are nested at most 24 deep: if the 24th call does anything else where it would call again,
the search is the same.

**Proof sketch.** The descents are into digits that are entered: these are fewer than the values of
the target (`Entered.length_lt`) and at most 23 (`Entered.length_le`), and their number is as great
as `Entered.pow_le_octalValue` says. Twenty-four calls are the descent by `iterate_oneCall_eq`. -/
theorem descents_bounded (q : SeedSearch) :
    (∀ e ∈ (Tally.ofEvents q.findSeed.events).descents,
      e.depth + 1 < q.target.length ∧ e.candidate.toNat < 8 ^ (e.depth + 1) ∧
      (e.candidate = 0 → e.depth = 0) ∧ (1 ≤ e.depth → 8 ^ (e.depth - 1) ≤ e.candidate.toNat) ∧
      e.depth ≤ 22) ∧
    ∀ beyond, (oneCall q.output q.target)^[24] beyond 0 0 0 = q.descend := by
  refine ⟨fun e he => ?_, fun beyond => iterate_oneCall_eq beyond .nil (Nat.le_refl 24)⟩
  obtain ⟨vs, htree, hentered, hdescents⟩ := q.exists_descents_eq
  rw [hdescents] at he
  obtain ⟨v, hv, rfl⟩ := List.mem_map.mp he
  have hne := htree.ne_nil v hv
  have hpath := hentered v hv
  obtain ⟨n, hn⟩ : ∃ n, v.length = n + 1 :=
    Nat.exists_eq_add_one_of_ne_zero (Nat.pos_iff_ne_zero.mp (List.length_pos_iff.mpr hne))
  have hgreat : 1 ≤ n → 8 ^ (n - 1) ≤ octalValue v := by
    intro hpos
    have hpow := hpath.pow_le_octalValue (by omega)
    rwa [show v.length - 2 = n - 1 by omega] at hpow
  simp only [Descent.ofDigits, hn, Nat.add_sub_cancel, ← UInt64.toNat_inj,
    toNat_octalWord hpath.fits]
  refine ⟨hn ▸ hpath.length_lt hne, hn ▸ octalValue_lt v, fun hzero => ?_, hgreat, ?_⟩
  · by_contra hdepth
    have hpos : 0 < 8 ^ (n - 1) := Nat.pow_pos (by decide)
    have hle := hgreat (Nat.pos_of_ne_zero hdepth)
    rw [hzero] at hle
    exact Nat.not_le_of_lt hpos hle
  · have hlen := hpath.length_le
    omega

end SeedSearch

end OctalTape

import OctalTape.Proofs.Machine.Course
import OctalTape.Proofs.Search.FirstPath

set_option relaxedAutoImplicit false
set_option autoImplicit false

/-!
# Searches in cumulative outputs

If each seed emits at its end all that it emits without its lowest octal digit, and something in
front of that, the search misses no target. It does not matter how much a digit adds: on the way
to a seed of the target each prefix of its digits emits a proper part of the end of the target,
and a longer one than the prefix before, so the search comes to all of them.

## Main definitions

* `OctalTape.Cumulative` — outputs that grow at their front with each octal digit of the seed.
* `OctalTape.BitLoop.bitLoop` — a program that adds three values for each octal digit.

## Main results

* `OctalTape.Cumulative.decisive_octalString` — a seed of the target is written with decisive
  digits.
* `OctalTape.SeedSearch.findSeed_of_cumulative` — the search without the guard finds a seed of
  the target if there is one.
* `OctalTape.BitLoop.cumulative` — the outputs of the bit loop are cumulative.
-/

namespace OctalTape

/-- Outputs that grow at their front with each octal digit of the seed. -/
structure Cumulative (out : Word → Except Error (List UInt8)) : Prop where
  /-- No run fails, -/
  halts : ∀ a, ∃ output, out a = .ok output
  /-- a single digit emits something, -/
  ne_nil : ∀ {a}, a < 8 → out a ≠ .ok []
  /-- and without its lowest digit a seed emits a proper part of the end of its output. -/
  out_div : ∀ {a output}, 8 ≤ a → out a = .ok output →
    ∃ part, out (a / 8) = .ok part ∧ part <:+ output ∧ part ≠ output

namespace Cumulative

variable {out : Word → Except Error (List UInt8)} {target : List UInt8}

/-! ## The digits of a seed -/

/-- The highest digits of a seed emit a part of the end of its output, which is a proper part
unless they are all of its digits, and a longer one than that of one digit fewer.

**Proof sketch.** Induction on the digits of the seed. Of all of them, one digit fewer denotes the
eighth part of the seed, whose output is a proper part of the end. Fewer digits are digits of that
eighth part. -/
lemma exists_out_of_isPrefix (h : Cumulative out) {a : Word} {output : List UInt8}
    (hout : out a = .ok output) {u : List (Fin 8)} (hu : u ≠ [])
    (hpre : u <+: octalString a.toNat) :
    ∃ part, out (octalWord u) = .ok part ∧ part <:+ output ∧
      (u ≠ octalString a.toNat → part ≠ output) ∧
      matchedLength out u.dropLast < part.length := by
  induction hn : a.toNat using octalString.induct generalizing a output with
  | case1 n hlt =>
    have ha : a < 8 := by
      rw [UInt64.lt_iff_toNat_lt, hn]
      exact hlt
    obtain ⟨d, hd⟩ : ∃ d, octalString a.toNat = [d] := ⟨_, by rw [hn, octalString_of_lt hlt]⟩
    obtain rfl : u = octalString a.toNat := by
      have hpos := List.length_pos_iff.mpr hu
      have hle := hpre.length_le
      refine hpre.eq_of_length ?_
      rw [hd, List.length_singleton] at hle ⊢
      omega
    have hpos : 0 < output.length :=
      List.length_pos_iff.mpr fun hnil => h.ne_nil ha (hnil ▸ hout)
    rw [hn] at hd
    rw [octalWord_octalString, hn, hd]
    exact ⟨output, hout, List.suffix_refl output, fun hne => absurd rfl hne, hpos⟩
  | case2 n hge ih =>
    have ha : 8 ≤ a := by
      rw [UInt64.le_iff_toNat_le, hn]
      exact Nat.le_of_not_lt hge
    have hdiv : (a / 8).toNat = n / 8 := by
      rw [UInt64.toNat_div, hn]
      rfl
    obtain ⟨part, hpart, hsuffix, hne⟩ := h.out_div ha hout
    have hshort := length_lt_of_isSuffix_of_ne hsuffix hne
    rw [hn] at hpre
    by_cases heq : u = octalString n
    · have hword : octalWord u = a := by rw [heq, ← hn, octalWord_octalString]
      have hdrop : u.dropLast = octalString (a / 8).toNat := by
        rw [heq, octalString_of_le (Nat.le_of_not_lt hge), List.dropLast_concat, hdiv]
      refine ⟨output, by rw [hword, hout], List.suffix_refl output, fun hne => absurd heq hne, ?_⟩
      rw [hdrop, matchedLength_of_ok (octalString_ne_nil _) (by rw [octalWord_octalString, hpart])]
      exact hshort
    · have hpre' : u <+: octalString (a / 8).toNat := by
        rw [octalString_of_le (Nat.le_of_not_lt hge)] at hpre heq
        rw [hdiv]
        exact isPrefix_concat_and_ne_iff.mp ⟨hpre, heq⟩
      obtain ⟨part', hpart', hsuffix', -, hgrown⟩ := ih hpart hpre' hdiv
      refine ⟨part', hpart', hsuffix'.trans hsuffix, fun _ hall => ?_, hgrown⟩
      have hle := hsuffix'.length_le
      rw [hall] at hle
      omega

/-- A seed of the target is written with decisive digits. -/
theorem decisive_octalString (h : Cumulative out) {a : Word} (hout : out a = .ok target) :
    Decisive out target (octalString a.toNat) := by
  refine ⟨⟨octalString_ne_nil _, ?_, fun u hu hpre hne => ?_⟩, .inr ?_⟩
  · rw [octalValue_octalString]
    exact a.toNat_lt_size
  · obtain ⟨part, hpart, hsuffix, hproper, hgrown⟩ := h.exists_out_of_isPrefix hout hu hpre
    exact ⟨part, hpart, hsuffix, hproper hne, hgrown⟩
  · rw [octalWord_octalString, hout]

end Cumulative

/-! ## The bit loop -/

namespace BitLoop

open Program

/-- A loop that shifts one bit out of register A in each pass and emits what is left. -/
def bitLoop : Program := ⟨#[0, 1, 5, 4, 3, 0], rfl, by simp⟩

/-- The values that the bit loop emits if register A holds `a`. -/
def emissions (a : Word) : List UInt8 :=
  (a / 2).lowDigit.toUInt8 :: if a < 2 then [] else emissions (a / 2)
termination_by a.toNat
decreasing_by
  rename_i hlt
  rw [UInt64.lt_iff_toNat_lt] at hlt
  rw [UInt64.toNat_div]
  simp only [UInt64.reduceToNat] at hlt ⊢
  omega

/-- One pass halves register A and emits a value. It ends behind the tape if A is exhausted, and
else at the start of the tape.

**Proof sketch.** Three steps: the shift halves A, the value is emitted, and the jump sees a zero
exactly if A was less than two. -/
lemma after_pass (n : ℕ) (a b c : Word) (output : Array UInt8) (steps : ℕ) :
    bitLoop.after (n + 3) ⟨⟨⟨a, b, c⟩, 0⟩, output, steps⟩ =
      bitLoop.after n ⟨⟨⟨a / 2, b, c⟩, if a < 2 then 6 else 0⟩,
        output.push (a / 2).lowDigit.toUInt8, steps + 3⟩ := by
  have hhalf : a.divPow2 1 = a / 2 := by
    rw [← UInt64.toNat_inj, Word.toNat_divPow2, UInt64.toNat_div, Nat.shiftRight_eq_div_pow]
    rfl
  have hshift : bitLoop.step ⟨⟨a, b, c⟩, 0⟩ = .next ⟨⟨⟨a / 2, b, c⟩, 2⟩, none⟩ := by
    rw [← hhalf]
    rfl
  have hemit : bitLoop.step ⟨⟨a / 2, b, c⟩, 2⟩ =
      .next ⟨⟨⟨a / 2, b, c⟩, 4⟩, some (a / 2).lowDigit.toUInt8⟩ := rfl
  have hzero : a / 2 = 0 ↔ a < 2 := by
    rw [← UInt64.toNat_inj, UInt64.toNat_div, UInt64.lt_iff_toNat_lt]
    show _ / 2 = 0 ↔ _ < 2
    omega
  have hjump : bitLoop.step ⟨⟨a / 2, b, c⟩, 4⟩ =
      .next ⟨⟨⟨a / 2, b, c⟩, if a < 2 then 6 else 0⟩, none⟩ := by
    split
    · next hlt => exact step_of_jnz_of_a_eq_zero (i := ⟨.jnz, 0⟩) rfl rfl (hzero.mpr hlt)
    · next hlt => exact step_of_jnz_of_a_ne_zero (x := 0) rfl (mt hzero.mp hlt) rfl
  rw [after_succ_of_next hshift]
  exact (after_succ_of_next hemit).trans
    (after_succ_of_next (r := ⟨⟨⟨a / 2, b, c⟩, 4⟩, _, _⟩) hjump)

/-- The passes halve register A until it is exhausted, and then the machine is behind the tape. -/
lemma exists_after_passes (a : Word) : ∀ (b c : Word) (output : Array UInt8) (steps : ℕ),
    ∃ s, bitLoop.after (3 * (emissions a).length) ⟨⟨⟨a, b, c⟩, 0⟩, output, steps⟩ = some s ∧
      s.output.toList = output.toList ++ emissions a ∧ s.config.pointer = 6 := by
  induction a using emissions.induct with
  | case1 a ih =>
    intro b c output steps
    rw [emissions, List.length_cons, Nat.mul_add, Nat.mul_one, after_pass]
    by_cases ha : a < 2
    · simp [ha]
    · obtain ⟨s, hs, hout, hsp⟩ := ih ha b c (output.push (a / 2).lowDigit.toUInt8) (steps + 3)
      rw [if_neg ha, if_neg ha]
      exact ⟨s, hs, by rw [hout]; simp, hsp⟩

/-- There are no more passes than a word has bits.

**Proof sketch.** Induction on the bits: one pass halves register A. -/
lemma length_emissions_le (n : ℕ) : ∀ {a : Word}, a.toNat < 2 ^ (n + 1) →
    (emissions a).length ≤ n + 1 := by
  induction n with
  | zero =>
    intro a ha
    rw [emissions, if_pos (UInt64.lt_iff_toNat_lt.mpr ha)]
    exact Nat.le_refl 1
  | succ n ih =>
    intro a ha
    have hhalf : (a / 2).toNat < 2 ^ (n + 1) := by
      rw [UInt64.toNat_div]
      show a.toNat / 2 < _
      rw [Nat.pow_succ] at ha
      omega
    rw [emissions, List.length_cons]
    split
    · exact Nat.succ_le_succ (Nat.zero_le _)
    · exact Nat.succ_le_succ (ih hhalf)

/-- The output of a seed is what its passes emit. -/
lemma outputOf_eq {limit : ℕ} (hlimit : 192 ≤ limit) (a : Word) :
    bitLoop.outputOf limit a = .ok (emissions a) := by
  obtain ⟨s, hs, hout, hsp⟩ := exists_after_passes a 0 0 #[] 0
  have hlen := length_emissions_le 63 a.toNat_lt
  have hhalt : bitLoop.step s.config = .halt := by
    rw [step_eq_halt_iff, hsp]
    rfl
  exact outputOf_eq_ok_iff.mpr ⟨_, by omega, s, hs, hhalt, by simpa using hout⟩

/-- Three passes take one octal digit off a seed. -/
lemma exists_emissions_eq {a : Word} (ha : 8 ≤ a) :
    ∃ x y z, emissions a = x :: y :: z :: emissions (a / 8) := by
  have hhalf : a / 2 / 2 / 2 = a / 8 := by
    simp only [← UInt64.toNat_inj, UInt64.toNat_div]
    show a.toNat / 2 / 2 / 2 = a.toNat / 8
    omega
  have hge : ¬ a < 2 ∧ ¬ a / 2 < 2 ∧ ¬ a / 2 / 2 < 2 := by
    simp only [UInt64.lt_iff_toNat_lt, UInt64.le_iff_toNat_le, UInt64.toNat_div,
      UInt64.reduceToNat] at ha ⊢
    omega
  rw [emissions, if_neg hge.1, emissions, if_neg hge.2.1, emissions, if_neg hge.2.2, hhalf]
  exact ⟨_, _, _, rfl⟩

/-- The outputs of the bit loop are cumulative.

**Proof sketch.** The eighth part of a number is what three passes leave of it, so its values are
those behind the first three. -/
theorem cumulative {limit : ℕ} (hlimit : 192 ≤ limit) : Cumulative (bitLoop.outputOf limit) where
  halts a := ⟨_, outputOf_eq hlimit a⟩
  ne_nil {a} _ hnil := by
    rw [outputOf_eq hlimit, Except.ok.injEq, emissions] at hnil
    exact List.cons_ne_nil _ _ hnil
  out_div {a output} ha hout := by
    rw [outputOf_eq hlimit, Except.ok.injEq] at hout
    obtain ⟨x, y, z, heq⟩ := exists_emissions_eq ha
    refine ⟨emissions (a / 8), outputOf_eq hlimit _, ?_, ?_⟩
    · rw [← hout, heq]
      exact ⟨[x, y, z], rfl⟩
    · rw [← hout, heq]
      intro hall
      have hlen := congrArg List.length hall
      simp only [List.length_cons] at hlen
      omega

end BitLoop

/-! ## The search -/

/-- In cumulative outputs the descent finds the seed on the first decisive path, or there is no seed
of the target and it finds nothing.

**Proof sketch.** No run fails, so neither does the descent. If it finds nothing, there are no
decisive digits, and those of a seed would be decisive (`Cumulative.decisive_octalString`). -/
lemma SeedSearch.descend_cases_of_cumulative (q : SeedSearch) (h : Cumulative q.output) :
    (∃ w, FirstDecisive q.output q.target w ∧ q.output (octalWord w) = .ok q.target ∧
      q.descend.result = .ok (some (octalWord w))) ∨
    (q.descend.result = .ok none ∧ ∀ a, q.output a ≠ .ok q.target) := by
  cases hresult : q.descend.result with
  | error e =>
    obtain ⟨w, -, he⟩ := result_descend_eq_error_iff.mp hresult
    obtain ⟨output, hok⟩ := h.halts (octalWord w)
    rw [hok] at he
    cases he
  | ok found =>
    cases found with
    | none =>
      have hnone := result_descend_eq_none_iff.mp hresult
      exact .inr ⟨rfl, fun a ha => hnone _ (h.decisive_octalString ha)⟩
    | some s =>
      obtain ⟨w, hw, rfl, hout⟩ := result_descend_eq_some_iff.mp hresult
      exact .inl ⟨w, hw, hout, rfl⟩

/-- **The search is complete in cumulative outputs.** If each seed emits at its end all that it
emits without its lowest octal digit, and more, a search without the guard finds a seed of the
target if there is one, and finds nothing exactly if there is none. -/
theorem SeedSearch.findSeed_of_cumulative (q : SeedSearch) (h : Cumulative q.output) :
    let found := (SeedSearch.findSeed { q with guarded := false }).result
    ((∃ a, q.output a = .ok q.target) →
      ∃ s, found = .ok (some s) ∧ q.output s = .ok q.target) ∧
    (found = .ok none ↔ ∀ a, q.output a ≠ .ok q.target) := by
  intro found
  have hfound : found = q.descend.result := result_findSeed_of_not_guarded rfl
  rw [hfound]
  rcases q.descend_cases_of_cumulative h with ⟨w, -, hout, hseed⟩ | ⟨hnone, hempty⟩
  · rw [hseed]
    exact ⟨fun _ => ⟨_, rfl, hout⟩, iff_of_false nofun fun hempty => hempty _ hout⟩
  · rw [hnone]
    exact ⟨fun ⟨a, ha⟩ => absurd ha (hempty a), iff_of_true rfl hempty⟩

namespace SeedSearch

/-- The question for a seed from which the bit loop emits four, two, one and zero. -/
def bitSearch : SeedSearch where
  program := BitLoop.bitLoop
  target := [4, 2, 1, 0]
  stepLimit := 192

/-- The search without the guard finds a seed from which the bit loop emits four values, though
it has only two octal digits. -/
theorem findSeed_bitSearch :
    Cumulative bitSearch.output ∧
      ∃ s, (findSeed { bitSearch with guarded := false }).result = .ok (some s) ∧
        bitSearch.output s = .ok [4, 2, 1, 0] := by
  have hcum : Cumulative bitSearch.output := BitLoop.cumulative (by decide)
  exact ⟨hcum, (findSeed_of_cumulative bitSearch hcum).1 ⟨8, by decide⟩⟩

end SeedSearch

end OctalTape

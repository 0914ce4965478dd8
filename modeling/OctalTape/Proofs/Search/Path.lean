import Mathlib.Tactic.Basic
import OctalTape.Proofs.Search.Visit

set_option relaxedAutoImplicit false
set_option autoImplicit false

/-!
# Paths of digits

The descent adds one octal digit after the other, so where it stands is a list of digits. Which
lists it may come to, and from which it goes on to longer ones, can be said by the outputs of
their prefixes alone.

## Main definitions

* `OctalTape.Extendable` — digits behind which the search looks for another digit.
* `OctalTape.Visited` — digits that the search comes to unless it has ended before.
* `OctalTape.Decisive` — visited digits whose run fails or emits the target.
* `OctalTape.DeadEnd` — visited digits that the search does not go on from.
* `OctalTape.Entered` — digits that the search goes on from unless it has ended before.

## Main results

* `OctalTape.length_le_matchedLength` — extendable digits have an output for each of them.
* `OctalTape.Visited.decisive_or_extendable_or_deadEnd` — digits that the search comes to end it,
  lead on, or are a dead end.
-/

namespace OctalTape

/-! ## Where the search can be -/

section Paths

variable (out : Word → Except Error (List UInt8)) (target : List UInt8)

/-- The length of the output from some digits; nothing is emitted from no digits. -/
def matchedLength (w : List (Fin 8)) : ℕ :=
  match w, out (octalWord w) with
  | _ :: _, .ok output => output.length
  | _, _ => 0

/-- Another digit is sought behind these: their output is a proper part of the end of the target,
and a longer one than that of the digits without the last. -/
def Extendable (w : List (Fin 8)) : Prop :=
  ∃ output, out (octalWord w) = .ok output ∧ output <:+ target ∧ output ≠ target ∧
    matchedLength out w.dropLast < output.length

/-- Digits that the search comes to unless it has ended before: they denote a word, and each
proper prefix of them is extendable. -/
structure Visited (w : List (Fin 8)) : Prop where
  ne_nil : w ≠ []
  fits : octalValue w < UInt64.size
  extendable : ∀ u, u ≠ [] → u <+: w → u ≠ w → Extendable out target u

/-- Visited digits that end the search: their run fails, or emits the target. -/
structure Decisive (w : List (Fin 8)) : Prop where
  visited : Visited out target w
  ends : (∃ e, out (octalWord w) = .error e) ∨ out (octalWord w) = .ok target

/-- Digits at which the search turns back: it comes to them, and their output is not the target,
and either no part of its end or no longer than that of the digits without the last. -/
structure DeadEnd (w : List (Fin 8)) : Prop where
  visited : Visited out target w
  turns : ∃ output, out (octalWord w) = .ok output ∧ output ≠ target ∧
    ¬ (output <:+ target ∧ matchedLength out w.dropLast < output.length)

/-- Digits that the search goes on from unless it has ended before: they denote a word, and they
and their prefixes are extendable. It begins with no digits at all. -/
structure Entered (w : List (Fin 8)) : Prop where
  fits : octalValue w < UInt64.size
  extendable : ∀ u, u ≠ [] → u <+: w → Extendable out target u

end Paths

variable {out : Word → Except Error (List UInt8)} {target : List UInt8}

/-! ## Prefixes -/

/-- A prefix other than the whole is a prefix of what stands before the last digit. -/
lemma isPrefix_concat_and_ne_iff {u w : List (Fin 8)} {d : Fin 8} :
    u <+: w ++ [d] ∧ u ≠ w ++ [d] ↔ u <+: w := by
  refine ⟨fun ⟨hpre, hne⟩ => (List.prefix_concat_iff.mp hpre).resolve_left hne, fun hpre => ?_⟩
  refine ⟨hpre.trans (List.prefix_append w [d]), fun heq => ?_⟩
  have hle := hpre.length_le
  rw [heq, List.length_append, List.length_singleton] at hle
  omega

/-- Digits that begin with others and are not these go on with some digit. -/
lemma isPrefix_and_ne_iff {u w : List (Fin 8)} :
    u <+: w ∧ w ≠ u ↔ ∃ d, u ++ [d] <+: w := by
  constructor
  · rintro ⟨⟨t, rfl⟩, hne⟩
    cases t with
    | nil => exact absurd (List.append_nil u) hne
    | cons d t => exact ⟨d, t, by simp⟩
  · rintro ⟨d, t, rfl⟩
    exact ⟨⟨d :: t, by simp⟩, by simp⟩

/-! ## Digits on the way -/

/-- The length of an output from some digits. -/
lemma matchedLength_of_ok {u : List (Fin 8)} {output : List UInt8} (hu : u ≠ [])
    (h : out (octalWord u) = .ok output) : matchedLength out u = output.length := by
  cases u with
  | nil => exact absurd rfl hu
  | cons d u => simp [matchedLength, h]

/-- With one more digit, digits are visited if that fits and those before it are extendable. -/
lemma visited_concat_iff {u : List (Fin 8)} {d : Fin 8} :
    Visited out target (u ++ [d]) ↔ octalValue (u ++ [d]) < UInt64.size ∧
      ∀ v, v ≠ [] → v <+: u → Extendable out target v := by
  constructor
  · intro h
    refine ⟨h.fits, fun v hv hpre => ?_⟩
    obtain ⟨hpre, hne⟩ := isPrefix_concat_and_ne_iff.mpr hpre
    exact h.extendable v hv hpre hne
  · rintro ⟨hfits, hu⟩
    exact ⟨by simp, hfits, fun v hv hpre hne =>
      hu v hv (isPrefix_concat_and_ne_iff.mp ⟨hpre, hne⟩)⟩

/-- With one more digit, digits are extendable if the output is longer than without it and a
proper part of the end of the target. -/
lemma extendable_concat_iff {u : List (Fin 8)} {d : Fin 8} {output : List UInt8}
    (hout : out (octalWord (u ++ [d])) = .ok output) :
    Extendable out target (u ++ [d]) ↔
      output <:+ target ∧ output ≠ target ∧ matchedLength out u < output.length := by
  unfold Extendable
  rw [List.dropLast_concat, hout]
  constructor
  · rintro ⟨_, ⟨⟩, h⟩
    exact h
  · intro h
    exact ⟨output, rfl, h⟩

/-- The output of extendable digits is longer than that of the digits without the last. -/
lemma Extendable.matchedLength_dropLast_lt {u : List (Fin 8)} (h : Extendable out target u)
    (hu : u ≠ []) : matchedLength out u.dropLast < matchedLength out u := by
  obtain ⟨output, hout, -, -, hlt⟩ := h
  rwa [matchedLength_of_ok hu hout]

/-- The output of extendable digits is shorter than the target. -/
lemma Extendable.matchedLength_lt {u : List (Fin 8)} (h : Extendable out target u)
    (hu : u ≠ []) : matchedLength out u < target.length := by
  obtain ⟨output, hout, hsuffix, hne, -⟩ := h
  rw [matchedLength_of_ok hu hout]
  exact length_lt_of_isSuffix_of_ne hsuffix hne

/-- Digits all of whose prefixes are extendable have an output for each of them, because each
digit makes the output longer. -/
lemma length_le_matchedLength {u : List (Fin 8)}
    (hu : ∀ v, v ≠ [] → v <+: u → Extendable out target v) :
    u.length ≤ matchedLength out u := by
  induction u using List.reverseRecOn with
  | nil => exact Nat.zero_le _
  | append_singleton u d ih =>
    have hle := ih fun v hv hvu => hu v hv (hvu.trans (List.prefix_append _ _))
    have hlt := (hu (u ++ [d]) (by simp) (List.prefix_refl _)).matchedLength_dropLast_lt (by simp)
    rw [List.dropLast_concat] at hlt
    rw [List.length_append, List.length_singleton]
    omega

namespace Entered

variable {u w : List (Fin 8)} {d : Fin 8}

/-- The search begins with no digits. -/
lemma nil : Entered out target [] :=
  ⟨by decide, fun _ hne hpre => absurd (List.prefix_nil.mp hpre) hne⟩

/-- What the search has entered, it has entered digit by digit. -/
lemma of_isPrefix (h : Entered out target w) (hpre : u <+: w) : Entered out target u :=
  ⟨(octalValue_le_of_isPrefix hpre).trans_lt h.fits,
    fun v hv hvu => h.extendable v hv (hvu.trans hpre)⟩

/-- The search comes to the digits behind those that it has entered. -/
lemma visited_concat (h : Entered out target u) (hfits : octalValue (u ++ [d]) < UInt64.size) :
    Visited out target (u ++ [d]) :=
  visited_concat_iff.mpr ⟨hfits, h.extendable⟩

/-- Digits that are entered leave room for another digit in the target. -/
lemma length_lt (h : Entered out target w) (hw : w ≠ []) : w.length < target.length :=
  (length_le_matchedLength h.extendable).trans_lt
    ((h.extendable w hw (List.prefix_refl w)).matchedLength_lt hw)

end Entered

/-- Extendable digits that the search comes to are entered. -/
lemma Visited.entered {w : List (Fin 8)} (h : Visited out target w)
    (hext : Extendable out target w) : Entered out target w := by
  refine ⟨h.fits, fun u hu hpre => ?_⟩
  by_cases hne : u = w
  · exact hne ▸ hext
  · exact h.extendable u hu hpre hne

/-- On the way to digits that the search comes to, it has entered all others. -/
lemma Visited.entered_of_isPrefix {u w : List (Fin 8)} (h : Visited out target w)
    (hpre : u <+: w) (hne : u ≠ w) : Entered out target u := by
  refine ⟨(octalValue_le_of_isPrefix hpre).trans_lt h.fits, fun v hv hvu => ?_⟩
  refine h.extendable v hv (hvu.trans hpre) ?_
  rintro rfl
  exact hne (hpre.eq_of_length_le hvu.length_le)

/-! ## What ends the search, leads on, or does neither -/

/-- Digits that the search comes to end it, lead on, or are a dead end. -/
lemma Visited.decisive_or_extendable_or_deadEnd {w : List (Fin 8)} (h : Visited out target w) :
    Decisive out target w ∨ Extendable out target w ∨ DeadEnd out target w := by
  cases hout : out (octalWord w) with
  | error e => exact .inl ⟨h, .inl ⟨e, hout⟩⟩
  | ok output =>
    by_cases heq : output = target
    · exact .inl ⟨h, .inr (by rw [hout, heq])⟩
    · by_cases hgo : output <:+ target ∧ matchedLength out w.dropLast < output.length
      · exact .inr (.inl ⟨output, hout, hgo.1, heq, hgo.2⟩)
      · exact .inr (.inr ⟨h, output, hout, heq, hgo⟩)

/-- Digits whose run emits something else do not end the search. -/
lemma not_decisive_of_ne {w : List (Fin 8)} {output : List UInt8}
    (hout : out (octalWord w) = .ok output) (hne : output ≠ target) :
    ¬ Decisive out target w := by
  rintro ⟨-, ⟨e, he⟩ | hfound⟩
  · rw [hout] at he
    cases he
  · rw [hout] at hfound
    exact hne (Except.ok.inj hfound)

/-- Extendable digits do not end the search. -/
lemma Extendable.not_decisive {w : List (Fin 8)} (h : Extendable out target w) :
    ¬ Decisive out target w := by
  obtain ⟨output, hout, -, hne, -⟩ := h
  exact not_decisive_of_ne hout hne

/-- A dead end does not end the search. -/
lemma DeadEnd.not_decisive {w : List (Fin 8)} (h : DeadEnd out target w) :
    ¬ Decisive out target w := by
  obtain ⟨output, hout, hne, -⟩ := h.turns
  exact not_decisive_of_ne hout hne

/-- A dead end does not lead on. -/
lemma DeadEnd.not_extendable {w : List (Fin 8)} (h : DeadEnd out target w) :
    ¬ Extendable out target w := by
  obtain ⟨output, hout, -, hturn⟩ := h.turns
  rintro ⟨output', hout', hsuffix, -, hlt⟩
  rw [hout, Except.ok.injEq] at hout'
  subst hout'
  exact hturn ⟨hsuffix, hlt⟩

end OctalTape

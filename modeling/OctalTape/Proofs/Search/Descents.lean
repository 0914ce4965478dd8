import OctalTape.Proofs.Search.Guard
import OctalTape.Proofs.Search.Walk

set_option relaxedAutoImplicit false
set_option autoImplicit false

/-!
# The descents of a search

The descents that a search records are a tree of digits in preorder: each stands behind its parent,
with nothing but other descents behind the parent in between, and those of one depth are in the
order of their numbers. The same number may be recorded at two depths, because a seed may be
written with a zero in front of it, but as lists of digits no two descents are the same. So the
order of the records is the lexicographic order of the digits.

## Main definitions

* `OctalTape.DigitTree` — lists of digits that form a tree, in preorder.

## Main results

* `OctalTape.DigitTree.exists_parent` — where the parent of a list stands.
* `OctalTape.Walk.digitTree` — the digits that a walk enters are a tree in preorder.
* `OctalTape.SeedSearch.exists_descents_eq` — the descents of a search are those into the digits of
  such a tree.
* `OctalTape.SeedSearch.descents_preorder` — how the descents of a search are ordered, and what the
  program emits from each.
-/

namespace OctalTape

variable {out : Word → Except Error (List UInt8)} {target : List UInt8}

/-! ## Trees of digits -/

/-- Lists of digits that form a tree below the empty list, in preorder: they are in their
lexicographic order, and each has its parent in the tree. -/
structure DigitTree (vs : List (List (Fin 8))) : Prop where
  pairwise : vs.Pairwise (· < ·)
  ne_nil : ∀ v ∈ vs, v ≠ []
  closed : ∀ v ∈ vs, ∀ u, u ≠ [] → u <+: v → u ∈ vs

namespace DigitTree

variable {vs before after : List (List (Fin 8))} {v w : List (Fin 8)}

/-- There is a tree without digits. -/
lemma nil : DigitTree [] := ⟨List.Pairwise.nil, nofun, nofun⟩

/-- What stands behind some digits comes behind them in the lexicographic order. -/
lemma lt_of_mem (h : DigitTree vs) (hvs : vs = before ++ v :: after) :
    (∀ w ∈ before, w < v) ∧ ∀ w ∈ after, v < w := by
  have hsorted := h.pairwise
  rw [hvs, List.pairwise_append, List.pairwise_cons] at hsorted
  exact ⟨fun w hw => hsorted.2.2 w hw v List.mem_cons_self, hsorted.2.1.1⟩

/-- **The parent of a list** of several digits stands in front of it, and what is in between goes on
from the parent.

**Proof sketch.** The parent is in the tree and comes before the list in the lexicographic order.
What lies between the two in this order begins with the parent. -/
theorem exists_parent (h : DigitTree vs) (hvs : vs = before ++ v :: after) (hv : v.dropLast ≠ []) :
    ∃ front between, before = front ++ v.dropLast :: between ∧
      ∀ w ∈ between, v.dropLast.length < w.length := by
  have hmem : v ∈ vs := hvs ▸ List.mem_append_right _ List.mem_cons_self
  have hpre : v.dropLast <+: v := List.dropLast_prefix v
  have hne : v ≠ v.dropLast := by
    intro heq
    have hpos := List.length_pos_iff.mpr (h.ne_nil v hmem)
    have hlen := congrArg List.length heq
    rw [List.length_dropLast] at hlen
    omega
  have hlt : v.dropLast < v := lt_of_isPrefix_of_ne hpre hne
  obtain ⟨hbefore, hafter⟩ := h.lt_of_mem hvs
  have hparent : v.dropLast ∈ before := by
    have hin := h.closed v hmem v.dropLast hv hpre
    rw [hvs, List.mem_append, List.mem_cons] at hin
    rcases hin with hin | heq | hin
    · exact hin
    · exact absurd heq.symm hne
    · exact absurd hlt (List.lt_asymm (hafter _ hin))
  obtain ⟨front, between, rfl⟩ := List.append_of_mem hparent
  refine ⟨front, between, rfl, fun w hw => ?_⟩
  rw [List.append_assoc, List.cons_append] at hvs
  have hgt := (h.lt_of_mem hvs).2 w (List.mem_append_left _ hw)
  have hless := hbefore w (List.mem_append_right _ (List.mem_cons_of_mem _ hw))
  have hbegins := isPrefix_of_lt_of_lt hgt hless hpre
  refine Nat.lt_of_le_of_ne hbegins.length_le fun hlen => ?_
  rw [hbegins.eq_of_length hlen] at hgt
  exact List.lt_irrefl w hgt

end DigitTree

/-- **The digits that a walk enters** from no digits on are a tree in preorder. -/
theorem Walk.digitTree {x : Option (List (Fin 8))} {vs : List (List (Fin 8))} {n : ℕ}
    (h : Walk out target [] (digitsBehind []) x vs n) : DigitTree vs := by
  have hsorted := pairwise_digitsBehind []
  refine ⟨h.pairwise hsorted, fun v hv => ?_, fun v hv u hu hpre => ?_⟩
  · exact ((h.mem_iff hsorted).mp hv).2.1.isPrefix_and_ne.2
  · obtain ⟨hentered, -, hbefore⟩ := (h.mem_iff hsorted).mp hv
    have hentered' := hentered.of_isPrefix hpre
    refine (h.mem_iff hsorted).mpr ⟨hentered', ?_, fun w hw => ?_⟩
    · exact ((isPrefix_iff_eq_or_goesOn hentered'.fits).mp List.nil_prefix).resolve_left hu
    · by_cases heq : v = u
      · exact heq ▸ hbefore w hw
      · exact List.lt_trans (lt_of_isPrefix_of_ne hpre heq) (hbefore w hw)

/-! ## Descents -/

/-- Without its last digit, a number is divided by eight. -/
lemma octalWord_dropLast {v : List (Fin 8)} (hne : v ≠ []) (hv : octalValue v < UInt64.size) :
    octalWord v.dropLast = octalWord v / 8 := by
  obtain ⟨u, d, rfl⟩ : ∃ u d, v = u ++ [d] := ⟨_, _, (List.dropLast_concat_getLast hne).symm⟩
  have hu := (octalValue_le_of_isPrefix (List.prefix_append u [d])).trans_lt hv
  have hd := d.isLt
  rw [List.dropLast_concat, ← UInt64.toNat_inj, UInt64.toNat_div, toNat_octalWord hu,
    toNat_octalWord hv, octalValue_concat]
  show _ = _ / 8
  omega

namespace DigitTree

variable {vs : List (List (Fin 8))}

/-- In front of a descent that is not the first on its way stands the descent into one digit
fewer, and the descents in between are no less deep.

**Proof sketch.** A descent comes from digits, and its parent from all of these but the last, which
denote the eighth part. So this is `exists_parent` in the tree, with depths and numbers read off
the digits. -/
lemma exists_parent_descent (h : DigitTree vs) (hfits : ∀ v ∈ vs, octalValue v < UInt64.size)
    {before after : List Descent} {depth : ℕ} {candidate : Word}
    (hds : vs.map Descent.ofDigits = before ++ ⟨depth + 1, candidate⟩ :: after) :
    ∃ front between, before = front ++ ⟨depth, candidate / 8⟩ :: between ∧
      ∀ e ∈ between, depth + 1 ≤ e.depth := by
  obtain ⟨before, rest, rfl, rfl, hrest⟩ := List.map_eq_append_iff.mp hds
  obtain ⟨v, after, rfl, hv, rfl⟩ := List.map_eq_cons_iff.mp hrest
  obtain ⟨hdepth, rfl⟩ := Descent.mk.inj hv
  have hmem : v ∈ before ++ v :: after := List.mem_append_right _ List.mem_cons_self
  have hlen : v.dropLast.length = depth + 1 := by
    rw [List.length_dropLast, hdepth]
  have hparent : v.dropLast ≠ [] := List.ne_nil_of_length_eq_add_one hlen
  obtain ⟨front, between, rfl, hdeeper⟩ := h.exists_parent rfl hparent
  refine ⟨front.map Descent.ofDigits, between.map Descent.ofDigits, ?_, fun e he => ?_⟩
  · have hword := octalWord_dropLast (h.ne_nil v hmem) (hfits v hmem)
    simp [Descent.ofDigits, hlen, hword]
  · obtain ⟨w, hw, rfl⟩ := List.mem_map.mp he
    have hlonger := hdeeper w hw
    show depth + 1 ≤ w.length - 1
    omega

/-- The descents of one depth are in the order of their numbers, and a descent that is recorded
later and is no less deep does not go on from a lesser number.

**Proof sketch.** The digits of the descents are in order. Digits that come before others and are
no prefix of them denote less than as many of the first digits of the others do
(`octalValue_lt_div_of_lt`), and a prefix denotes as much. Of the same length, none is a prefix of
another. -/
lemma pairwise_descents (h : DigitTree vs) (hfits : ∀ v ∈ vs, octalValue v < UInt64.size) :
    (vs.map Descent.ofDigits).Pairwise fun e f =>
      (e.depth = f.depth → e.candidate < f.candidate) ∧
      (e.depth ≤ f.depth →
        e.candidate.toNat ≤ f.candidate.toNat / 8 ^ (f.depth - e.depth)) := by
  refine List.pairwise_map.mpr (h.pairwise.imp_of_mem fun {v w} hv hw hlt => ?_)
  have hvpos := List.length_pos_iff.mpr (h.ne_nil v hv)
  have hwpos := List.length_pos_iff.mpr (h.ne_nil w hw)
  simp only [Descent.ofDigits, UInt64.lt_iff_toNat_lt, toNat_octalWord (hfits v hv),
    toNat_octalWord (hfits w hw)]
  constructor
  · intro hdepth
    have hlen : v.length = w.length := by omega
    have hpre : ¬ v <+: w := by
      intro hpre
      rw [hpre.eq_of_length hlen] at hlt
      exact List.lt_irrefl w hlt
    have hless := octalValue_lt_div_of_lt hlen.le hlt hpre
    rwa [hlen, Nat.sub_self, Nat.pow_zero, Nat.div_one] at hless
  · intro hdepth
    have hlen : v.length ≤ w.length := by omega
    rw [show w.length - 1 - (v.length - 1) = w.length - v.length by omega]
    by_cases hpre : v <+: w
    · exact (octalValue_of_isPrefix hpre).le
    · exact (octalValue_lt_div_of_lt hlen hlt hpre).le

end DigitTree

/-- The run of digits that are entered emits a proper part of the end of the target that is not
empty, and longer than what the run of one digit fewer emits. -/
lemma Entered.exists_out {v : List (Fin 8)} (h : Entered out target v) (hv : v ≠ []) :
    ∃ output, out (octalWord v) = .ok output ∧ output ≠ [] ∧ output <:+ target ∧
      output ≠ target ∧
      (v.dropLast ≠ [] → ∃ part, out (octalWord v.dropLast) = .ok part ∧
        part.length < output.length) := by
  obtain ⟨output, hout, hsuffix, hne, hgrown⟩ := h.extendable v hv (List.prefix_refl v)
  refine ⟨output, hout, List.ne_nil_of_length_pos (Nat.zero_lt_of_lt hgrown), hsuffix, hne, ?_⟩
  intro hparent
  obtain ⟨part, hpart, -⟩ := h.extendable v.dropLast hparent (List.dropLast_prefix v)
  rw [matchedLength_of_ok hparent hpart] at hgrown
  exact ⟨part, hpart, hgrown⟩

namespace SeedSearch

/-- **The descents of a search** are those into the digits of a tree, in its preorder, and all
these digits can be entered. -/
theorem exists_descents_eq (q : SeedSearch) :
    ∃ vs, DigitTree vs ∧ (∀ v ∈ vs, Entered q.output q.target v) ∧
      (Tally.ofEvents q.findSeed.events).descents = vs.map Descent.ofDigits := by
  rcases q.findSeed_cases with ⟨e, -, -, -, htally⟩ | ⟨-, -, htally⟩
  · exact ⟨[], .nil, nofun, by rw [htally]; rfl⟩
  · obtain ⟨x, vs, n, hwalk, -, hdescend⟩ := q.follows_descend
    refine ⟨vs, hwalk.digitTree, fun v hv => ?_, by rw [htally, hdescend]⟩
    exact ((hwalk.mem_iff (pairwise_digitsBehind [])).mp hv).1

/-- **The descents of a search are a tree in preorder**, whatever the search results in. In front
of each descent but those of depth zero stands its parent, into the eighth part of its number, and
since the latest such all others were deeper than that. At each depth the numbers rise. What is
recorded behind a descent and is no less deep does not go on from a lesser number of its depth, so
the extensions of a lesser number are recorded before it. From each descent the program emits a
proper part of the end of the target, which is not empty and longer than what it emits from the
parent.

**Proof sketch.** The descents are into digits that form a tree and are entered. The tree gives the
parent of each and the order of their numbers, and what is entered emits a proper part of the end
of the target (`Entered.exists_out`). -/
theorem descents_preorder (q : SeedSearch) :
    let descents := (Tally.ofEvents q.findSeed.events).descents
    (∀ before depth candidate after, descents = before ++ ⟨depth + 1, candidate⟩ :: after →
      ∃ front between, before = front ++ ⟨depth, candidate / 8⟩ :: between ∧
        ∀ e ∈ between, depth + 1 ≤ e.depth) ∧
    (descents.Pairwise fun e f => e.depth = f.depth → e.candidate < f.candidate) ∧
    (descents.Pairwise fun e f => e.depth ≤ f.depth →
      e.candidate.toNat ≤ f.candidate.toNat / 8 ^ (f.depth - e.depth)) ∧
    ∀ e ∈ descents, ∃ output, q.output e.candidate = .ok output ∧ output ≠ [] ∧
      output <:+ q.target ∧ output ≠ q.target ∧
      (e.depth ≠ 0 → ∃ part, q.output (e.candidate / 8) = .ok part ∧
        part.length < output.length) := by
  intro descents
  obtain ⟨vs, htree, hentered, hdescents⟩ := q.exists_descents_eq
  have hfits : ∀ v ∈ vs, octalValue v < UInt64.size := fun v hv => (hentered v hv).fits
  rw [show descents = _ from hdescents]
  have hpairs := htree.pairwise_descents hfits
  refine ⟨fun before depth candidate after h => htree.exists_parent_descent hfits h,
    hpairs.imp And.left, hpairs.imp And.right, fun e he => ?_⟩
  obtain ⟨v, hv, rfl⟩ := List.mem_map.mp he
  obtain ⟨output, hout, hnonempty, hsuffix, hne, hparent⟩ :=
    (hentered v hv).exists_out (htree.ne_nil v hv)
  rw [octalWord_dropLast (htree.ne_nil v hv) (hfits v hv)] at hparent
  refine ⟨output, hout, hnonempty, hsuffix, hne, fun hdepth => ?_⟩
  refine hparent (List.ne_nil_of_length_pos ?_)
  rw [List.length_dropLast]
  exact Nat.pos_of_ne_zero hdepth

end SeedSearch

end OctalTape

import OctalTape.Proofs.Search.FirstPath

set_option relaxedAutoImplicit false
set_option autoImplicit false

/-!
# The runs of a search

Where a search goes down it has eight more digits to try, or none if they do not fit into a word,
and it has eight at the beginning. So when it comes through it has made eight runs for each descent
behind which there is room, and eight more. If it ends early, the runs that it still owes are those
for the greater digits at each place of the path on which it ends, and none else: where it does not
end, it comes back only after it has tried all digits.

## Main definitions

* `OctalTape.roomy` — how many of some lists of digits leave room for another digit.
* `OctalTape.owed` — the runs that are still to be made when a search ends.
* `OctalTape.EndsBehind` — a descent that the search does not come back from.

## Main results

* `OctalTape.Walk.runs_add_owed` — the runs that are made and those that are owed are eight for
  each descent with room behind it, and one for each digit to try at first.
* `OctalTape.Walk.mem_and_endsBehind_iff` — the descents that are open at the end of a walk.
* `OctalTape.SeedSearch.runs_accounting` — how many runs a search makes, whatever it results in.
-/

namespace OctalTape

variable {out : Word → Except Error (List UInt8)} {target : List UInt8}

/-! ## Room for another digit -/

/-- How many of some lists of digits leave room for another digit in a word. -/
def roomy (vs : List (List (Fin 8))) : ℕ := vs.countP fun v => 8 * octalValue v < UInt64.size

/-- Among no lists, none leaves room. -/
@[simp]
lemma roomy_nil : roomy [] = 0 := rfl

/-- The lists that leave room are those of both parts. -/
@[simp]
lemma roomy_append (vs ws : List (List (Fin 8))) : roomy (vs ++ ws) = roomy vs + roomy ws :=
  List.countP_append

/-- Eight digits fit behind each list that leaves room, and none behind the others. -/
lemma eight_mul_roomy_cons (v : List (Fin 8)) (vs : List (List (Fin 8))) :
    8 * roomy (v :: vs) = (digitsBehind v).length + 8 * roomy vs := by
  rw [roomy, roomy, List.countP_cons, digitsBehind]
  by_cases h : 8 * octalValue v < UInt64.size
  · rw [if_pos h, if_pos (decide_eq_true h), List.length_finRange]
    omega
  · rw [if_neg h, if_neg (by simpa using h), List.length_nil]
    omega

/-- The lists that leave room are the descents into numbers below `2 ^ 61`. -/
lemma countP_descents {vs : List (List (Fin 8))} (h : ∀ v ∈ vs, octalValue v < UInt64.size) :
    (vs.map Descent.ofDigits).countP (·.candidate.toNat < 2 ^ 61) = roomy vs := by
  rw [roomy, List.countP_map]
  refine List.countP_congr fun v hv => ?_
  simp only [Descent.ofDigits, Function.comp_apply, toNat_octalWord (h v hv), decide_eq_true_eq,
    UInt64.size]
  omega

/-! ## Runs that are owed -/

/-- Digits that fit are the last of the eight, or there are none. -/
lemma digitsBehind_isSuffix (u : List (Fin 8)) : digitsBehind u <:+ List.finRange 8 := by
  unfold digitsBehind
  split
  · exact List.suffix_refl _
  · exact List.nil_suffix

/-- Behind a digit come all that are greater. -/
lemma length_add_of_isSuffix {d : Fin 8} {ds : List (Fin 8)}
    (h : d :: ds <:+ List.finRange 8) : ds.length + d.val = 7 := by
  obtain ⟨front, hfront⟩ := h
  have hlen := congrArg List.length hfront
  have hd : (front ++ d :: ds)[front.length]? = (List.finRange 8)[front.length]? := by
    rw [hfront]
  rw [List.length_append, List.length_cons, List.length_finRange] at hlen
  rw [List.getElem?_append_right (Nat.le_refl _), Nat.sub_self, List.getElem?_cons_zero,
    List.getElem?_eq_getElem (by rw [List.length_finRange]; omega), List.getElem_finRange,
    Option.some.injEq] at hd
  have hval : d.val = front.length := congrArg Fin.val hd
  omega

/-- The runs that are still to be made when a search that stands behind the digits `u` ends: one
for each greater digit at each place from there on, and the one that has failed. -/
def owed (out : Word → Except Error (List UInt8)) (u : List (Fin 8)) :
    Option (List (Fin 8)) → ℕ
  | none => 0
  | some w => ((w.drop u.length).map (7 - ·.val)).sum + if (out (octalWord w)).isOk then 0 else 1

/-- A search that fails owes the run that has failed, and those for the greater digits. -/
lemma owed_of_error (u : List (Fin 8)) {w : List (Fin 8)} {e : Error}
    (h : out (octalWord w) = .error e) :
    owed out u (some w) = ((w.drop u.length).map (7 - ·.val)).sum + 1 := by
  simp [owed, h, Except.isOk, Except.toBool]

/-- A search that finds a seed owes the runs for the greater digits only. -/
lemma owed_of_ok (u : List (Fin 8)) {w : List (Fin 8)} {output : List UInt8}
    (h : out (octalWord w) = .ok output) :
    owed out u (some w) = ((w.drop u.length).map (7 - ·.val)).sum := by
  simp [owed, h, Except.isOk, Except.toBool]

/-- A search that ends behind one more digit owes the runs for the greater digits besides. -/
lemma owed_of_isPrefix {u w : List (Fin 8)} {d : Fin 8} (h : u ++ [d] <+: w) :
    owed out u (some w) = 7 - d.val + owed out (u ++ [d]) (some w) := by
  obtain ⟨t, rfl⟩ := h
  have hdrop : (u ++ [d] ++ t).drop u.length = d :: t := by simp
  rw [owed, owed, hdrop, List.drop_left, List.map_cons, List.sum_cons, Nat.add_assoc]

namespace Walk

variable {u ds w : List (Fin 8)} {x : Option (List (Fin 8))} {vs : List (List (Fin 8))} {n : ℕ}

/-- **The runs that are made and those that are owed** are one for each digit that a walk has yet
to try, and eight for each descent with room behind it.

**Proof sketch.** Induction on the walk. A run takes one digit from those that are left, a descent
adds those behind it, and a walk that does not come back leaves the greater digits behind. -/
theorem runs_add_owed (h : Walk out target u ds x vs n) (hds : ds <:+ List.finRange 8) :
    n + owed out u x = ds.length + 8 * roomy vs := by
  have hbehind := digitsBehind_isSuffix
  induction h with
  | exhausted => rfl
  | @failed u d ds e _ hout =>
    have hgreater := length_add_of_isSuffix hds
    rw [owed_of_error u hout, List.drop_left, List.map_singleton, List.sum_singleton, roomy_nil,
      List.length_cons]
    omega
  | @found u d ds _ hout =>
    have hgreater := length_add_of_isSuffix hds
    rw [owed_of_ok u hout, List.drop_left, List.map_singleton, List.sum_singleton, roomy_nil,
      List.length_cons]
    omega
  | skipped _ _ ih =>
    have hrest := ih ((List.suffix_cons _ _).trans hds)
    rw [List.length_cons]
    omega
  | @stopped u d ds w vs n _ hdeep ih =>
    have hgreater := length_add_of_isSuffix hds
    have hpre := (hdeep.goesOn (pairwise_digitsBehind _)).isPrefix_and_ne.1
    have hrest := ih (hbehind _)
    rw [owed_of_isPrefix hpre, eight_mul_roomy_cons, List.length_cons]
    omega
  | returned _ _ _ ih ihrest =>
    have hdeep := ih (hbehind _)
    have hrest := ihrest ((List.suffix_cons _ _).trans hds)
    rw [owed] at hdeep
    rw [List.cons_append, eight_mul_roomy_cons, roomy_append, List.length_cons]
    omega

/-- A walk that ends at some digits has entered all but the last of them, with room behind each.

**Proof sketch.** Induction on the walk. Where it ends behind digits that it has entered, it goes
on with a digit behind them, so they have room (`Walk.goesOn`). -/
lemma length_le_roomy (h : Walk out target u ds (some w) vs n) :
    w.length ≤ u.length + 1 + roomy vs := by
  generalize hx : some w = x at h
  induction h with
  | exhausted => cases hx
  | failed | found =>
    cases hx
    simp
  | skipped _ _ ih => exact ih hx
  | @stopped u d ds w' vs n _ hdeep ih =>
    have hlen := ih hx
    obtain ⟨e, he, -⟩ := hdeep.goesOn (pairwise_digitsBehind _)
    have hroom := eight_mul_roomy_cons (u ++ [d]) vs
    have hpos := List.length_pos_of_mem he
    rw [List.length_append, List.length_singleton] at hlen
    omega
  | returned _ _ _ _ ihrest =>
    have hlen := ihrest hx
    rw [roomy_append]
    omega

end Walk

/-! ## Open descents -/

/-- The search does not come back from a descent: going on from there does not yield nothing. -/
def EndsBehind (out : Word → Except Error (List UInt8)) (target : List UInt8) (e : Descent) :
    Prop :=
  ∃ output, out e.candidate = .ok output ∧
    (search out target e.candidate (e.depth + 1) output.length).result ≠ .ok none

/-- The search does not come back from digits that are entered if some decisive digits begin with
them.

**Proof sketch.** The descent behind the digits follows a walk, which ends at the first decisive
digits that begin with them, or goes through to the end if there are none. -/
lemma Entered.endsBehind_iff {v : List (Fin 8)} (h : Entered out target v) (hv : v ≠ []) :
    EndsBehind out target (.ofDigits v) ↔ ∃ w, Decisive out target w ∧ v <+: w := by
  obtain ⟨output, hout, -⟩ := h.extendable v hv (List.prefix_refl v)
  obtain ⟨x, vs, n, hwalk, hresult, -⟩ := follows_search h
  have hfirst := h.isFirst hv (hwalk.isFirst (pairwise_digitsBehind v))
  have hdepth : v.length - 1 + 1 = v.length := Nat.sub_add_cancel (List.length_pos_iff.mpr hv)
  have hbehind : EndsBehind out target (.ofDigits v) ↔ endResult out x ≠ .ok none := by
    rw [← hresult, matchedLength_of_ok hv hout, ← hdepth]
    constructor
    · rintro ⟨output', hout', hne⟩
      rwa [Except.ok.inj (hout.symm.trans hout')]
    · exact fun hne => ⟨output, hout, hne⟩
  rw [hbehind, Ne, endResult_eq_none_iff]
  cases x with
  | none => exact iff_of_false (fun hne => hne rfl) fun ⟨w, hw⟩ => hfirst w hw
  | some w => exact iff_of_true nofun ⟨w, hfirst.1⟩

/-- **The open descents** at the end of a search are those into the parts of the path on which it
ends.

**Proof sketch.** A descent of the walk is into digits that come before the path `w` on which it
ends, and it is open exactly if some decisive digits begin with them (`Entered.endsBehind_iff`).
Those decisive digits are `w` or come behind it, and what lies in between begins alike, so `w`
begins with them too (`isPrefix_of_lt_of_lt`). -/
theorem Walk.mem_and_endsBehind_iff {w : List (Fin 8)} {vs : List (List (Fin 8))} {n : ℕ}
    (h : Walk out target [] (digitsBehind []) (some w) vs n) {e : Descent} :
    e ∈ vs.map Descent.ofDigits ∧ EndsBehind out target e ↔
      ∃ v, v ≠ [] ∧ v <+: w ∧ v ≠ w ∧ e = .ofDigits v := by
  obtain ⟨hw, hfirst⟩ := h.isFirst_decisive
  have hsorted := pairwise_digitsBehind []
  constructor
  · rintro ⟨he, hopen⟩
    obtain ⟨v, hv, rfl⟩ := List.mem_map.mp he
    obtain ⟨hentered, hgo, hbefore⟩ := (h.mem_iff hsorted).mp hv
    have hne := hgo.isPrefix_and_ne.2
    have hlt := hbefore w rfl
    obtain ⟨w', hw', hpre⟩ := (hentered.endsBehind_iff hne).mp hopen
    refine ⟨v, hne, ?_, fun heq => List.lt_irrefl w (heq ▸ hlt), rfl⟩
    by_cases heq : w' = w
    · exact heq ▸ hpre
    · exact isPrefix_of_lt_of_lt hlt (hfirst w' hw' heq) hpre
  · rintro ⟨v, hne, hpre, hproper, rfl⟩
    have hentered := hw.visited.entered_of_isPrefix hpre hproper
    refine ⟨List.mem_map_of_mem ((h.mem_iff hsorted).mpr ⟨hentered, ?_, ?_⟩),
      (hentered.endsBehind_iff hne).mpr ⟨w, hw, hpre⟩⟩
    · exact ((isPrefix_iff_eq_or_goesOn hentered.fits).mp List.nil_prefix).resolve_left hne
    · rintro _ ⟨⟩
      exact lt_of_isPrefix_of_ne hpre (Ne.symm hproper)

/-! ## A whole search -/

/-- At each place of a path, the greater digits and those up to its own are eight together. -/
lemma sum_greater_add_sum_upto (w : List (Fin 8)) :
    (w.map (7 - ·.val)).sum + (w.map (·.val + 1)).sum = 8 * w.length := by
  induction w with
  | nil => rfl
  | cons d w ih =>
    have hd := d.isLt
    rw [List.map_cons, List.map_cons, List.sum_cons, List.sum_cons, List.length_cons]
    omega

namespace Walk

variable {x : Option (List (Fin 8))} {w : List (Fin 8)} {vs : List (List (Fin 8))} {n : ℕ}

/-- A walk from no digits makes and owes eight runs for each descent with room behind it, and eight
more. -/
lemma runs_add_owed_nil (h : Walk out target [] (digitsBehind []) x vs n) :
    n + owed out [] x = 8 * (roomy vs + 1) := by
  have hruns := h.runs_add_owed (digitsBehind_isSuffix [])
  rw [show (digitsBehind []).length = 8 from rfl] at hruns
  omega

/-- A walk that ends with a seed on a path of `m + 1` digits has made eight runs behind each descent
but the `m` on the path, and at each place of the path one for each digit up to its own. -/
lemma runs_of_found (h : Walk out target [] (digitsBehind []) (some w) vs n)
    {output : List UInt8} (hout : out (octalWord w) = .ok output) :
    ∃ m, w.length = m + 1 ∧ m ≤ roomy vs ∧
      n = 8 * (roomy vs - m) + (w.map (·.val + 1)).sum := by
  obtain ⟨m, hm⟩ : ∃ m, w.length = m + 1 := Nat.exists_eq_add_one_of_ne_zero <| by
    rw [Ne, List.length_eq_zero_iff]
    exact h.isFirst_decisive.1.visited.ne_nil
  have hlen := h.length_le_roomy
  have hruns := h.runs_add_owed_nil
  have hpath := sum_greater_add_sum_upto w
  rw [List.length_nil] at hlen
  rw [owed_of_ok [] hout, List.length_nil, List.drop_zero] at hruns
  exact ⟨m, hm, by omega, by omega⟩

/-- A walk that ends with a failure owes a run. -/
lemma runs_of_failed (h : Walk out target [] (digitsBehind []) (some w) vs n) {e : Error}
    (hout : out (octalWord w) = .error e) : n < 8 * (roomy vs + 1) := by
  have hruns := h.runs_add_owed_nil
  rw [owed_of_error [] hout] at hruns
  omega

end Walk

namespace SeedSearch

/-- **The runs of a search**, where `D` descents are into numbers below `2 ^ 61`. A search that
finds nothing has made `8 * (D + 1)` runs. One that finds a seed on a path of `m + 1` digits, so
that the `m` descents on this path are open, has made eight runs behind each of the others, and at
each place of the path one for each digit up to its own. If a run of the descent fails there are
fewer than `8 * (D + 1)`, and if the guard fails there are neither runs nor descents. So there are
never more than eight runs for each descent, and eight more.

**Proof sketch.** If the guard fails, its error is the result and the tally is empty. Otherwise the
tally is that of the descent, which follows a walk: its runs and the digits it leaves out add up to
eight for each descent with room, and eight (`Walk.runs_add_owed_nil`). A walk to the end leaves
nothing out; one that ends at some digits leaves out those behind each digit of the path. -/
theorem runs_accounting (q : SeedSearch) :
    let result := q.findSeed.result
    let tally := Tally.ofEvents q.findSeed.events
    let D := tally.descents.countP (·.candidate.toNat < 2 ^ 61)
    (result = .ok none → tally.runs = 8 * (D + 1)) ∧
    (∀ s, result = .ok (some s) → ∃ w m, FirstDecisive q.output q.target w ∧ octalWord w = s ∧
      w.length = m + 1 ∧
      (∀ e, e ∈ tally.descents ∧ EndsBehind q.output q.target e ↔
        ∃ v, v ≠ [] ∧ v <+: w ∧ v ≠ w ∧ e = .ofDigits v) ∧
      m ≤ D ∧ tally.runs = 8 * (D - m) + (w.map (·.val + 1)).sum) ∧
    (∀ e, (q.guarded = true → q.guard.result = .ok ()) → result = .error e →
      tally.runs < 8 * (D + 1)) ∧
    (∀ e, q.guarded = true → q.guard.result = .error e →
      result = .error e ∧ tally.runs = 0 ∧ tally.descents = []) ∧
    tally.runs ≤ 8 * (tally.descents.length + 1) := by
  intro result tally D
  rcases q.findSeed_cases with ⟨e, hguarded, hguard, hresult, htally⟩ | ⟨hguard, hresult, htally⟩
  · rw [show result = _ from hresult, show tally = _ from htally]
    refine ⟨nofun, nofun, fun _ hpass => ?_, fun f _ hf => ?_, Nat.zero_le _⟩
    · have hok := hpass hguarded
      rw [hguard] at hok
      cases hok
    · rw [hguard] at hf
      cases hf
      exact ⟨rfl, rfl, rfl⟩
  · obtain ⟨x, vs, n, hwalk, hend, hdescend⟩ := q.follows_descend
    have hsum : tally = ⟨n, vs.map Descent.ofDigits⟩ := htally.trans hdescend
    have hD : D = roomy vs := by
      show tally.descents.countP _ = _
      rw [hsum]
      exact countP_descents fun v hv => ((hwalk.mem_iff (pairwise_digitsBehind [])).mp hv).1.fits
    rw [show result = _ from hresult.trans hend, hD, hsum]
    have hruns := hwalk.runs_add_owed_nil
    refine ⟨fun hnone => ?_, fun s hfound => ?_, fun e _ hfailed => ?_, fun e hon hf => ?_, ?_⟩
    · obtain rfl := endResult_eq_none_iff.mp hnone
      exact hruns
    · obtain ⟨w, output, rfl, hout, rfl⟩ := endResult_eq_some_iff.mp hfound
      obtain ⟨m, hm, hle, heq⟩ := hwalk.runs_of_found hout
      exact ⟨w, m, hwalk.isFirst_decisive, rfl, hm,
        fun e => hwalk.mem_and_endsBehind_iff, hle, heq⟩
    · obtain ⟨w, rfl, hout⟩ := endResult_eq_error_iff.mp hfailed
      exact hwalk.runs_of_failed hout
    · rw [hguard hon] at hf
      cases hf
    · have hle : roomy vs ≤ vs.length := List.countP_le_length
      show n ≤ 8 * ((vs.map Descent.ofDigits).length + 1)
      rw [List.length_map]
      omega

end SeedSearch

end OctalTape

import OctalTape.Proofs.Results
import OctalTape.Proofs.Search.Path

set_option relaxedAutoImplicit false
set_option autoImplicit false

/-!
# The walk of a search

How a search goes is a walk through the tree of octal digits. Behind the digits where it stands it
tries one digit after the other. It ends at a digit whose run fails or emits the target, it skips a
dead end, and behind any other digit it walks on before it comes back for the next. Everything that
a search reports can be read off its walk.

## Main definitions

* `OctalTape.Walk` — how a search goes, with the digits at which it ends, those that it enters on
  the way, and the runs that it makes.
* `OctalTape.endResult` — the result of a search that ends at some digits.
* `OctalTape.Follows` — a report that tells of a walk.
* `OctalTape.IsFirst` — the first of some lists of digits, if there are any.

## Main results

* `OctalTape.follows_search` — the descent from digits that are entered follows a walk.
* `OctalTape.Walk.isFirst` — a walk ends at the first decisive digits.
* `OctalTape.Walk.mem_iff` — it enters exactly the digits that can be entered before its end.
* `OctalTape.Walk.pairwise` — it enters them in their lexicographic order.
-/

namespace OctalTape

/-! ## Walks -/

/-- How a search goes that stands behind the digits `u` and has yet to try the digits in `ds`: the
digits at which it ends, unless it comes through; the digits that it enters; and the number of its
runs, where one that fails is not counted. -/
inductive Walk (out : Word → Except Error (List UInt8)) (target : List UInt8) :
    List (Fin 8) → List (Fin 8) → Option (List (Fin 8)) → List (List (Fin 8)) → ℕ → Prop where
  /-- No digit is left. -/
  | exhausted {u} : Walk out target u [] none [] 0
  /-- The run of the next digit fails. -/
  | failed {u d ds e} (hd : Visited out target (u ++ [d]))
      (hout : out (octalWord (u ++ [d])) = .error e) :
      Walk out target u (d :: ds) (some (u ++ [d])) [] 0
  /-- The run of the next digit emits the target. -/
  | found {u d ds} (hd : Visited out target (u ++ [d]))
      (hout : out (octalWord (u ++ [d])) = .ok target) :
      Walk out target u (d :: ds) (some (u ++ [d])) [] 1
  /-- The next digit is a dead end. -/
  | skipped {u d ds x vs n} (hd : DeadEnd out target (u ++ [d]))
      (hrest : Walk out target u ds x vs n) :
      Walk out target u (d :: ds) x vs (n + 1)
  /-- The next digit is entered, and the search ends behind it. -/
  | stopped {u d ds w vs n} (hd : Entered out target (u ++ [d]))
      (hdeep : Walk out target (u ++ [d]) (digitsBehind (u ++ [d])) (some w) vs n) :
      Walk out target u (d :: ds) (some w) ((u ++ [d]) :: vs) (n + 1)
  /-- The next digit is entered, and the search comes back from it. -/
  | returned {u d ds x vs vs' m n} (hd : Entered out target (u ++ [d]))
      (hdeep : Walk out target (u ++ [d]) (digitsBehind (u ++ [d])) none vs m)
      (hrest : Walk out target u ds x vs' n) :
      Walk out target u (d :: ds) x ((u ++ [d]) :: vs ++ vs') (m + 1 + n)

variable {out : Word → Except Error (List UInt8)} {target : List UInt8}

/-! ## What a search reports -/

/-- The result of a search that ends at some digits, or comes through: the seed that they denote,
unless their run fails. -/
def endResult (out : Word → Except Error (List UInt8)) :
    Option (List (Fin 8)) → Except Error (Option Word)
  | none => .ok none
  | some w => (out (octalWord w)).map fun _ => some (octalWord w)

/-- A search that ends at some digits does not yield nothing. -/
lemma endResult_some_ne (w : List (Fin 8)) : endResult out (some w) ≠ .ok none := by
  rw [endResult, Ne, map_eq_ok_iff]
  simp

/-- A search yields an error if the run of the digits at which it ends does. -/
lemma endResult_eq_error_iff {x : Option (List (Fin 8))} {e : Error} :
    endResult out x = .error e ↔ ∃ w, x = some w ∧ out (octalWord w) = .error e := by
  cases x with
  | none => exact iff_of_false nofun (by simp)
  | some w =>
    rw [endResult, map_eq_error_iff]
    simp

/-- A search yields the seed that the digits at which it ends denote, if their run does not fail. -/
lemma endResult_eq_some_iff {x : Option (List (Fin 8))} {s : Word} :
    endResult out x = .ok (some s) ↔
      ∃ w output, x = some w ∧ out (octalWord w) = .ok output ∧ octalWord w = s := by
  cases x with
  | none => exact iff_of_false nofun (by simp)
  | some w =>
    rw [endResult, map_eq_ok_iff]
    simp

/-- A search yields nothing if it comes through. -/
lemma endResult_eq_none_iff {x : Option (List (Fin 8))} :
    endResult out x = .ok none ↔ x = none := by
  cases x with
  | none => exact iff_of_true rfl rfl
  | some w => exact iff_of_false (endResult_some_ne w) nofun

/-- The descent into some digits. -/
def Descent.ofDigits (v : List (Fin 8)) : Descent := ⟨v.length - 1, octalWord v⟩

/-- The report tells of a walk from the digits `u` through the digits in `ds`. -/
def Follows (out : Word → Except Error (List UInt8)) (target : List UInt8)
    (u ds : List (Fin 8)) (r : Report (Option Word)) : Prop :=
  ∃ x vs n, Walk out target u ds x vs n ∧ r.result = endResult out x ∧
    Tally.ofEvents r.events = ⟨n, vs.map Descent.ofDigits⟩

variable {u ds : List (Fin 8)}

/-- Behind digits that are entered, going through some digits follows a walk, if the descents from
those that are extendable do.

**Proof sketch.** Induction on the digits, with the walk through those behind the first by
hypothesis. The first digit is decisive, and the walk ends at it; or it is extendable, and the walk
is that of its descent, followed by the rest if the descent comes back; or it is a dead end, and
only the rest is left. In each case `visit` takes the branch of that name, and the runs add up. -/
lemma follows_firstOf (hu : Entered out target u) (hfit : ∀ d ∈ ds, d ∈ digitsBehind u)
    (hdeep : ∀ d ∈ ds, Extendable out target (u ++ [d]) →
      Follows out target (u ++ [d]) (digitsBehind (u ++ [d]))
        (search out target (octalWord (u ++ [d])) (u ++ [d]).length
          (matchedLength out (u ++ [d])))) :
    Follows out target u ds (Report.firstOf (ds.map fun d => octalWord (u ++ [d]))
      (visit out target u.length (matchedLength out u))) := by
  induction ds with
  | nil => exact ⟨none, [], 0, .exhausted, rfl, rfl⟩
  | cons d ds ih =>
    rw [List.forall_mem_cons] at hfit hdeep
    obtain ⟨x, vs, n, hwalk, hresult, htally⟩ := ih hfit.2 hdeep.2
    have hd : Visited out target (u ++ [d]) := hu.visited_concat (mem_digitsBehind.mp hfit.1)
    unfold Follows
    rw [List.map_cons, Report.result_firstOf_cons, Report.events_firstOf_cons]
    rcases hd.decisive_or_extendable_or_deadEnd with hend | hext | hdead
    · rcases hend.ends with ⟨e, he⟩ | hfound
      · rw [visit_of_error he]
        exact ⟨_, _, _, .failed hd he, by rw [endResult, he]; rfl, rfl⟩
      · rw [visit_of_target hfound]
        exact ⟨_, _, _, .found hd hfound, by rw [endResult, hfound]; rfl, rfl⟩
    · obtain ⟨output, hout, hsuffix, hne, hgrown⟩ := id hext
      obtain ⟨x', vs', m, hwalk', hresult', htally'⟩ := hdeep.1 hext
      rw [List.dropLast_concat] at hgrown
      rw [matchedLength_of_ok (by simp) hout, List.length_append, List.length_singleton]
        at hresult' htally'
      rw [visit_of_descend hout hne ⟨hgrown, hsuffix⟩, hresult', Tally.ofEvents_append,
        Tally.ofEvents_cons, Tally.ofEvents_cons, htally']
      have hd : Entered out target (u ++ [d]) := hd.entered hext
      cases x' with
      | none =>
        refine ⟨x, _, m + 1 + n, .returned hd hwalk' hwalk, hresult, ?_⟩
        simp [endResult, htally, Tally.ofEvent, Tally.add, Descent.ofDigits, Nat.add_comm m]
      | some w =>
        refine ⟨some w, _, m + 1, .stopped hd hwalk', ?_, ?_⟩
        · exact Report.orElse_of_ne (endResult_some_ne w)
        · rw [endResult]
          cases out (octalWord w) <;>
            simp [Except.map, Tally.ofEvent, Tally.add, Descent.ofDigits, Nat.add_comm m]
    · obtain ⟨output, hout, hne, hturn⟩ := hdead.turns
      rw [List.dropLast_concat, and_comm] at hturn
      rw [visit_of_other hout hne hturn]
      refine ⟨x, vs, n + 1, .skipped hdead hwalk, hresult, ?_⟩
      simp [Tally.ofEvent, htally, Tally.add, Nat.add_comm]

/-- **The descent follows a walk.** From digits that are entered, the descent reports the result and
the tally of a walk through all the digits behind them.

**Proof sketch.** Induction on how much longer the target is than the output of the digits. The
descent goes through the digits that fit behind them (`follows_firstOf`), and what it enters has a
longer output. -/
theorem follows_search (hu : Entered out target u) :
    Follows out target u (digitsBehind u)
      (search out target (octalWord u) u.length (matchedLength out u)) := by
  induction hn : target.length - matchedLength out u using Nat.strong_induction_on generalizing u
    with
  | _ n ih =>
    rw [search_eq_firstOf_visit (length_le_matchedLength hu.extendable),
      extensions_octalWord hu.fits]
    refine follows_firstOf hu (fun _ hd => hd) fun d hd hext => ?_
    have hgrown := hext.matchedLength_dropLast_lt (by simp)
    have hshort := hext.matchedLength_lt (by simp)
    rw [List.dropLast_concat] at hgrown
    exact ih _ (by omega) ((hu.visited_concat (mem_digitsBehind.mp hd)).entered hext) rfl

/-! ## Going on from digits -/

/-- The digits `v` go on from the digits `u` with one of those in `ds`. -/
def GoesOn (u ds v : List (Fin 8)) : Prop := ∃ d ∈ ds, u ++ [d] <+: v

/-- One goes on with the first digit or with one of the others. -/
lemma goesOn_cons_iff {v : List (Fin 8)} {d : Fin 8} :
    GoesOn u (d :: ds) v ↔ u ++ [d] <+: v ∨ GoesOn u ds v := by
  simp [GoesOn]

/-- What goes on with the first digit comes before what goes on with another. -/
lemma GoesOn.lt_of_isPrefix {v w : List (Fin 8)} {d : Fin 8} (hw : GoesOn u ds w)
    (hd : ∀ e ∈ ds, d < e) (hv : u ++ [d] <+: v) : v < w := by
  obtain ⟨e, he, hew⟩ := hw
  exact lt_of_concat_isPrefix (hd e he) hv hew

/-- Nothing that goes on with the first digit or another comes before the first digit. -/
lemma GoesOn.not_lt {v : List (Fin 8)} {d : Fin 8} (hv : GoesOn u (d :: ds) v)
    (hd : ∀ e ∈ ds, d < e) : ¬ v < u ++ [d] := by
  rcases goesOn_cons_iff.mp hv with hpre | hgo
  · by_cases heq : v = u ++ [d]
    · exact heq ▸ List.lt_irrefl v
    · exact List.lt_asymm (lt_of_isPrefix_of_ne hpre heq)
  · exact List.lt_asymm (hgo.lt_of_isPrefix hd (List.prefix_refl _))

/-- What goes on from some digits comes behind them. -/
lemma GoesOn.isPrefix_and_ne {v : List (Fin 8)} (h : GoesOn u ds v) : u <+: v ∧ v ≠ u := by
  obtain ⟨d, -, hpre⟩ := h
  exact isPrefix_and_ne_iff.mpr ⟨d, hpre⟩

/-- Digits that begin with others are these, or go on from them with a digit that fits. -/
lemma isPrefix_iff_eq_or_goesOn {u v : List (Fin 8)} (hv : octalValue v < UInt64.size) :
    u <+: v ↔ v = u ∨ GoesOn u (digitsBehind u) v := by
  constructor
  · intro hpre
    by_cases heq : v = u
    · exact .inl heq
    · obtain ⟨d, hd⟩ := isPrefix_and_ne_iff.mp ⟨hpre, heq⟩
      exact .inr ⟨d, mem_digitsBehind.mpr ((octalValue_le_of_isPrefix hd).trans_lt hv), hd⟩
  · rintro (rfl | hgo)
    · exact List.prefix_refl v
    · exact hgo.isPrefix_and_ne.1

/-! ## Where a walk ends -/

/-- The first in the lexicographic order among the digits in `D`, or nothing if there are none. -/
def IsFirst (D : List (Fin 8) → Prop) : Option (List (Fin 8)) → Prop
  | none => ∀ w, ¬ D w
  | some w => D w ∧ ∀ v, D v → v ≠ w → w < v

namespace IsFirst

variable {D E : List (Fin 8) → Prop} {x : Option (List (Fin 8))} {w : List (Fin 8)}

/-- There is one first among some digits, or none if there are none.

**Proof sketch.** Of two that are different, each would come before the other. -/
lemma unique {y : Option (List (Fin 8))} (hx : IsFirst D x) (hy : IsFirst D y) : x = y := by
  cases x with
  | none =>
    cases y with
    | none => rfl
    | some w => exact absurd hy.1 (hx w)
  | some v =>
    cases y with
    | none => exact absurd hx.1 (hy v)
    | some w =>
      by_contra hne
      have hvw : v ≠ w := fun heq => hne (congrArg some heq)
      exact List.lt_irrefl v (List.lt_trans (hx.2 w hy.1 hvw.symm) (hy.2 v hx.1 hvw))

/-- Only which digits are in `D` matters. -/
lemma congr (h : IsFirst D x) (hDE : ∀ w, D w ↔ E w) : IsFirst E x := by
  obtain rfl : D = E := funext fun w => propext (hDE w)
  exact h

/-- The first of some digits is the first of them and of others that come behind them. -/
lemma or_left (h : IsFirst D (some w)) (hDE : ∀ v w, D v → E w → v < w) :
    IsFirst (fun v => D v ∨ E v) (some w) := by
  refine ⟨.inl h.1, ?_⟩
  rintro v (hv | hv) hne
  · exact h.2 v hv hne
  · exact hDE w v h.1 hv

/-- If there are none of some digits, the others decide. -/
lemma or_right (h : IsFirst D none) (hE : IsFirst E x) : IsFirst (fun v => D v ∨ E v) x :=
  hE.congr fun w => ⟨.inr, fun hw => hw.resolve_left (h w)⟩

end IsFirst

/-- Decisive digits are the first that begin with them. -/
lemma Decisive.isFirst {w : List (Fin 8)} (h : Decisive out target w) :
    IsFirst (fun v => Decisive out target v ∧ w <+: v) (some w) :=
  ⟨⟨h, List.prefix_refl w⟩, fun _ hv hne => lt_of_isPrefix_of_ne hv.2 hne⟩

/-- Nothing that begins with a dead end is decisive. -/
lemma DeadEnd.isFirst {w : List (Fin 8)} (h : DeadEnd out target w) :
    IsFirst (fun v => Decisive out target v ∧ w <+: v) none := by
  rintro v ⟨hv, hpre⟩
  by_cases heq : w = v
  · exact h.not_decisive (heq ▸ hv)
  · exact h.not_extendable (hv.visited.extendable w h.visited.ne_nil hpre heq)

/-- The first decisive digits that begin with digits that are entered go on from these. -/
lemma Entered.isFirst {w : List (Fin 8)} {x : Option (List (Fin 8))} (hw : Entered out target w)
    (hne : w ≠ []) (h : IsFirst (fun v => Decisive out target v ∧ GoesOn w (digitsBehind w) v) x) :
    IsFirst (fun v => Decisive out target v ∧ w <+: v) x := by
  refine h.congr fun v => and_congr_right fun hv => ?_
  rw [isPrefix_iff_eq_or_goesOn hv.visited.fits]
  refine ⟨.inr, fun hor => hor.resolve_left ?_⟩
  rintro rfl
  exact (hw.extendable v hne (List.prefix_refl v)).not_decisive hv

namespace Walk

variable {x : Option (List (Fin 8))} {vs : List (List (Fin 8))} {n : ℕ}

/-- **A walk ends at the first decisive digits** that go on from where it stands with a digit that
it has yet to try.

**Proof sketch.** Induction on the walk. What goes on with the first digit comes before what goes on
with another. If the walk ends at that digit, it is decisive itself; behind a dead end nothing is;
and behind what it enters, the deeper walk decides. -/
theorem isFirst (h : Walk out target u ds x vs n) (hds : ds.Pairwise (· < ·)) :
    IsFirst (fun v => Decisive out target v ∧ GoesOn u ds v) x := by
  have hsplit : ∀ {u ds d} v, (Decisive out target v ∧ u ++ [d] <+: v) ∨
      (Decisive out target v ∧ GoesOn u ds v) ↔ Decisive out target v ∧ GoesOn u (d :: ds) v := by
    intro u ds d v
    rw [goesOn_cons_iff, and_or_left]
  have hbehind := pairwise_digitsBehind
  induction h with
  | exhausted => simp [IsFirst, GoesOn]
  | failed hd hout =>
    obtain ⟨hlt, -⟩ := List.pairwise_cons.mp hds
    have hend : Decisive out target _ := ⟨hd, .inl ⟨_, hout⟩⟩
    exact (hend.isFirst.or_left fun v w hv hw => hw.2.lt_of_isPrefix hlt hv.2).congr hsplit
  | found hd hout =>
    obtain ⟨hlt, -⟩ := List.pairwise_cons.mp hds
    have hend : Decisive out target _ := ⟨hd, .inr hout⟩
    exact (hend.isFirst.or_left fun v w hv hw => hw.2.lt_of_isPrefix hlt hv.2).congr hsplit
  | skipped hd _ ih =>
    obtain ⟨-, hds⟩ := List.pairwise_cons.mp hds
    exact (hd.isFirst.or_right (ih hds)).congr hsplit
  | stopped hd _ ih =>
    obtain ⟨hlt, -⟩ := List.pairwise_cons.mp hds
    have hdeep := hd.isFirst (by simp) (ih (hbehind _))
    exact (hdeep.or_left fun v w hv hw => hw.2.lt_of_isPrefix hlt hv.2).congr hsplit
  | returned hd _ _ ih ihrest =>
    obtain ⟨-, hds⟩ := List.pairwise_cons.mp hds
    have hdeep := hd.isFirst (by simp) (ih (hbehind _))
    exact (hdeep.or_right (ihrest hds)).congr hsplit

/-! ## What a walk enters -/

/-- The digits at which a walk ends go on from where it stands. -/
lemma goesOn {w : List (Fin 8)} (h : Walk out target u ds (some w) vs n)
    (hds : ds.Pairwise (· < ·)) : GoesOn u ds w := (h.isFirst hds).1.2

/-- **A walk enters all that it can** before its end: among the digits that go on from where it
stands with a digit that it has yet to try, exactly those that can be entered and come before the
digits at which it ends.

**Proof sketch.** Induction on the walk. What goes on with the first digit comes before what goes on
with another. If the walk ends at the first digit, nothing comes before that; if this is a dead end,
nothing is entered behind it; and what it enters, and what it enters behind that, comes before its
end. -/
theorem mem_iff (h : Walk out target u ds x vs n) (hds : ds.Pairwise (· < ·))
    {v : List (Fin 8)} :
    v ∈ vs ↔ Entered out target v ∧ GoesOn u ds v ∧ ∀ w, x = some w → v < w := by
  have hbehind := pairwise_digitsBehind
  induction h with
  | exhausted => simp [GoesOn]
  | failed | found =>
    obtain ⟨hlt, -⟩ := List.pairwise_cons.mp hds
    refine iff_of_false List.not_mem_nil ?_
    rintro ⟨-, hgo, hbefore⟩
    exact hgo.not_lt hlt (hbefore _ rfl)
  | @skipped u d ds x vs n hd _ ih =>
    obtain ⟨-, hds⟩ := List.pairwise_cons.mp hds
    refine (ih hds).trans (and_congr_right fun hv => and_congr_left fun _ => ?_)
    rw [goesOn_cons_iff]
    refine ⟨.inr, fun hor => hor.resolve_left fun hpre => ?_⟩
    exact hd.not_extendable (hv.extendable _ (by simp) hpre)
  | @stopped u d ds w vs n hd hdeep ih =>
    obtain ⟨hlt, -⟩ := List.pairwise_cons.mp hds
    obtain ⟨hpre, hne⟩ := (hdeep.goesOn (hbehind _)).isPrefix_and_ne
    have hmem : v ∈ vs ↔ Entered out target v ∧
        GoesOn (u ++ [d]) (digitsBehind (u ++ [d])) v ∧ v < w := by
      simpa using ih (hbehind _)
    simp only [Option.some.injEq, forall_eq']
    rw [List.mem_cons, hmem, goesOn_cons_iff]
    constructor
    · rintro (rfl | ⟨hv, hgo, hbefore⟩)
      · exact ⟨hd, .inl (List.prefix_refl _), lt_of_isPrefix_of_ne hpre hne⟩
      · exact ⟨hv, .inl hgo.isPrefix_and_ne.1, hbefore⟩
    · rintro ⟨hv, hpre' | hgo, hbefore⟩
      · exact ((isPrefix_iff_eq_or_goesOn hv.fits).mp hpre').imp_right fun hgo =>
          ⟨hv, hgo, hbefore⟩
      · exact absurd hbefore (List.lt_asymm (hgo.lt_of_isPrefix hlt hpre))
  | @returned u d ds x vs vs' m n hd _ hrest ih ihrest =>
    obtain ⟨hlt, hds⟩ := List.pairwise_cons.mp hds
    have hmem : v ∈ vs ↔ Entered out target v ∧
        GoesOn (u ++ [d]) (digitsBehind (u ++ [d])) v := by
      simpa using ih (hbehind _)
    rw [List.mem_append, List.mem_cons, hmem, goesOn_cons_iff]
    have hend : ∀ {w}, u ++ [d] <+: v → x = some w → v < w := by
      rintro w hpre rfl
      exact (hrest.goesOn hds).lt_of_isPrefix hlt hpre
    constructor
    · rintro ((rfl | ⟨hv, hgo⟩) | hv)
      · have hpre := List.prefix_refl (u ++ [d])
        exact ⟨hd, .inl hpre, fun w => hend hpre⟩
      · have hpre := hgo.isPrefix_and_ne.1
        exact ⟨hv, .inl hpre, fun w => hend hpre⟩
      · obtain ⟨hv, hgo, hbefore⟩ := (ihrest hds).mp hv
        exact ⟨hv, .inr hgo, hbefore⟩
    · rintro ⟨hv, hpre | hgo, hbefore⟩
      · exact .inl (((isPrefix_iff_eq_or_goesOn hv.fits).mp hpre).imp_right fun hgo => ⟨hv, hgo⟩)
      · exact .inr ((ihrest hds).mpr ⟨hv, hgo, hbefore⟩)

/-- **A walk enters digits in their lexicographic order.**

**Proof sketch.** Induction on the walk. What it enters behind some digits comes behind them, and
what it enters with another digit comes later (`mem_iff`). -/
theorem pairwise (h : Walk out target u ds x vs n) (hds : ds.Pairwise (· < ·)) :
    vs.Pairwise (· < ·) := by
  have hbehind := pairwise_digitsBehind
  induction h with
  | exhausted | failed | found => exact List.Pairwise.nil
  | skipped _ _ ih => exact ih (List.pairwise_cons.mp hds).2
  | @stopped u d ds w vs n hd hdeep ih =>
    refine List.pairwise_cons.mpr ⟨fun v hv => ?_, ih (hbehind _)⟩
    obtain ⟨-, hgo, -⟩ := (hdeep.mem_iff (hbehind _)).mp hv
    exact lt_of_isPrefix_of_ne hgo.isPrefix_and_ne.1 hgo.isPrefix_and_ne.2
  | @returned u d ds x vs vs' m n hd hdeep hrest ih ihrest =>
    obtain ⟨hlt, hds⟩ := List.pairwise_cons.mp hds
    have hgo : ∀ v ∈ vs, u ++ [d] <+: v ∧ v ≠ u ++ [d] := fun v hv =>
      ((hdeep.mem_iff (hbehind _)).mp hv).2.1.isPrefix_and_ne
    refine List.pairwise_append.mpr ⟨List.pairwise_cons.mpr ⟨fun v hv => ?_, ih (hbehind _)⟩,
      ihrest hds, fun v hv w hw => ?_⟩
    · exact lt_of_isPrefix_of_ne (hgo v hv).1 (hgo v hv).2
    · obtain ⟨-, hw, -⟩ := (hrest.mem_iff hds).mp hw
      refine hw.lt_of_isPrefix hlt ?_
      rcases List.mem_cons.mp hv with rfl | hv
      · exact List.prefix_refl _
      · exact (hgo v hv).1

/-- A walk from no digits ends at the first of all decisive digits. -/
lemma isFirst_decisive (h : Walk out target [] (digitsBehind []) x vs n) :
    IsFirst (Decisive out target) x := by
  refine (h.isFirst (pairwise_digitsBehind [])).congr fun v => ⟨And.left, fun hv => ⟨hv, ?_⟩⟩
  exact ((isPrefix_iff_eq_or_goesOn hv.visited.fits).mp List.nil_prefix).resolve_left
    hv.visited.ne_nil

end Walk

/-! ## A whole search -/

/-- The descent that a search makes follows a walk from no digits. -/
theorem SeedSearch.follows_descend (q : SeedSearch) :
    Follows q.output q.target [] (digitsBehind []) q.descend := follows_search .nil

end OctalTape

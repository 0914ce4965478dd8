import OctalTape.Proofs.Search.Guard
import OctalTape.Proofs.Search.Walk

set_option relaxedAutoImplicit false
set_option autoImplicit false

/-!
# The first path of a search

The descent is recursive and leaves early. What it finds can be said without it: among the lists
of octal digits that it may come to, in their lexicographic order, the first one decides whose
run fails or emits the target. This holds for every way in which outputs may depend on seeds.

## Main definitions

* `OctalTape.FirstDecisive` — the first decisive digits in the lexicographic order.

## Main results

* `OctalTape.SeedSearch.isFirst_descend` — the descent ends at the first decisive digits.
* `OctalTape.SeedSearch.result_descend_eq_error_iff`,
  `OctalTape.SeedSearch.result_descend_eq_some_iff`,
  `OctalTape.SeedSearch.result_descend_eq_none_iff` — what it results in.
* `OctalTape.SeedSearch.findSeed_eq_firstDecisive` — the same for a whole search, spelt out.
-/

namespace OctalTape

/-- The decisive digits that come before all others in the lexicographic order. -/
def FirstDecisive (out : Word → Except Error (List UInt8)) (target : List UInt8)
    (w : List (Fin 8)) : Prop :=
  IsFirst (Decisive out target) (some w)

namespace FirstDecisive

variable {out : Word → Except Error (List UInt8)} {target : List UInt8} {w : List (Fin 8)}

/-- The first decisive digits are decisive. -/
lemma decisive (h : FirstDecisive out target w) : Decisive out target w := And.left h

/-- They come before any others that are. -/
lemma first (h : FirstDecisive out target w) {v : List (Fin 8)} (hv : Decisive out target v)
    (hne : v ≠ w) : w < v :=
  And.right h v hv hne

/-- The first decisive digits denote no greater number than other decisive digits that are no
fewer. -/
lemma octalWord_le {v : List (Fin 8)} (hw : FirstDecisive out target w)
    (hv : Decisive out target v) (hlen : w.length ≤ v.length) : octalWord w ≤ octalWord v := by
  rw [UInt64.le_iff_toNat_le, toNat_octalWord hw.decisive.visited.fits,
    toNat_octalWord hv.visited.fits]
  by_cases heq : v = w
  · rw [heq]
  · exact octalValue_le_of_lt hlen (hw.first hv heq)

end FirstDecisive

/-! ## The descent -/

namespace SeedSearch

variable {q : SeedSearch}

/-- The descent that a search makes ends at the first of all decisive digits, or comes through if
there are none. -/
theorem isFirst_descend (q : SeedSearch) :
    ∃ x, IsFirst (Decisive q.output q.target) x ∧ q.descend.result = endResult q.output x := by
  obtain ⟨x, vs, n, hwalk, hresult, -⟩ := q.follows_descend
  exact ⟨x, hwalk.isFirst_decisive, hresult⟩

/-- The descent fails if the run of the first decisive digits does. -/
theorem result_descend_eq_error_iff {e : Error} :
    q.descend.result = .error e ↔
      ∃ w, FirstDecisive q.output q.target w ∧ q.output (octalWord w) = .error e := by
  obtain ⟨x, hx, hresult⟩ := q.isFirst_descend
  rw [hresult, endResult_eq_error_iff]
  constructor
  · rintro ⟨w, rfl, he⟩
    exact ⟨w, hx, he⟩
  · rintro ⟨w, hw, he⟩
    exact ⟨w, hx.unique hw, he⟩

/-- The descent finds the seed that the first decisive digits denote, if this emits the target. -/
theorem result_descend_eq_some_iff {s : Word} :
    q.descend.result = .ok (some s) ↔
      ∃ w, FirstDecisive q.output q.target w ∧ octalWord w = s ∧ q.output s = .ok q.target := by
  obtain ⟨x, hx, hresult⟩ := q.isFirst_descend
  rw [hresult, endResult_eq_some_iff]
  constructor
  · rintro ⟨w, output, rfl, hout, rfl⟩
    -- the run of decisive digits that does not fail emits the target
    rcases hx.1.ends with ⟨e, he⟩ | hfound
    · rw [hout] at he
      cases he
    · exact ⟨w, hx, rfl, hfound⟩
  · rintro ⟨w, hw, rfl, hfound⟩
    exact ⟨w, q.target, hx.unique hw, hfound, rfl⟩

/-- The descent finds nothing if no digits are decisive. -/
theorem result_descend_eq_none_iff :
    q.descend.result = .ok none ↔ ∀ w, ¬ Decisive q.output q.target w := by
  obtain ⟨x, hx, hresult⟩ := q.isFirst_descend
  rw [hresult, endResult_eq_none_iff]
  constructor
  · rintro rfl
    exact hx
  · exact fun hnone => hx.unique hnone

/-! ## A whole search -/

/-- **The first decisive path.** Without the guard, a search results in an error exactly if the
run of the first decisive digits fails with it, in a seed exactly if these digits denote it and
their run emits the target, and in nothing exactly if no digits are decisive.

**Proof sketch.** Without the guard, a search results in what its descent does. The descent ends at
the first decisive digits (`isFirst_descend`), there are no others that come first
(`IsFirst.unique`), and each result that an end can have tells what end it is. -/
theorem findSeed_eq_firstDecisive (q : SeedSearch) :
    let result := (SeedSearch.findSeed { q with guarded := false }).result
    (∀ e, result = .error e ↔
      ∃ w, FirstDecisive q.output q.target w ∧ q.output (octalWord w) = .error e) ∧
    (∀ s, result = .ok (some s) ↔
      ∃ w, FirstDecisive q.output q.target w ∧ octalWord w = s ∧ q.output s = .ok q.target) ∧
    (result = .ok none ↔ ∀ w, ¬ Decisive q.output q.target w) := by
  intro result
  have hresult : result = (descend { q with guarded := false }).result :=
    result_findSeed_of_not_guarded rfl
  rw [hresult]
  exact ⟨fun e => result_descend_eq_error_iff, fun s => result_descend_eq_some_iff,
    result_descend_eq_none_iff⟩

end SeedSearch

end OctalTape

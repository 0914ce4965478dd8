import Mathlib.Control.Monad.Basic
import Mathlib.Tactic.ByContra
import OctalTape.Search.SeedSearch
import OctalTape.Proofs.Machine.Course

set_option relaxedAutoImplicit false
set_option autoImplicit false

/-!
# Operands that are ignored

The exclusive or of B with C has an operand, because each opcode has one, but it ignores it. The
machine is on even positions only, so it never comes upon this operand as an opcode either. Two
programs that differ in nothing but such operands cannot be told apart, neither by a run nor by a
search.

## Main definitions

* `OctalTape.Program.SameButIgnored` — two programs that differ in ignored operands at most.

## Main results

* `OctalTape.Program.SameButIgnored.step_eq` — they make the same steps from even positions.
* `OctalTape.Program.SameButIgnored.runFor_eq` — so they have the same runs.
* `OctalTape.SeedSearch.findSeed_congr` — a search knows its program only by the outputs of seeds.
* `OctalTape.Program.ignored_operands` — the same runs, and the same searches.
-/

namespace OctalTape

namespace Program

/-- The programs have the same size, and where they have different codes, these are operands in
one of them of an opcode that ignores its operand. -/
structure SameButIgnored (p p' : Program) : Prop where
  size_eq : p.size = p'.size
  ignored : ∀ k < p.size, p.codes[k]? ≠ p'.codes[k]? →
    k % 2 = 1 ∧ p.codes[k - 1]? = some Opcode.bxc.toCode

instance (p p' : Program) : Decidable (p.SameButIgnored p') :=
  decidable_of_iff (p.size = p'.size ∧ ∀ k < p.size, p.codes[k]? ≠ p'.codes[k]? →
      k % 2 = 1 ∧ p.codes[k - 1]? = some Opcode.bxc.toCode)
    ⟨fun ⟨hsize, hignored⟩ => ⟨hsize, hignored⟩, fun ⟨hsize, hignored⟩ => ⟨hsize, hignored⟩⟩

namespace SameButIgnored

variable {p p' : Program}

/-! ## Steps -/

/-- Where the tapes differ an operand is ignored. -/
lemma bxc_of_ne (h : p.SameButIgnored p') {k : ℕ} (hne : p.codes[k]? ≠ p'.codes[k]?) :
    k < p.size ∧ k % 2 = 1 ∧ p.codes[k - 1]? = some Opcode.bxc.toCode := by
  have hlt : k < p.size := by
    by_contra hoff
    have hoff' : ¬ k < p'.size := h.size_eq ▸ hoff
    exact hne ((Array.getElem?_eq_none (Nat.not_lt.mp hoff)).trans
      (Array.getElem?_eq_none (Nat.not_lt.mp hoff')).symm)
  exact ⟨hlt, h.ignored k hlt hne⟩

/-- From an even position the same instruction is fetched, or one that ignores its operand.

**Proof sketch.** The tapes differ in operands only, so the opcodes are the same. If the operands
differ too, the opcode is the one that ignores them. -/
lemma fetch_cases (h : p.SameButIgnored p') {pointer : ℕ} (heven : pointer % 2 = 0) :
    p.fetch pointer = p'.fetch pointer ∨
      ∃ x x', p.fetch pointer = some ⟨.bxc, x⟩ ∧ p'.fetch pointer = some ⟨.bxc, x'⟩ := by
  have hop : p.codes[pointer]? = p'.codes[pointer]? := by
    by_contra hne
    obtain ⟨-, hodd, -⟩ := h.bxc_of_ne hne
    omega
  by_cases hx : p.codes[pointer + 1]? = p'.codes[pointer + 1]?
  · left
    unfold fetch
    rw [hop, hx]
  · right
    obtain ⟨hon, -, hbxc⟩ := h.bxc_of_ne hx
    rw [Nat.add_sub_cancel] at hbxc
    have hon' : pointer + 1 < p'.size := h.size_eq ▸ hon
    exact ⟨_, _, fetch_eq_some_iff.mpr ⟨hbxc, Array.getElem?_eq_getElem hon⟩,
      fetch_eq_some_iff.mpr ⟨hop ▸ hbxc, Array.getElem?_eq_getElem hon'⟩⟩

/-- From an even position both programs make the same step. -/
theorem step_eq (h : p.SameButIgnored p') {c : Config} (heven : c.pointer % 2 = 0) :
    p.step c = p'.step c := by
  unfold step
  rcases h.fetch_cases heven with hsame | ⟨x, x', hx, hx'⟩
  · rw [hsame]
  · rw [hx, hx']
    rfl

/-! ## Runs -/

/-- From an even position both programs have the same run.

**Proof sketch.** Induction on the steps that are allowed. The next step is the same, and leads to
an even position. -/
theorem runFor_eq (h : p.SameButIgnored p') (n : ℕ) {r : Run}
    (heven : r.config.pointer % 2 = 0) : p.runFor n r = p'.runFor n r := by
  induction n generalizing r with
  | zero =>
    unfold runFor
    rcases h.fetch_cases heven with hsame | ⟨x, x', hx, hx'⟩
    · rw [hsame]
    · rw [hx, hx']
  | succ n ih =>
    have hstep := h.step_eq heven
    cases ht : p.step r.config with
    | halt => rw [runFor, runFor, ← hstep, ht]
    | fault e => rw [runFor, runFor, ← hstep, ht]
    | next t =>
      have hteven : (r.advance t).config.pointer % 2 = 0 := by
        rw [Run.config_advance]
        exact even_pointer_of_step heven ht
      rw [runFor, runFor, ← hstep, ht]
      exact ih hteven

/-- Under any limit both programs run alike. -/
lemma run_eq (h : p.SameButIgnored p') (limit : ℕ) {r : Run}
    (heven : r.config.pointer % 2 = 0) : p.run limit r = p'.run limit r := by
  unfold run
  rw [h.runFor_eq _ heven]

/-- Both programs have the same output from a seed. -/
lemma outputOf_eq (h : p.SameButIgnored p') (limit : ℕ) (seed : Word) :
    p.outputOf limit seed = p'.outputOf limit seed := by
  unfold outputOf
  rw [h.run_eq limit rfl]

end SameButIgnored

end Program

/-! ## Searches -/

namespace SeedSearch

variable {q q' : SeedSearch}

/-- A search knows its program only by the outputs of seeds. -/
theorem findSeed_congr (hout : q.output = q'.output) (htarget : q.target = q'.target)
    (hguarded : q.guarded = q'.guarded) : q.findSeed = q'.findSeed := by
  have hprobe : q.probe = q'.probe := by
    funext digits
    unfold probe
    rw [hout]
  have hfind : q.find = q'.find := by
    unfold find descend
    rw [hout, htarget]
  unfold findSeed guard
  rw [hguarded, htarget, hprobe, hfind]

end SeedSearch

/-- **Ignored operands are ignored everywhere.** Take two programs of the same size that differ in
nothing but operands of the exclusive or of B with C. From any contents of the registers and under
any limit both runs have the same result and leave the same state: the same registers, position,
output and number of steps. For any target, limit and guard a search over the one has the same
result as over the other, it comes to it by the same events, and it has the same tally. -/
theorem Program.ignored_operands {p p' : Program} (h : p.SameButIgnored p') :
    (∀ rs limit, p.run limit (.start rs) = p'.run limit (.start rs)) ∧
    ∀ target limit guarded,
      let q : SeedSearch := ⟨p, target, limit, guarded⟩
      let q' : SeedSearch := ⟨p', target, limit, guarded⟩
      q.findSeed.result = q'.findSeed.result ∧ q.findSeed.events = q'.findSeed.events ∧
        Tally.ofEvents q.findSeed.events = Tally.ofEvents q'.findSeed.events := by
  refine ⟨fun rs limit => h.run_eq limit rfl, ?_⟩
  intro target limit guarded q q'
  have hout : q.output = q'.output := by
    funext seed
    exact h.outputOf_eq limit seed
  rw [SeedSearch.findSeed_congr hout rfl rfl]
  exact ⟨rfl, rfl, rfl⟩

/-- A loop that emits the lowest digit of A and the bits above it, mixed, for each digit. -/
def mixedTape : Program := ⟨#[7, 1, 2, 4, 4, 0, 0, 3, 5, 5, 3, 0], rfl, by simp⟩

/-- The same loop with the reserved operand where it is ignored. -/
def mixedTape' : Program := ⟨#[7, 1, 2, 4, 4, 7, 0, 3, 5, 5, 3, 0], rfl, by simp⟩

/-- Both loops run alike from 729, and the seed of one output of the second is found like that of
the first. -/
theorem Program.ignored_operands_mixedTape :
    mixedTape.SameButIgnored mixedTape' ∧
      mixedTape'.run 100 (.start ⟨729, 1, 2⟩) =
        (.ok (), ⟨⟨⟨0, 1, 0⟩, 12⟩, #[5, 6, 6, 1], 24⟩) ∧
      (SeedSearch.findSeed ⟨mixedTape', [5, 6, 6, 1], 100, true⟩).result = .ok (some 729) := by
  have hsame : mixedTape.SameButIgnored mixedTape' := by decide
  obtain ⟨hrun, hsearch⟩ := ignored_operands hsame
  obtain ⟨hresult, -, -⟩ := hsearch [5, 6, 6, 1] 100 true
  refine ⟨hsame, ?_, ?_⟩
  · rw [← hrun]
    rfl
  · rw [← hresult]
    decide +kernel

end OctalTape

import OctalTape.Proofs.Machine.LiteralLoop
import OctalTape.Proofs.Octal
import OctalTape.Proofs.Search.Guard

set_option relaxedAutoImplicit false
set_option autoImplicit false

/-!
# What the probes of the guard prove

The guard runs one seed for each number of octal digits. For programs whose shifts are fixed and
whose jumps lead back, this is enough. How often such a program goes through its loop depends
only on how many bits its seed has, and the first four probes leave one possibility: each pass
shifts three bits out and emits one value, and nothing is shifted or emitted elsewhere. Then all
seeds with the same number of digits make runs of the same length with the same number of
outputs, and the probe has shown that the run fits into the limit.

## Main results

* `OctalTape.LiteralLoop.eq_of_probes` — four probes leave one possibility.
* `OctalTape.LiteralLoop.exhausts_octalLength` — if each pass shifts three bits out, there is one
  pass for each octal digit.
* `OctalTape.SeedSearch.length_output_of_guard` — what the guard accepts emits one value for each
  octal digit, from all seeds with no more digits than the target has values.

## Implementation notes

Fewer probes are not enough: a program that first shifts one bit out, and two in each pass, makes
one, two and three outputs from the seeds `1`, `8` and `64`, but four from `511`.
-/

namespace OctalTape

namespace LiteralLoop

/-! ## Counting passes -/

/-- A power of eight is exhausted by passes that shift its highest bit out, and by no fewer. -/
lemma Exhausts.pow_eight {first each digits m : ℕ} (h : Exhausts first each (8 ^ digits) m) :
    3 * digits < first + m * each ∧
      ∀ k, 1 ≤ k → k < m → first + k * each ≤ 3 * digits := by
  have hpow : 8 ^ digits = 2 ^ (3 * digits) := by rw [Nat.pow_mul]
  obtain ⟨-, hlt, hle⟩ := h
  rw [hpow] at hlt hle
  exact ⟨(Nat.pow_lt_pow_iff_right (by decide)).mp hlt,
    fun k hk hkm => (Nat.pow_le_pow_iff_right (by decide)).mp (hle k hk hkm)⟩

/-- If each pass shifts three bits out, there is one pass for each octal digit. -/
lemma exhausts_octalLength (a : ℕ) : Exhausts 0 3 a (octalLength a) := by
  have hpow : ∀ k, 2 ^ (0 + k * 3) = 8 ^ k := fun k => by
    rw [Nat.zero_add, Nat.mul_comm, Nat.pow_mul]
  refine ⟨octalLength_pos a, ?_, fun k hk hlt => ?_⟩
  · rw [hpow]
    exact (octalLength_le_iff (octalLength_pos a)).mp (Nat.le_refl _)
  · rw [hpow]
    exact Nat.le_of_not_lt fun ha => Nat.not_le_of_lt hlt ((octalLength_le_iff hk).mpr ha)

/-- Four probes leave one possibility: if the passes that exhaust the powers of eight emit one
value for each digit of them, together with what is emitted in front of the loop and behind it,
then each pass shifts three bits out and emits one value, and there is nothing else.

**Proof sketch.** If a pass emitted nothing, the first two probes would make the same number of
outputs. So the first probe makes one pass with one value, and nothing is emitted elsewhere. Then
the probes make as many passes as their seeds have digits, and from where the highest bits of
these seeds are, the two shifts follow. -/
theorem eq_of_probes {first each front body back : ℕ}
    (h : ∀ digits, 1 ≤ digits → digits ≤ 4 → ∃ m, Exhausts first each (8 ^ (digits - 1)) m ∧
      front + m * body + back = digits) :
    first = 0 ∧ each = 3 ∧ front = 0 ∧ body = 1 ∧ back = 0 := by
  obtain ⟨m₁, hm₁, hout₁⟩ := h 1 (by decide) (by decide)
  obtain ⟨m₂, hm₂, hout₂⟩ := h 2 (by decide) (by decide)
  obtain ⟨m₃, hm₃, hout₃⟩ := h 3 (by decide) (by decide)
  obtain ⟨m₄, hm₄, hout₄⟩ := h 4 (by decide) (by decide)
  have hbody : 1 ≤ body := by
    refine Nat.one_le_iff_ne_zero.mpr ?_
    rintro rfl
    rw [Nat.mul_zero] at hout₁ hout₂
    omega
  have hpass : 1 ≤ m₁ * body := Nat.mul_le_mul hm₁.pos hbody
  have hone : m₁ * body = 1 := by omega
  obtain rfl : m₁ = 1 := Nat.eq_one_of_mul_eq_one_right hone
  obtain rfl : body = 1 := Nat.eq_one_of_mul_eq_one_left hone
  obtain ⟨rfl, rfl⟩ : front = 0 ∧ back = 0 := by omega
  obtain rfl : m₂ = 2 := by omega
  obtain rfl : m₃ = 3 := by omega
  obtain rfl : m₄ = 4 := by omega
  -- the third probe shifts more than six bits in three passes, the fourth at most nine
  have hmore₃ := hm₃.pow_eight.1
  have hmore₄ := hm₄.pow_eight.1
  have hless₂ := hm₂.pow_eight.2 1 (by decide) (by decide)
  have hless₃ := hm₃.pow_eight.2 2 (by decide) (by decide)
  have hless₄ := hm₄.pow_eight.2 3 (by decide) (by decide)
  have heach : each = 3 := by omega
  subst heach
  exact ⟨by omega, rfl, rfl, rfl, rfl⟩

end LiteralLoop

namespace SeedSearch

open LiteralLoop

/-! ## Programs that the guard accepts -/

/-- The guard accepts no program without jumps if it makes two probes.

**Proof sketch.** Such a program makes the same number of outputs from all seeds. -/
lemma not_guard_of_no_jump {q : SeedSearch} {is : List Instruction}
    (hcarry : q.program.Carries 0 is) (hsize : q.program.size = 2 * is.length)
    (hfixed : ∀ i ∈ is, i.Fixed) (hno : ∀ i ∈ is, i.opcode ≠ .jnz)
    (hlong : 2 ≤ q.target.length) : q.guard.result ≠ .ok () := by
  intro hguard
  have hprobe := result_guard_eq_ok_iff.mp hguard
  obtain ⟨output₁, hout₁, hlen₁⟩ := hprobe 1 (by decide) (by simp [maxDigits]; omega)
  obtain ⟨output₂, hout₂, hlen₂⟩ := hprobe 2 (by decide) (by simp [maxDigits]; omega)
  have h₁ := Program.length_output_of_no_jump hcarry hsize hfixed hno hout₁
  have h₂ := Program.length_output_of_no_jump hcarry hsize hfixed hno hout₂
  omega

/-- Each probe of a loop makes passes that exhaust a power of eight, within the limit. -/
lemma exists_exhausts_of_guard {q : SeedSearch} {front body back : List Instruction}
    (hloop : LiteralLoop q.program front body back) (hguard : q.guard.result = .ok ())
    {digits : ℕ} (hpos : 1 ≤ digits) (hle : digits ≤ min q.target.length maxDigits) :
    ∃ m, Exhausts (Instruction.totalShift front) (Instruction.totalShift body)
        (8 ^ (digits - 1)) m ∧
      front.length + m * (body.length + 1) + back.length ≤ q.stepLimit ∧
      Instruction.outputs front + m * Instruction.outputs body + Instruction.outputs back =
        digits := by
  have hprobe := hloop.outputOf_length_iff.mp (result_guard_eq_ok_iff.mp hguard digits hpos hle)
  rwa [toNat_leastWithDigits (hle.trans (Nat.min_le_right _ _))] at hprobe

/-- **The probes are enough for loops with literal shifts.** If register A is divided by fixed
powers of two only, no jump leads forward, and the target has four values or more, then behind a
guard that accepts the program each seed with no more octal digits than the target has values
halts within the limit and makes one output for each of its digits.

**Proof sketch.** The program has a jump (`not_guard_of_no_jump`), so it is a loop. The first four
probes show that each pass shifts three bits out and emits one value (`eq_of_probes`). So a seed
makes one pass for each of its digits (`exhausts_octalLength`), the same as the probe with as
many digits, which has halted within the limit. -/
theorem length_output_of_guard {q : SeedSearch} (hp : q.program.LiteralBackward)
    (hlong : 4 ≤ q.target.length) (hguard : q.guard.result = .ok ()) {a : Word}
    (ha : a.toNat < 8 ^ q.target.length) :
    ∃ output, q.output a = .ok output ∧ output.length = octalLength a.toNat := by
  obtain ⟨output, hout, -⟩ :=
    result_guard_eq_ok_iff.mp hguard 1 (by decide) (by simp [maxDigits]; omega)
  rcases hp.exists_literalLoop hout with ⟨is, hcarry, hsize, hfixed, hno⟩ | hloop
  · exact absurd hguard (not_guard_of_no_jump hcarry hsize hfixed hno (by omega))
  obtain ⟨front, body, back, hloop⟩ := hloop
  obtain ⟨hfirst, heach, hfront, hbody, hback⟩ := eq_of_probes fun digits hpos hle => by
    obtain ⟨m, hm, -, hlen⟩ :=
      exists_exhausts_of_guard hloop hguard hpos (by simp [maxDigits]; omega)
    exact ⟨m, hm, hlen⟩
  have hdigits : octalLength a.toNat ≤ min q.target.length maxDigits :=
    Nat.le_min.mpr ⟨(octalLength_le_iff (by omega)).mpr ha, octalLength_word_le a⟩
  obtain ⟨m, -, hle, hlen⟩ :=
    exists_exhausts_of_guard hloop hguard (octalLength_pos a.toNat) hdigits
  obtain rfl : m = octalLength a.toNat := by
    rw [hfront, hbody, hback] at hlen
    omega
  refine hloop.outputOf_length_iff.mpr ⟨_, ?_, hle, hlen⟩
  rw [hfirst, heach]
  exact exhausts_octalLength a.toNat

/-- The question for a seed of four values in a program with two shifts and two jumps. -/
def splitShiftSearch : SeedSearch where
  program := ⟨#[0, 1, 2, 4, 0, 2, 5, 5, 3, 0, 3, 4], rfl, by simp⟩
  target := [7, 7, 7, 3]

/-- The guard accepts the program with two shifts and two jumps, so it makes four outputs from
the largest number with four octal digits. -/
theorem length_output_splitShiftSearch :
    splitShiftSearch.program.LiteralBackward ∧ splitShiftSearch.guard.result = .ok () ∧
      ∃ output, splitShiftSearch.output 4095 = .ok output ∧ output.length = 4 := by
  have hp : splitShiftSearch.program.LiteralBackward := by decide
  have hguard : splitShiftSearch.guard.result = .ok () := by decide +kernel
  obtain ⟨output, hout, hlen⟩ :=
    length_output_of_guard hp (by decide) hguard (a := 4095) (by decide)
  have hdigits : octalLength (4095 : Word).toNat = 4 :=
    Nat.le_antisymm ((octalLength_le_iff (by decide)).mpr (by decide))
      (Nat.lt_of_not_le fun h => absurd ((octalLength_le_iff (by decide)).mp h) (by decide))
  exact ⟨hp, hguard, output, hout, hlen.trans hdigits⟩

end SeedSearch

end OctalTape

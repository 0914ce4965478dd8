import OctalTape.Proofs.Machine.StraightLine
import OctalTape.Proofs.Octal

set_option relaxedAutoImplicit false
set_option autoImplicit false

/-!
# Digit loops

A digit loop is a program that goes through its body once for each octal digit of register A,
from the lowest: the body shifts one digit out of A and emits one value, and the jump behind it
leads back to the start until A is zero. What B and C hold at the start of a pass does not
matter, because the body reads them only after it has set them.

## Main definitions

* `OctalTape.DigitLoop` — a program that is a digit loop with a given body.
* `OctalTape.DigitLoop.passValue` — the value that one pass emits.
* `OctalTape.DigitLoop.emissions` — the values that all passes emit.

## Main results

* `OctalTape.DigitLoop.exists_after_pass` — one pass, from any contents of B and C.
* `OctalTape.DigitLoop.exists_after_passes` — all passes, one for each octal digit of A.
* `OctalTape.DigitLoop.outputOf_eq` — the output of a seed.
* `OctalTape.DigitLoop.run_digitLoop` — the length, the outputs and the steps of a run.
-/

namespace OctalTape

/-- The program `p` is a loop around `body` that goes through the octal digits of register A. -/
structure DigitLoop (p : Program) (body : List Instruction) : Prop where
  /-- The body is followed by the jump to the start. -/
  tape : p.toList = body.flatMap Instruction.codes ++ [3, 0]
  /-- There is no other jump. -/
  no_jump : ∀ i ∈ body, i.opcode ≠ .jnz
  /-- Register A is divided once, -/
  one_shift : body.countP (·.opcode = .adv) = 1
  /-- by eight. -/
  shift_digit : ∀ i ∈ body, i.opcode = .adv → i.operand = 3
  /-- One value is emitted. -/
  one_output : body.countP (·.opcode = .out) = 1
  /-- The reserved operand is not resolved. -/
  no_reserved : ∀ i ∈ body, i.opcode.resolves → i.operand ≠ 7
  /-- Register B is read only after it has been set. -/
  defined_b : DefinedBefore Instruction.readsB Instruction.setsB body
  /-- Register C is read only after it has been set. -/
  defined_c : DefinedBefore Instruction.readsC Instruction.setsC body

namespace DigitLoop

variable {p : Program} {body : List Instruction}

/-! ## The tape of a loop -/

/-- The tape holds two codes for each instruction of the body, and two for the jump. -/
lemma size_eq (h : DigitLoop p body) : p.size = 2 * (body.length + 1) := by
  have hlen : p.size = p.toList.length := by simp [Program.size, Program.toList]
  rw [hlen, h.tape, List.length_append, Instruction.length_flatMap_codes]
  simp only [List.length_cons, List.length_nil]
  omega

/-- The body is carried by the tape from its start. -/
lemma carries (h : DigitLoop p body) : p.Carries 0 body :=
  Program.carries_of_toList [] body [3, 0] (by simpa using h.tape)

/-- The instructions of the body neither jump nor fault.

**Proof sketch.** The operands of the body are codes of the tape, so they are seven at most, and
none that is resolved is seven. -/
lemma straight (h : DigitLoop p body) : ∀ i ∈ body, i.Straight := by
  intro i hi
  refine ⟨h.no_jump i hi, fun hres => ?_⟩
  have hmem : i.operand ∈ p.codes := by
    rw [← Array.mem_toList_iff]
    show i.operand ∈ p.toList
    rw [h.tape]
    simp only [List.mem_append, List.mem_flatMap]
    exact .inl ⟨i, hi, by simp [Instruction.codes]⟩
  have hle : i.operand.toNat ≤ 7 := UInt8.le_iff_toNat_le.mp (p.le_seven _ hmem)
  have hne : i.operand.toNat ≠ 7 := fun h7 => h.no_reserved i hi hres (UInt8.toNat_inj.mp h7)
  omega

/-- The jump to the start stands behind the body. -/
lemma fetch_jump (h : DigitLoop p body) : p.fetch (2 * body.length) = some ⟨.jnz, 0⟩ := by
  have hcarry := Program.carries_of_toList (p := p) (body.flatMap Instruction.codes)
    [⟨.jnz, 0⟩] [] (by simpa [Instruction.codes, Opcode.toCode] using h.tape)
  rw [Instruction.length_flatMap_codes] at hcarry
  exact hcarry.1

/-! ## One pass -/

/-- The value that one pass emits if register A holds `a`. -/
def passValue (body : List Instruction) (a : Word) : UInt8 :=
  match (Config.start (.ofSeed a)).executeAll body with
  | .ok (_, value :: _) => value
  | _ => 0

/-- The body takes one octal digit off register A and emits one value, which does not depend on
what B and C hold.

**Proof sketch.** Execute the body from the registers at hand and from zeros in B and C. Both
emit one value (`Config.exists_executeAll`), and the same one (`Config.executeAll_agrees`). -/
lemma exists_executeAll_body (h : DigitLoop p body) {c : Config} (hc : c.pointer = 0) :
    ∃ d, c.executeAll body = .ok (d, [passValue body c.registers.a]) ∧
      d.pointer = 2 * body.length ∧ d.registers.a.toNat = c.registers.a.toNat / 8 := by
  obtain ⟨d, values, hd, hdp, hda, hlen⟩ :=
    Config.exists_executeAll h.straight h.shift_digit c
  obtain ⟨d₀, values₀, hd₀, -, -, hlen₀⟩ :=
    Config.exists_executeAll h.straight h.shift_digit (.start (.ofSeed c.registers.a))
  have hagree : Config.AgreesOn false false c (.start (.ofSeed c.registers.a)) :=
    ⟨hc, rfl, by simp, by simp⟩
  have hvalues : values = values₀ :=
    Config.executeAll_agrees [] hagree h.defined_b h.defined_c hd hd₀
  rw [h.one_output] at hlen₀
  obtain ⟨value, rfl⟩ := List.length_eq_one_iff.mp hlen₀
  have hpass : passValue body c.registers.a = value := by simp [passValue, hd₀]
  refine ⟨d, by rw [hd, hvalues, hpass], by rw [hdp, hc, Nat.zero_add], ?_⟩
  rw [hda, h.one_shift, Nat.pow_one]

/-- One pass takes one octal digit off register A and emits one value. It ends at the start of
the tape if A is not exhausted, and else behind the tape.

**Proof sketch.** The body is straight-line code, and leaves behind it the eighth part of register
A and one value. The jump then sees a zero exactly if A was less than eight: it is passed, and the
run is behind the tape, or taken, and the run is at the start. -/
lemma exists_after_pass (h : DigitLoop p body) {r : Run} (hr : r.config.pointer = 0) :
    ∃ s, p.after (body.length + 1) r = some s ∧
      s.config.registers.a = r.config.registers.a / 8 ∧
      s.output.toList = r.output.toList ++ [passValue body r.config.registers.a] ∧
      s.config.pointer = if r.config.registers.a < 8 then p.size else 0 := by
  obtain ⟨d, hd, hdp, hda⟩ := h.exists_executeAll_body hr
  obtain ⟨s, hs, rfl, hout⟩ := Program.exists_after_of_executeAll
    (by rw [hr]; exact h.carries) h.straight hd
  have ha : s.config.registers.a = r.config.registers.a / 8 := by
    rw [← UInt64.toNat_inj, hda, UInt64.toNat_div]
    rfl
  have hzero : s.config.registers.a = 0 ↔ r.config.registers.a < 8 := by
    rw [← UInt64.toNat_inj, hda, UInt64.lt_iff_toNat_lt]
    show _ / 8 = 0 ↔ _ < 8
    omega
  have hfetch := h.fetch_jump
  rw [← hdp] at hfetch
  rw [Program.after_add_of_eq hs]
  by_cases hlt : r.config.registers.a < 8
  · have hstep : p.step s.config = .next s.config.pass :=
      Program.step_of_jnz_of_a_eq_zero hfetch rfl (hzero.mpr hlt)
    refine ⟨s.advance s.config.pass, by rw [Program.after_succ_of_next hstep, Program.after_zero],
      ?_, ?_, ?_⟩
    · rw [Run.config_advance]
      exact ha
    · rw [Run.toList_output_advance, hout]
      simp [Config.pass]
    · rw [Run.config_advance, if_pos hlt, h.size_eq]
      simp only [Config.pass, hdp]
      omega
  · have hstep : p.step s.config = .next ⟨{ s.config with pointer := 0 }, none⟩ :=
      Program.step_of_jnz_of_a_ne_zero hfetch (mt hzero.mp hlt) rfl
    refine ⟨_, by rw [Program.after_succ_of_next hstep, Program.after_zero], ?_, ?_, ?_⟩
    · rw [Run.config_advance]
      exact ha
    · rw [Run.toList_output_advance, hout]
      simp
    · rw [Run.config_advance, if_neg hlt]

/-! ## All passes -/

/-- The values that all passes emit if register A holds `a`. -/
def emissions (body : List Instruction) (a : Word) : List UInt8 :=
  passValue body a :: if a < 8 then [] else emissions body (a / 8)
termination_by a.toNat
decreasing_by
  rename_i hlt
  rw [UInt64.lt_iff_toNat_lt] at hlt
  rw [UInt64.toNat_div]
  simp only [UInt64.reduceToNat] at hlt ⊢
  omega

/-- Below eight there is one pass. -/
lemma emissions_of_lt {a : Word} (ha : a < 8) : emissions body a = [passValue body a] := by
  rw [emissions, if_pos ha]

/-- From eight on the other passes are those of the quotient by eight. -/
lemma emissions_of_not_lt {a : Word} (ha : ¬ a < 8) :
    emissions body a = passValue body a :: emissions body (a / 8) := by
  rw [emissions, if_neg ha]

/-- The number of digits of a word is one, or one more than that of its eighth part. -/
lemma octalLength_word (a : Word) :
    octalLength a.toNat = if a < 8 then 1 else octalLength (a / 8).toNat + 1 := by
  have hlt : a < 8 ↔ a.toNat < 8 := UInt64.lt_iff_toNat_lt
  have hdiv : (a / 8).toNat = a.toNat / 8 := UInt64.toNat_div a 8
  rw [hdiv]
  split
  · next h => exact octalLength_of_lt (hlt.mp h)
  · next h => exact octalLength_of_le (Nat.le_of_not_lt (mt hlt.mpr h))

/-- There is one value for each octal digit. -/
lemma length_emissions (body : List Instruction) (a : Word) :
    (emissions body a).length = octalLength a.toNat := by
  induction a using emissions.induct with
  | case1 a ih =>
    rw [octalLength_word]
    by_cases ha : a < 8
    · rw [emissions_of_lt ha, if_pos ha, List.length_singleton]
    · rw [emissions_of_not_lt ha, if_neg ha, List.length_cons, ih ha]

/-- The passes go through the octal digits of register A, and then the machine is behind the
tape.

**Proof sketch.** Induction on what A holds, by eighths. The last pass ends behind the tape;
each other one ends at its start with an eighth of A, and what it left in B and C does not
matter to the passes that follow. -/
lemma exists_after_passes (h : DigitLoop p body) (a : Word) :
    ∀ {r : Run}, r.config.pointer = 0 → r.config.registers.a = a →
      ∃ s, p.after ((body.length + 1) * octalLength a.toNat) r = some s ∧
        s.output.toList = r.output.toList ++ emissions body a ∧ s.config.pointer = p.size := by
  induction a using emissions.induct with
  | case1 a ih =>
    intro r hr hra
    obtain ⟨s, hs, hsa, hout, hsp⟩ := h.exists_after_pass hr
    rw [hra] at hsa hout hsp
    rw [octalLength_word]
    by_cases ha : a < 8
    · rw [if_pos ha, Nat.mul_one]
      rw [if_pos ha] at hsp
      exact ⟨s, hs, by rw [hout, emissions_of_lt ha], hsp⟩
    · rw [if_neg ha] at hsp
      obtain ⟨u, hu, huout, hup⟩ := ih ha hsp hsa
      refine ⟨u, ?_, ?_, hup⟩
      · rw [if_neg ha, Nat.mul_add, Nat.mul_one, Nat.add_comm, Program.after_add_of_eq hs, hu]
      · rw [huout, hout, emissions_of_not_lt ha, List.append_assoc, List.singleton_append]

/-- A run of a loop from a seed with enough steps for all octal digits that a word can have
halts.

**Proof sketch.** The passes take as many steps as there are octal digits, times the length of
the loop. A word has at most 22 digits, so the limit is not reached, and the run halts behind the
tape. -/
lemma run_eq (h : DigitLoop p body) {limit : ℕ} (hlimit : 11 * p.size ≤ limit) (a : Word) :
    ∃ s, p.run limit (.start (.ofSeed a)) = (.ok (), s) ∧ s.output.toList = emissions body a ∧
      s.steps = p.size / 2 * octalLength a.toNat := by
  obtain ⟨s, hs, hout, hsp⟩ :=
    h.exists_after_passes a (r := .start (.ofSeed a)) rfl rfl
  have hsize := h.size_eq
  have hhalf : p.size / 2 = body.length + 1 := by omega
  have hle : (body.length + 1) * octalLength a.toNat ≤ limit :=
    calc (body.length + 1) * octalLength a.toNat
        ≤ (body.length + 1) * 22 := Nat.mul_le_mul_left _ (octalLength_word_le a)
      _ ≤ limit := by omega
  have hhalt : p.step s.config = .halt := by
    rw [Program.step_eq_halt_iff, Program.fetch_eq_none_iff, hsp]
    rw [hsp, hsize]
    omega
  refine ⟨s, Program.run_start_eq_iff.mpr ⟨_, hle, .halted, hs, .halted hhalt, rfl⟩, hout, ?_⟩
  rw [Program.steps_after hs, hhalf]
  exact Nat.zero_add _

/-- The output of a seed is one value for each of its octal digits. -/
theorem outputOf_eq (h : DigitLoop p body) {limit : ℕ} (hlimit : 11 * p.size ≤ limit) (a : Word) :
    p.outputOf limit a = .ok (emissions body a) := by
  obtain ⟨s, hs, hout, -⟩ := h.run_eq hlimit a
  simp [Program.outputOf, hs, hout, Except.map]

/-- **Digit loops are regular.** From every seed and under every limit that leaves eleven steps
for each code of the tape, a digit loop halts. It makes one pass and one output for each octal
digit of the seed, and from a seed of several digits it emits one value and then all that it
emits from the seed without its lowest digit. -/
theorem run_digitLoop (h : DigitLoop p body) {limit : ℕ} (hlimit : 11 * p.size ≤ limit)
    (a : Word) :
    let run := p.run limit (.start (.ofSeed a))
    run.1 = .ok () ∧ run.2.steps = p.size / 2 * octalLength a.toNat ∧
      run.2.output.size = octalLength a.toNat ∧
      (8 ≤ a → ∃ value, run.2.output.toList =
        value :: (p.run limit (.start (.ofSeed (a / 8)))).2.output.toList) := by
  obtain ⟨s, hs, hout, hsteps⟩ := h.run_eq hlimit a
  obtain ⟨s', hs', hout', -⟩ := h.run_eq hlimit (a / 8)
  rw [hs, hs']
  refine ⟨rfl, hsteps, ?_, fun ha => ⟨passValue body a, ?_⟩⟩
  · rw [← Array.length_toList, hout, length_emissions]
  · rw [hout, hout', emissions_of_not_lt (UInt64.not_lt.mpr ha)]

/-- A loop whose values mix the lowest digit of A with three bits from further up. -/
def mixingLoop : Program :=
  ⟨#[2, 4, 1, 1, 7, 5, 4, 0, 0, 3, 1, 6, 5, 5, 3, 0], rfl, by simp⟩

/-- The body of the mixing loop. -/
def mixingBody : List Instruction :=
  [⟨.bst, 4⟩, ⟨.bxl, 1⟩, ⟨.cdv, 5⟩, ⟨.bxc, 0⟩, ⟨.adv, 3⟩, ⟨.bxl, 6⟩, ⟨.out, 5⟩]

/-- The mixing loop is a digit loop. -/
lemma digitLoop_mixingLoop : DigitLoop mixingLoop mixingBody := by
  constructor <;> decide

/-- A run of the mixing loop from a seed with four octal digits. -/
theorem run_mixingLoop :
    DigitLoop mixingLoop mixingBody ∧ 11 * mixingLoop.size ≤ 176 ∧
      (mixingLoop.run 176 (.start (.ofSeed 729))).2.steps = 32 ∧
      ∃ value, (mixingLoop.run 176 (.start (.ofSeed 729))).2.output.toList =
        value :: (mixingLoop.run 176 (.start (.ofSeed 91))).2.output.toList := by
  have hlimit : 11 * mixingLoop.size ≤ 176 := by decide
  obtain ⟨-, hsteps, -, hshift⟩ := run_digitLoop digitLoop_mixingLoop hlimit 729
  have hlen : octalLength (729 : Word).toNat = 4 :=
    Nat.le_antisymm ((octalLength_le_iff (by decide)).mpr (by decide))
      (Nat.lt_of_not_le fun h => absurd ((octalLength_le_iff (by decide)).mp h) (by decide))
  rw [hlen, show mixingLoop.size / 2 * 4 = 32 by decide] at hsteps
  rw [show (729 : Word) / 8 = 91 by decide] at hshift
  exact ⟨digitLoop_mixingLoop, hlimit, hsteps, hshift (by decide)⟩

end DigitLoop

end OctalTape

import Mathlib.Algebra.Group.Nat.Defs
import OctalTape.Proofs.Machine.Course

set_option relaxedAutoImplicit false
set_option autoImplicit false

/-!
# Straight-line code

A list of instructions without jumps is executed from its first to its last. Code that gives the
registers B and C contents of their own before it reads them does the same whatever was in them.

## Main definitions

* `OctalTape.Config.executeAll` — what a list of instructions makes of a configuration.
* `OctalTape.Program.Carries` — instructions stand on the tape one behind the other.
* `OctalTape.Instruction.Straight` — an instruction that neither jumps nor faults.
* `OctalTape.Instruction.readsB`, `OctalTape.Instruction.setsB`, and the same for C — which
  instructions use what is in a register, and which give it a content of its own.
* `OctalTape.DefinedBefore` — nothing in a list reads a register before it has been set.

## Main results

* `OctalTape.Program.exists_after_of_executeAll` — a program executes straight-line code on its
  tape.
* `OctalTape.Config.executeAll_agrees` — code that reads B and C only after they have been set
  emits the same values from any two configurations with the same register A.
-/

namespace OctalTape

/-! ## Reading and setting registers -/

namespace Instruction

/-- The two codes of an instruction. -/
def codes (i : Instruction) : List UInt8 := [i.opcode.toCode, i.operand]

/-- There are two codes for each instruction. -/
lemma length_flatMap_codes (is : List Instruction) :
    (is.flatMap codes).length = 2 * is.length := by
  induction is with
  | nil => rfl
  | cons i is ih =>
    rw [List.flatMap_cons, List.length_append, ih, List.length_cons]
    simp only [codes, List.length_cons, List.length_nil]
    omega

/-- Whether an instruction uses what is in register B. -/
def readsB (i : Instruction) : Bool :=
  i.opcode = .bxl || i.opcode = .bxc || i.opcode.resolves && i.operand = 5

/-- Whether an instruction uses what is in register C. -/
def readsC (i : Instruction) : Bool :=
  i.opcode = .bxc || i.opcode.resolves && i.operand = 6

/-- Whether an instruction puts something into register B that does not come from it. -/
def setsB (i : Instruction) : Bool := i.opcode = .bst || i.opcode = .bdv

/-- Whether an instruction puts something into register C. -/
def setsC (i : Instruction) : Bool := i.opcode = .cdv

/-- By how many bits an instruction shifts register A if its operand stands for itself. -/
def shift (i : Instruction) : ℕ := if i.opcode = .adv then i.operand.toNat else 0

/-- An instruction that neither jumps nor faults, whatever is in the registers. -/
def Straight (i : Instruction) : Prop :=
  i.opcode ≠ .jnz ∧ (i.opcode.resolves → i.operand.toNat < 7)

end Instruction

/-- Each instruction of a list that reads a register stands behind one that sets it. -/
def DefinedBefore (reads sets : Instruction → Bool) (is : List Instruction) : Prop :=
  ∀ k : Fin is.length, reads is[k] → ∃ j ∈ is.take k, sets j

instance (reads sets : Instruction → Bool) (is : List Instruction) :
    Decidable (DefinedBefore reads sets is) :=
  inferInstanceAs (Decidable (∀ k : Fin is.length, reads is[k] → ∃ j ∈ is.take k, sets j))

/-- The instructions in front of one that reads a register include one that sets it. -/
lemma DefinedBefore.any_sets {reads sets : Instruction → Bool} {before rest : List Instruction}
    {i : Instruction} (h : DefinedBefore reads sets (before ++ i :: rest)) (hi : reads i) :
    before.any sets := by
  rw [List.any_eq_true]
  have hk := h ⟨before.length, by simp⟩
  simp only [Fin.getElem_fin, List.getElem_append_right (Nat.le_refl _), Nat.sub_self,
    List.getElem_cons_zero, List.take_left] at hk
  exact hk hi

/-! ## Executing a list of instructions -/

namespace Config

/-- What instructions make of a configuration one after the other, and the values emitted. -/
def executeAll : List Instruction → Config → Except Error (Config × List UInt8)
  | [], c => .ok (c, [])
  | i :: is, c => do
    let t ← c.execute i
    let (d, values) ← executeAll is t.config
    return (d, t.emitted.toList ++ values)

/-- The first instruction is split off. -/
lemma executeAll_cons_eq_ok_iff {i : Instruction} {is : List Instruction} {c d : Config}
    {values : List UInt8} :
    executeAll (i :: is) c = .ok (d, values) ↔
      ∃ t rest, c.execute i = .ok t ∧ executeAll is t.config = .ok (d, rest) ∧
        t.emitted.toList ++ rest = values := by
  simp only [executeAll]
  cases c.execute i with
  | error e => simp [bind, Except.bind]
  | ok t =>
    cases h : executeAll is t.config with
    | error e => simp [bind, Except.bind, h]
    | ok r =>
      obtain ⟨d', rest⟩ := r
      simp [bind, Except.bind, h, pure, Except.pure, and_assoc]

variable {c : Config} {i : Instruction}

/-- An instruction that neither faults nor jumps here leads behind itself. A jump may stand here
if register A is exhausted. -/
lemma exists_execute_of_pass (hres : i.opcode.resolves → i.operand.toNat < 7)
    (hjump : i.opcode = .jnz → c.registers.a = 0) :
    ∃ t, c.execute i = .ok t ∧ t.config.pointer = c.pointer + 2 := by
  cases h : c.execute i with
  | error e =>
    rcases execute_eq_error_iff.mp h with ⟨hr, hx, -⟩ | ⟨hj, ha, -⟩
    · have := hres hr
      omega
    · exact absurd (hjump hj) ha
  | ok t =>
    rcases pointer_of_execute h with hp | ⟨hj, ha, -⟩
    · exact ⟨t, rfl, hp⟩
    · exact absurd (hjump hj) ha

/-- An instruction that neither jumps nor faults is executed, and the position is behind it. -/
lemma exists_execute_of_straight (hi : i.Straight) :
    ∃ t, c.execute i = .ok t ∧ t.config.pointer = c.pointer + 2 :=
  exists_execute_of_pass hi.2 fun hj => absurd hj hi.1

/-- An instruction whose exponent is literal divides register A by that power of two. -/
lemma toNat_a_of_literal {t : Transition} (hlit : i.opcode = .adv → i.operand < 4)
    (h : c.execute i = .ok t) :
    t.config.registers.a.toNat = c.registers.a.toNat / 2 ^ i.shift := by
  cases execute_eq_ok_iff.mp h with
  | @adv x w hw =>
    rw [resolve_literal (hlit rfl), Except.ok.injEq] at hw
    subst hw
    simp [assign, Registers.set, Word.toNat_divPow2, Nat.shiftRight_eq_div_pow, Instruction.shift]
  | _ => simp [assign, emit, pass, Registers.set, Instruction.shift]

/-- If register A is only ever divided by `2 ^ 3`, an instruction takes one octal digit off it
or none. -/
lemma toNat_a_of_execute {t : Transition} (h3 : i.opcode = .adv → i.operand = 3)
    (h : c.execute i = .ok t) :
    t.config.registers.a.toNat =
      c.registers.a.toNat / 8 ^ (if i.opcode = .adv then 1 else 0) := by
  rw [toNat_a_of_literal (fun hadv => h3 hadv ▸ by decide) h]
  by_cases hadv : i.opcode = .adv
  · simp [Instruction.shift, hadv, h3 hadv]
  · simp [Instruction.shift, hadv]

/-- One opcode emits a value, and the others emit none. -/
lemma length_emitted_of_execute {t : Transition} (h : c.execute i = .ok t) :
    t.emitted.toList.length = if i.opcode = .out then 1 else 0 := by
  cases execute_eq_ok_iff.mp h <;> rfl

/-- Straight-line code is executed to its end. It takes an octal digit off register A for each
division of A, and emits a value for each output.

**Proof sketch.** Induction on the code. The first instruction is executed
(`exists_execute_of_straight`), and its share of the two counts is what `toNat_a_of_execute` and
`length_emitted_of_execute` say. -/
theorem exists_executeAll {is : List Instruction} (hs : ∀ i ∈ is, i.Straight)
    (h3 : ∀ i ∈ is, i.opcode = .adv → i.operand = 3) (c : Config) :
    ∃ d values, c.executeAll is = .ok (d, values) ∧ d.pointer = c.pointer + 2 * is.length ∧
      d.registers.a.toNat = c.registers.a.toNat / 8 ^ is.countP (·.opcode = .adv) ∧
      values.length = is.countP (·.opcode = .out) := by
  induction is generalizing c with
  | nil => exact ⟨c, [], rfl, by simp, by simp, rfl⟩
  | cons i is ih =>
    obtain ⟨t, ht, hp⟩ := exists_execute_of_straight (c := c) (hs i (by simp))
    obtain ⟨d, values, hd, hdp, hda, hlen⟩ :=
      ih (fun j hj => hs j (by simp [hj])) (fun j hj => h3 j (by simp [hj])) t.config
    refine ⟨d, t.emitted.toList ++ values, executeAll_cons_eq_ok_iff.mpr ⟨t, values, ht, hd, rfl⟩,
      ?_, ?_, ?_⟩
    · rw [hdp, hp, List.length_cons]
      omega
    · rw [hda, toNat_a_of_execute (h3 i (by simp)) ht, Nat.div_div_eq_div_mul, ← Nat.pow_add,
        List.countP_cons, Nat.add_comm]
      simp
    · rw [List.length_append, hlen, length_emitted_of_execute ht, List.countP_cons, Nat.add_comm]
      simp

/-! ## Leftovers do not matter -/

/-- Two configurations at the same position with the same register A, which agree in register B
if `knownB` holds, and in register C if `knownC` does. -/
structure AgreesOn (knownB knownC : Bool) (c d : Config) : Prop where
  pointer : c.pointer = d.pointer
  a : c.registers.a = d.registers.a
  b : knownB → c.registers.b = d.registers.b
  c : knownC → c.registers.c = d.registers.c

namespace AgreesOn

variable {knownB knownC : Bool} {d : Config}

/-- They still agree at another position. -/
lemma move (h : AgreesOn knownB knownC c d) (pointer : ℕ) :
    AgreesOn knownB knownC { c with pointer := pointer } { d with pointer := pointer } :=
  ⟨rfl, h.a, h.b, h.c⟩

/-- They still agree behind an instruction that leaves the registers alone. -/
lemma pass (h : AgreesOn knownB knownC c d) :
    AgreesOn knownB knownC c.pass.config d.pass.config := by
  unfold Config.pass
  rw [h.pointer]
  exact h.move _

/-- They still agree behind an instruction that emits a value. -/
lemma emit (h : AgreesOn knownB knownC c d) (value : UInt8) :
    AgreesOn knownB knownC (c.emit value).config (d.emit value).config := h.pass

/-- They still agree behind an instruction that puts the same word into register A. -/
lemma assign_a (h : AgreesOn knownB knownC c d) (w : Word) :
    AgreesOn knownB knownC (c.assign .a w).config (d.assign .a w).config :=
  ⟨congrArg (· + 2) h.pointer, rfl, h.b, h.c⟩

/-- They agree in register B behind an instruction that puts the same word into it. -/
lemma assign_b (h : AgreesOn knownB knownC c d) (w : Word) (knownB' : Bool) :
    AgreesOn knownB' knownC (c.assign .b w).config (d.assign .b w).config :=
  ⟨congrArg (· + 2) h.pointer, h.a, fun _ => rfl, h.c⟩

/-- They agree in register C behind an instruction that puts the same word into it. -/
lemma assign_c (h : AgreesOn knownB knownC c d) (w : Word) (knownC' : Bool) :
    AgreesOn knownB knownC' (c.assign .c w).config (d.assign .c w).config :=
  ⟨congrArg (· + 2) h.pointer, h.a, h.b, fun _ => rfl⟩

/-- An operand that an instruction resolves denotes the same word in both configurations if they
agree in the registers that the instruction reads. -/
lemma resolve_eq (h : AgreesOn knownB knownC c d) (hi : i.opcode.resolves)
    (hb : i.readsB → knownB) (hc : i.readsC → knownC) {v w : Word}
    (hv : c.resolve i.operand = .ok v) (hw : d.resolve i.operand = .ok w) : v = w := by
  have hres : c.resolve i.operand = d.resolve i.operand :=
    resolve_congr h.pointer h.a (fun hx => h.b (hb (by simp [Instruction.readsB, hi, hx])))
      (fun hx => h.c (hc (by simp [Instruction.readsC, hi, hx])))
  rw [hres, hw] at hv
  exact (Except.ok.inj hv).symm

/-- An instruction that reads only registers in which two configurations agree does the same to
both, and they also agree in the register that it sets.

**Proof sketch.** By cases on the rule by which it is executed in the one and in the other. A
resolved operand denotes the same word in both (`resolve_eq`), so the same word goes into a
register, or is emitted. -/
theorem execute (h : AgreesOn knownB knownC c d) {t u : Transition} (hb : i.readsB → knownB)
    (hc : i.readsC → knownC) (ht : c.execute i = .ok t) (hu : d.execute i = .ok u) :
    AgreesOn (knownB || i.setsB) (knownC || i.setsC) t.config u.config ∧
      t.emitted = u.emitted := by
  cases execute_eq_ok_iff.mp ht with
  | adv hv =>
    cases execute_eq_ok_iff.mp hu with
    | adv hw =>
      obtain rfl := h.resolve_eq rfl hb hc hv hw
      refine ⟨?_, rfl⟩
      rw [h.a]
      simpa [Instruction.setsB, Instruction.setsC] using h.assign_a _
  | bxl =>
    cases execute_eq_ok_iff.mp hu with
    | bxl =>
      refine ⟨?_, rfl⟩
      rw [h.b (hb rfl)]
      simpa [Instruction.setsC] using h.assign_b _ _
  | bst hv =>
    cases execute_eq_ok_iff.mp hu with
    | bst hw =>
      obtain rfl := h.resolve_eq rfl hb hc hv hw
      refine ⟨?_, rfl⟩
      simpa [Instruction.setsC] using h.assign_b _ _
  | pass hz =>
    cases execute_eq_ok_iff.mp hu with
    | pass =>
      refine ⟨?_, rfl⟩
      simpa [Instruction.setsB, Instruction.setsC] using h.pass
    | jump hz' => exact absurd (h.a ▸ hz) hz'
  | jump hz =>
    cases execute_eq_ok_iff.mp hu with
    | pass hz' => exact absurd (h.a ▸ hz') hz
    | jump =>
      refine ⟨?_, rfl⟩
      simpa [Instruction.setsB, Instruction.setsC] using h.move _
  | bxc =>
    cases execute_eq_ok_iff.mp hu with
    | bxc =>
      refine ⟨?_, rfl⟩
      rw [h.b (hb rfl), h.c (hc rfl)]
      simpa [Instruction.setsC] using h.assign_b _ _
  | out hv =>
    cases execute_eq_ok_iff.mp hu with
    | out hw =>
      obtain rfl := h.resolve_eq rfl hb hc hv hw
      refine ⟨?_, rfl⟩
      simpa [Instruction.setsB, Instruction.setsC] using h.emit _
  | bdv hv =>
    cases execute_eq_ok_iff.mp hu with
    | bdv hw =>
      obtain rfl := h.resolve_eq rfl hb hc hv hw
      refine ⟨?_, rfl⟩
      rw [h.a]
      simpa [Instruction.setsC] using h.assign_b _ _
  | cdv hv =>
    cases execute_eq_ok_iff.mp hu with
    | cdv hw =>
      obtain rfl := h.resolve_eq rfl hb hc hv hw
      refine ⟨?_, rfl⟩
      rw [h.a]
      simpa [Instruction.setsB] using h.assign_c _ _

end AgreesOn

/-- Code that reads B and C only after they have been set emits the same values from any two
configurations that agree in what the code `before` it has set.

**Proof sketch.** Induction on the code, with what stands in front of it general. An instruction
reads only what has been set, where the configurations agree, and they then agree in what it sets
too (`AgreesOn.execute`). -/
theorem executeAll_agrees (before : List Instruction) {is : List Instruction}
    {c d c' d' : Config} {values values' : List UInt8}
    (h : AgreesOn (before.any Instruction.setsB) (before.any Instruction.setsC) c d)
    (hb : DefinedBefore Instruction.readsB Instruction.setsB (before ++ is))
    (hc : DefinedBefore Instruction.readsC Instruction.setsC (before ++ is))
    (hcs : c.executeAll is = .ok (c', values)) (hds : d.executeAll is = .ok (d', values')) :
    values = values' := by
  induction is generalizing before c d values values' with
  | nil =>
    cases hcs
    cases hds
    rfl
  | cons i is ih =>
    obtain ⟨t, vs, ht, hvs, rfl⟩ := executeAll_cons_eq_ok_iff.mp hcs
    obtain ⟨u, ws, hu, hws, rfl⟩ := executeAll_cons_eq_ok_iff.mp hds
    obtain ⟨hagree, hemit⟩ := h.execute hb.any_sets hc.any_sets ht hu
    have hsnoc : ∀ sets : Instruction → Bool,
        (before ++ [i]).any sets = (before.any sets || sets i) := by
      simp
    rw [← hsnoc, ← hsnoc] at hagree
    rw [hemit, ih (before ++ [i]) hagree (by simpa using hb) (by simpa using hc) hvs hws]

end Config

/-! ## Straight-line code on a tape -/

namespace Program

variable {p : Program}

/-- The instructions stand on the tape one behind the other, from a position on. -/
def Carries (p : Program) : ℕ → List Instruction → Prop
  | _, [] => True
  | pointer, i :: is => p.fetch pointer = some i ∧ p.Carries (pointer + 2) is

/-- A tape carries code if it carries its first part, and the rest behind that. -/
lemma carries_append_iff {pointer : ℕ} {is js : List Instruction} :
    p.Carries pointer (is ++ js) ↔
      p.Carries pointer is ∧ p.Carries (pointer + 2 * is.length) js := by
  induction is generalizing pointer with
  | nil => simp [Carries]
  | cons i is ih =>
    have hpointer : pointer + 2 + 2 * is.length = pointer + 2 * (is.length + 1) := by omega
    rw [List.cons_append, Carries, Carries, ih, and_assoc, List.length_cons, hpointer]

/-- Where a tape is written as the codes of instructions, it carries them. -/
lemma carries_of_toList (front : List UInt8) (is : List Instruction) (back : List UInt8)
    (h : p.toList = front ++ is.flatMap Instruction.codes ++ back) :
    p.Carries front.length is := by
  induction is generalizing front with
  | nil => trivial
  | cons i is ih =>
    have hget : ∀ n : ℕ, p.codes[n]? = p.toList[n]? := fun n => Array.getElem?_toList.symm
    refine ⟨fetch_eq_some_iff.mpr ⟨?_, ?_⟩, ?_⟩
    · rw [hget, h]
      simp [Instruction.codes]
    · rw [hget, h]
      simp [Instruction.codes]
    · have hrest := ih (front ++ i.codes) (by simpa using h)
      simpa [Instruction.codes] using hrest

/-- A program executes straight-line code that its tape carries.

**Proof sketch.** Induction on the code. Straight-line code does not jump, so behind an instruction
the next one of the code is fetched. -/
theorem exists_after_of_executeAll {r : Run} {is : List Instruction} {d : Config}
    {values : List UInt8} (hcarry : p.Carries r.config.pointer is)
    (hs : ∀ i ∈ is, i.Straight) (h : r.config.executeAll is = .ok (d, values)) :
    ∃ s, p.after is.length r = some s ∧ s.config = d ∧
      s.output.toList = r.output.toList ++ values := by
  induction is generalizing r values with
  | nil =>
    cases h
    exact ⟨r, rfl, rfl, by simp⟩
  | cons i is ih =>
    obtain ⟨hfetch, hcarry⟩ := hcarry
    obtain ⟨t, rest, ht, hrest, rfl⟩ := Config.executeAll_cons_eq_ok_iff.mp h
    have hp : t.config.pointer = r.config.pointer + 2 := by
      obtain ⟨t', ht', hp⟩ := Config.exists_execute_of_straight (c := r.config) (hs i (by simp))
      rw [ht, Except.ok.injEq] at ht'
      rw [ht', hp]
    obtain ⟨s, hs', hd, hout⟩ := ih (r := r.advance t)
      (by rwa [Run.config_advance, hp]) (fun j hj => hs j (by simp [hj]))
      (by rwa [Run.config_advance])
    refine ⟨s, ?_, hd, ?_⟩
    · rw [List.length_cons, after_succ_of_next (step_eq_next_iff.mpr ⟨i, hfetch, ht⟩), hs']
    · rw [hout, Run.toList_output_advance, List.append_assoc]

end Program

end OctalTape

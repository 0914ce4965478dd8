import OctalTape.Proofs.Machine.ControlFlow
import OctalTape.Proofs.Machine.LiteralLoop
import OctalTape.Proofs.Machine.Resumption

set_option relaxedAutoImplicit false
set_option autoImplicit false

/-!
# Greater contents of register A

Take a program that divides register A by fixed powers of two only and never jumps forward. Two
runs of it do the same as long as A is not zero in either, and the greater A stays the greater.
When the lesser A is exhausted its run goes straight to the end of the tape. The other run has to
get there, too, and where no jump leads forward it executes each instruction on the way at least
once. So the greater A makes no fewer steps and no fewer outputs.

## Main definitions

* `OctalTape.Program.LiteralShifts`, `OctalTape.Program.BackwardJumps` — fixed shifts, and no
  jumps forward.
* `OctalTape.Run.Weighs` — a count of a run to which each instruction adds its weight.
* `OctalTape.Program.weightFrom` — the weight of the instructions from a position on.

## Main results

* `OctalTape.Program.weigh_of_a_eq_zero` — once A is zero, a run still executes each instruction
  from its position on, and just once.
* `OctalTape.Program.le_weigh_of_halt` — where no jump leads forward, every run that halts
  executes each instruction from its position on at least once.
* `OctalTape.Program.weigh_le_of_halt` — a run from a greater register A weighs no less.
* `OctalTape.Program.size_output_mono` — it makes no fewer steps and no fewer outputs.

## Implementation notes

Steps and outputs are counted alike: a step weighs one for each instruction, and an output for
those that emit. A jump to an odd position is no jump forward; a run that takes it does not halt.
-/

namespace OctalTape

/-! ## Weights -/

/-- Each instruction that is executed adds its weight to the count of the run. -/
def Run.Weighs (count : Run → ℕ) (weight : Instruction → ℕ) : Prop :=
  ∀ r i t, r.config.execute i = .ok t → count (r.advance t) = count r + weight i

namespace Run

/-- Each instruction is a step. -/
lemma weighs_steps : Weighs steps fun _ => 1 := fun r _ t _ => steps_advance r t

/-- Some instructions emit a value. -/
lemma weighs_outputs :
    Weighs (·.output.size) fun i => if i.opcode = .out then 1 else 0 := by
  intro r i t h
  show (r.advance t).output.size = r.output.size + _
  rw [size_output_advance, Config.length_emitted_of_execute h]

end Run

open Run (Weighs)

namespace Program

variable {p : Program} {weight : Instruction → ℕ} {count : Run → ℕ}

/-- The weight of the instructions from a position on to the end of the tape. -/
def weightFrom (p : Program) (weight : Instruction → ℕ) (pointer : ℕ) : ℕ :=
  match _ : p.fetch pointer with
  | none => 0
  | some i => weight i + p.weightFrom weight (pointer + 2)
termination_by p.size - pointer
decreasing_by
  have := lt_size_of_fetch ‹p.fetch pointer = some i›
  omega

/-- Behind the tape there is no weight. -/
lemma weightFrom_of_none {pointer : ℕ} (h : p.fetch pointer = none) :
    p.weightFrom weight pointer = 0 := by
  rw [weightFrom]
  split
  · rfl
  · next hi => simp [h] at hi

/-- The first instruction is split off. -/
lemma weightFrom_of_fetch {pointer : ℕ} {i : Instruction} (h : p.fetch pointer = some i) :
    p.weightFrom weight pointer = weight i + p.weightFrom weight (pointer + 2) := by
  rw [weightFrom]
  split
  · next hnone => simp [h] at hnone
  · next hi =>
    rw [h, Option.some.injEq] at hi
    rw [hi]

/-- From further back on there is no less weight.

**Proof sketch.** Induction on the instructions in between, each of which adds its weight, or none
if it is off the tape. -/
lemma weightFrom_le_of_le {pointer target : ℕ} (heven : target % 2 = 0)
    (heven' : pointer % 2 = 0) (h : target ≤ pointer) :
    p.weightFrom weight pointer ≤ p.weightFrom weight target := by
  obtain ⟨k, rfl⟩ : ∃ k, pointer = target + 2 * k := ⟨(pointer - target) / 2, by omega⟩
  clear h heven'
  induction k generalizing target with
  | zero => exact Nat.le_refl _
  | succ k ih =>
    have htail : p.weightFrom weight (target + 2 + 2 * k) ≤ p.weightFrom weight (target + 2) :=
      ih (by omega)
    rw [show target + 2 + 2 * k = target + 2 * (k + 1) by omega] at htail
    cases hi : p.fetch target with
    | none =>
      have hoff := (fetch_eq_none_iff heven).mp hi
      rw [weightFrom_of_none ((fetch_eq_none_iff (by omega)).mpr (by omega))]
      exact Nat.zero_le _
    | some i =>
      rw [weightFrom_of_fetch hi]
      omega

/-! ## Ways to the end of the tape -/

/-- Register A is shifted by a fixed number of bits only. -/
def LiteralShifts (p : Program) : Prop :=
  ∀ pointer x, pointer % 2 = 0 → p.fetch pointer = some ⟨.adv, x⟩ → x.toNat ≤ 3

/-- No jump leads forward. -/
def BackwardJumps (p : Program) : Prop :=
  ∀ pointer x, pointer % 2 = 0 → p.fetch pointer = some ⟨.jnz, x⟩ → x.toNat ≤ pointer

/-- If register A is zero, a run that halts executes each instruction from its position on, and
just once. -/
theorem weigh_of_a_eq_zero (hw : Weighs count weight) {n : ℕ} {r s : Run}
    (ha : r.config.registers.a = 0) (hs : p.after n r = some s) (hhalt : p.step s.config = .halt) :
    count s = count r + p.weightFrom weight r.config.pointer := by
  induction n generalizing r with
  | zero =>
    cases hs
    rw [weightFrom_of_none (step_eq_halt_iff.mp hhalt), Nat.add_zero]
  | succ n ih =>
    obtain ⟨t, ht, hs⟩ := exists_next_of_after_succ hs
    obtain ⟨i, hi, hexec⟩ := step_eq_next_iff.mp ht
    obtain ⟨hzero, hpointer⟩ := Config.execute_of_a_eq_zero ha hexec
    rw [ih (by rwa [Run.config_advance]) hs, hw r i t hexec, Run.config_advance, hpointer,
      weightFrom_of_fetch hi, Nat.add_assoc]

/-- Where no jump leads forward, a run that halts executes each instruction from its position on
at least once.

**Proof sketch.** Induction on the steps. The instruction at the position is executed, and the
rest of the run passes all that is behind it, or all from a position further back on. -/
theorem le_weigh_of_halt (hw : Weighs count weight) (hback : p.BackwardJumps) {n : ℕ} {r s : Run}
    (heven : r.config.pointer % 2 = 0) (hs : p.after n r = some s)
    (hhalt : p.step s.config = .halt) :
    count r + p.weightFrom weight r.config.pointer ≤ count s := by
  induction n generalizing r with
  | zero =>
    cases hs
    rw [weightFrom_of_none (step_eq_halt_iff.mp hhalt), Nat.add_zero]
  | succ n ih =>
    obtain ⟨t, ht, hs⟩ := exists_next_of_after_succ hs
    obtain ⟨i, hi, hexec⟩ := step_eq_next_iff.mp ht
    have hteven := even_pointer_of_step heven ht
    have hrest := ih (by rwa [Run.config_advance]) hs
    rw [hw r i t hexec, Run.config_advance] at hrest
    rcases Config.pointer_of_execute hexec with hpass | ⟨hjump, -, -, rfl⟩
    · rw [hpass] at hrest
      rw [weightFrom_of_fetch hi]
      omega
    · obtain ⟨op, x⟩ := i
      obtain rfl : op = .jnz := hjump
      have hle : p.weightFrom weight r.config.pointer ≤ p.weightFrom weight x.toNat :=
        weightFrom_le_of_le hteven heven (hback _ x heven hi)
      simp only at hrest
      omega

/-! ## Two runs -/

/-- The greater register A stays the greater if both are shifted by the same fixed number of
bits. -/
lemma a_le_of_execute {c d : Config} {i : Instruction} {t u : Transition}
    (hlit : i.opcode = .adv → i.operand < 4) (ha : c.registers.a ≤ d.registers.a)
    (ht : c.execute i = .ok t) (hu : d.execute i = .ok u) :
    t.config.registers.a ≤ u.config.registers.a := by
  rw [UInt64.le_iff_toNat_le, Config.toNat_a_of_literal hlit ht, Config.toNat_a_of_literal hlit hu]
  exact Nat.div_le_div_right (UInt64.le_iff_toNat_le.mp ha)

/-- A run from a greater register A weighs no less.

**Proof sketch.** Induction on the steps of the run from the lesser A. If that is zero, this run
executes each instruction that is left once (`weigh_of_a_eq_zero`), and the other run at least
once (`le_weigh_of_halt`). Otherwise A is not zero in the other run either, so both make the same
step. -/
theorem weigh_le_of_halt (hw : Weighs count weight) (hshift : p.LiteralShifts)
    (hback : p.BackwardJumps) {m n : ℕ} {r s u v : Run} (heven : r.config.pointer % 2 = 0)
    (hpointer : r.config.pointer = u.config.pointer)
    (ha : r.config.registers.a ≤ u.config.registers.a) (hcount : count r ≤ count u)
    (hs : p.after m r = some s) (hshalt : p.step s.config = .halt)
    (hv : p.after n u = some v) (hvhalt : p.step v.config = .halt) : count s ≤ count v := by
  induction m generalizing n r u with
  | zero =>
    cases hs
    have huhalt : p.step u.config = .halt := by
      rw [step_eq_halt_iff, ← hpointer]
      exact step_eq_halt_iff.mp hshalt
    obtain ⟨-, rfl⟩ := halt_unique (after_zero u) huhalt hv hvhalt
    exact hcount
  | succ m ih =>
    by_cases hzero : r.config.registers.a = 0
    · rw [weigh_of_a_eq_zero hw hzero hs hshalt, hpointer]
      exact Nat.le_trans (Nat.add_le_add_right hcount _)
        (le_weigh_of_halt hw hback (hpointer ▸ heven) hv hvhalt)
    · have hne : u.config.registers.a ≠ 0 := by
        intro huzero
        rw [huzero, UInt64.le_iff_toNat_le] at ha
        exact hzero (UInt64.toNat_inj.mp (Nat.le_zero.mp ha))
      obtain ⟨t, ht, hs⟩ := exists_next_of_after_succ hs
      obtain ⟨i, hi, hexec⟩ := step_eq_next_iff.mp ht
      have hui : p.fetch u.config.pointer = some i := hpointer ▸ hi
      -- the other run has not halted yet
      cases n with
      | zero =>
        cases hv
        rw [step_eq_halt_iff, hui] at hvhalt
        cases hvhalt
      | succ n =>
        obtain ⟨t', ht', hv⟩ := exists_next_of_after_succ hv
        obtain ⟨i', hi', hexec'⟩ := step_eq_next_iff.mp ht'
        obtain rfl : i = i' := Option.some.inj (hui.symm.trans hi')
        have hsame := (Config.execute_congr hpointer
          (fun _ => iff_of_false hzero hne) hexec hexec').1
        refine ih ?_ ?_ ?_ ?_ hs hv
        · rw [Run.config_advance]
          exact even_pointer_of_step heven ht
        · rw [Run.config_advance, Run.config_advance, hsame]
        · rw [Run.config_advance, Run.config_advance]
          refine a_le_of_execute (fun hadv => ?_) ha hexec hexec'
          obtain ⟨op, x⟩ := i
          obtain rfl : op = .adv := hadv
          exact UInt8.lt_iff_toNat_lt.mpr (Nat.lt_succ_of_le (hshift _ x heven hi))
        · rw [hw r i t hexec, hw u i t' hexec']
          exact Nat.add_le_add_right hcount _

/-- **A greater register A makes no fewer outputs.** Let a program shift register A by fixed
numbers of bits only and never jump forward. Take two runs of it from any contents of B and C, the
second from a register A that is no less. If both halt, then the first emits at most as many values
as the second and makes at most as many steps. -/
theorem size_output_mono (hshift : p.LiteralShifts) (hback : p.BackwardJumps) {rs rs' : Registers}
    (ha : rs.a ≤ rs'.a) {limit limit' : ℕ} (h : (p.run limit (.start rs)).1 = .ok ())
    (h' : (p.run limit' (.start rs')).1 = .ok ()) :
    (p.run limit (.start rs)).2.output.size ≤ (p.run limit' (.start rs')).2.output.size ∧
      (p.run limit (.start rs)).2.steps ≤ (p.run limit' (.start rs')).2.steps := by
  obtain ⟨m, hs, hshalt⟩ := exists_halt_of_run_eq_ok h
  obtain ⟨n, hv, hvhalt⟩ := exists_halt_of_run_eq_ok h'
  have hmono : ∀ {count weight}, Weighs count weight →
      count (.start rs) ≤ count (.start rs') →
      count (p.run limit (.start rs)).2 ≤ count (p.run limit' (.start rs')).2 :=
    fun hw hcount => weigh_le_of_halt hw hshift hback (r := .start rs) (u := .start rs')
      rfl rfl ha hcount hs hshalt hv hvhalt
  exact ⟨hmono Run.weighs_outputs (Nat.le_refl 0), hmono Run.weighs_steps (Nat.le_refl 0)⟩

/-- What has only fixed shifts and even jumps back shifts by fixed numbers and never jumps
forward. -/
lemma LiteralBackward.shifts_and_jumps (h : p.LiteralBackward) :
    p.LiteralShifts ∧ p.BackwardJumps :=
  ⟨fun _ _ heven hi => h.literal heven hi, fun _ _ heven hi => (h.backward heven hi).2⟩

/-- A program that mixes C into B, emits B for each bit of register A, and then C. -/
def bitwiseTape : Program := ⟨#[4, 1, 5, 5, 0, 1, 3, 2, 5, 6], rfl, by simp⟩

/-- The bitwise tape makes four outputs from five, whatever is in B and C, and no fewer from
nine. -/
theorem size_output_bitwiseTape :
    let run := bitwiseTape.run 50 (.start ⟨5, 3, 6⟩)
    let run' := bitwiseTape.run 60 (.start ⟨9, 1, 0⟩)
    bitwiseTape.LiteralShifts ∧ bitwiseTape.BackwardJumps ∧ (5 : Word) ≤ 9 ∧ run.1 = .ok () ∧
      run'.1 = .ok () ∧ 4 ≤ run'.2.output.size ∧ 11 ≤ run'.2.steps := by
  intro run run'
  have hback : bitwiseTape.LiteralBackward := by decide
  obtain ⟨hshift, hjump⟩ := hback.shifts_and_jumps
  have hle : (⟨5, 3, 6⟩ : Registers).a ≤ (⟨9, 1, 0⟩ : Registers).a := by decide
  have h : run.1 = .ok () := by decide
  have h' : run'.1 = .ok () := by decide
  have hsize : run.2.output.size = 4 ∧ run.2.steps = 11 := by decide
  obtain ⟨houtput, hsteps⟩ := size_output_mono hshift hjump hle h h'
  exact ⟨hshift, hjump, hle, h, h', hsize.1 ▸ houtput, hsize.2 ▸ hsteps⟩

end Program

end OctalTape

import OctalTape.Proofs.Machine.Itinerary

set_option relaxedAutoImplicit false
set_option autoImplicit false

/-!
# The width of the registers

The greatest of the numbers that the registers begin with does not bound them later, for an
exclusive or can be greater than both its operands. But it has no bit where neither of them has
one; a shift only loses bits; and what comes from the tape, or is cut down to an octal digit, has
three of them. So registers that begin within `w` bits stay within `w` bits, for each `w` from
three on. Register A is changed by shifts alone, so it never grows; and once it is zero, every jump
is passed by and the machine goes straight to the end of the tape.

## Main definitions

* `OctalTape.Registers.FitIn` — the contents of all registers have no more than so many bits.

## Main results

* `OctalTape.Config.fitIn_of_execute` — an instruction whose operand has three bits keeps the
  registers within their width.
* `OctalTape.Program.fitIn_after` — so does a program, over any number of steps.
* `OctalTape.Program.a_le_of_after` — register A never grows.
* `OctalTape.Program.straight_of_a_eq_zero` — once it is zero, no jump is taken.
* `OctalTape.Program.registers_never_outgrow` — the registers of a program in all its states.
* `OctalTape.Machine.registers_performAll` — the same for a machine and its requests.
-/

namespace OctalTape

/-! ## Contents of a given width -/

/-- The contents of all registers have `w` bits at most. -/
def Registers.FitIn (w : ℕ) (rs : Registers) : Prop := ∀ r, (rs.get r).toNat < 2 ^ w

instance (w : ℕ) (rs : Registers) : Decidable (rs.FitIn w) :=
  decidable_of_iff (∀ r ∈ Register.all, (rs.get r).toNat < 2 ^ w)
    ⟨fun h r => h r r.mem_all, fun h r _ => h r⟩

/-- A word that fits can be put into any register. -/
lemma Registers.FitIn.set {w : ℕ} {rs : Registers} (h : rs.FitIn w) {v : Word}
    (hv : v.toNat < 2 ^ w) (r : Register) : (rs.set r v).FitIn w := by
  intro s
  rw [get_set]
  split
  · exact hv
  · exact h s

/-- An exclusive or has no more bits than its operands. -/
lemma Word.toNat_xor_lt {w : ℕ} {u v : Word} (hu : u.toNat < 2 ^ w) (hv : v.toNat < 2 ^ w) :
    (u ^^^ v).toNat < 2 ^ w := by
  rw [UInt64.toNat_xor]
  exact Nat.xor_lt_two_pow hu hv

/-- An instruction whose operand has three bits keeps the registers within their width.

**Proof sketch.** By the opcode: a shift makes register A no greater, an exclusive or stays within
the bits of its operands, and a digit has three bits. -/
theorem Config.fitIn_of_execute {w : ℕ} (hw : 3 ≤ w) {c : Config} {i : Instruction}
    {t : Transition} (hx : i.operand.toNat ≤ 7) (h : c.registers.FitIn w)
    (ht : c.execute i = .ok t) : t.config.registers.FitIn w := by
  have height : 8 ≤ 2 ^ w := Nat.pow_le_pow_right Nat.two_pos hw
  cases execute_eq_ok_iff.mp ht with
  | adv | bdv | cdv =>
    -- a register may hold any amount to shift by, and it is register A that is shifted
    exact h.set ((Word.toNat_divPow2_le _ _).trans_lt (h .a)) _
  | @bxl x =>
    refine h.set (Word.toNat_xor_lt (h .b) ?_) .b
    rw [UInt8.toNat_toUInt64]
    exact (Nat.lt_succ_of_le hx).trans_le height
  | @bst x v =>
    refine h.set ?_ .b
    rw [Word.toNat_lowDigit]
    exact (Nat.mod_lt _ (by decide)).trans_le height
  | bxc => exact h.set (Word.toNat_xor_lt (h .b) (h .c)) .b
  | pass | jump | out => exact h

/-! ## Runs -/

namespace Program

variable {p : Program} {r s : Run}

/-- A program keeps the registers within their width, over any number of steps. -/
theorem fitIn_after {w n : ℕ} (hw : 3 ≤ w) (h : r.config.registers.FitIn w)
    (hs : p.after n r = some s) : s.config.registers.FitIn w := by
  refine after_invariant (P := fun r => r.config.registers.FitIn w) (fun r t hr ht => ?_) h hs
  obtain ⟨i, hi, hexec⟩ := step_eq_next_iff.mp ht
  rw [Run.config_advance]
  exact Config.fitIn_of_execute hw (operand_le_of_fetch hi) hr hexec

/-- A step does not make register A grow. -/
lemma a_le_of_step {c : Config} {t : Transition} (h : p.step c = .next t) :
    t.config.registers.a ≤ c.registers.a := by
  obtain ⟨i, -, hexec⟩ := step_eq_next_iff.mp h
  exact UInt64.le_iff_toNat_le.mpr (Config.toNat_a_le_of_execute hexec)

/-- Register A never grows, over any number of steps. -/
theorem a_le_of_after {n : ℕ} (hs : p.after n r = some s) :
    s.config.registers.a ≤ r.config.registers.a := by
  refine after_invariant (P := fun s => s.config.registers.a ≤ r.config.registers.a)
    (fun s t hle ht => ?_) (UInt64.le_refl _) hs
  rw [Run.config_advance]
  exact UInt64.le_trans (a_le_of_step ht) hle

/-- Once register A is zero it stays zero, and each step leads to the next instruction.

**Proof sketch.** Induction on the steps, with `Config.execute_of_a_eq_zero` for the last of
them. -/
theorem straight_of_a_eq_zero {k : ℕ} (ha : r.config.registers.a = 0)
    (hs : p.after k r = some s) :
    s.config.registers.a = 0 ∧ s.config.pointer = r.config.pointer + 2 * k := by
  induction k generalizing s with
  | zero => cases hs; exact ⟨ha, rfl⟩
  | succ k ih =>
    obtain ⟨u, t, hu, ht, rfl⟩ := exists_last_of_after_succ hs
    obtain ⟨hzero, hpointer⟩ := ih hu
    obtain ⟨i, -, hexec⟩ := step_eq_next_iff.mp ht
    obtain ⟨hzero', hpointer'⟩ := Config.execute_of_a_eq_zero hzero hexec
    rw [Run.config_advance]
    exact ⟨hzero', by omega⟩

/-- **Registers never outgrow their width.** Let the registers begin within `w` bits, at least
three. In every state that a program then comes to by any number of steps, all of them are within
`w` bits, and a step from there leaves register A no greater. If register A is zero there, it is
zero in all the states that follow, each step leads to the next instruction on the tape, and
wherever a jump stands it is passed by. -/
theorem registers_never_outgrow (p : Program) {w : ℕ} (hw : 3 ≤ w) {rs : Registers}
    (hrs : rs.FitIn w) {n : ℕ} {s : Run} (hs : p.after n (.start rs) = some s) :
    s.config.registers.FitIn w ∧
    (∀ t, p.step s.config = .next t → t.config.registers.a ≤ s.config.registers.a) ∧
    (s.config.registers.a = 0 → ∀ k u, p.after k s = some u →
      u.config.registers.a = 0 ∧ u.config.pointer = s.config.pointer + 2 * k ∧
        ∀ x, p.fetch u.config.pointer = some ⟨.jnz, x⟩ →
          p.step u.config = .next u.config.pass) := by
  refine ⟨fitIn_after (r := .start rs) hw hrs hs, fun t => a_le_of_step, fun ha k u hu => ?_⟩
  obtain ⟨hzero, hpointer⟩ := straight_of_a_eq_zero ha hu
  exact ⟨hzero, hpointer, fun x hi => step_of_jnz_of_a_eq_zero hi rfl hzero⟩

/-- A program that mixes C and an operand into B, and goes on as long as register A has bits. -/
def mixingTape : Program := ⟨#[4, 1, 1, 7, 0, 1, 3, 0, 5, 5], rfl, by simp⟩

/-- The mixing tape makes B greater than all that the registers began with, but not wider than
their four bits. Then A is zero and the jump is passed by. -/
theorem registers_never_outgrow_mixingTape :
    let rs : Registers := ⟨1, 5, 8⟩
    let s : Run := ⟨⟨⟨0, 10, 8⟩, 6⟩, #[], 3⟩
    3 ≤ 4 ∧ rs.FitIn 4 ∧ mixingTape.after 3 (.start rs) = some s ∧
      s.config.registers.FitIn 4 ∧ mixingTape.step s.config = .next s.config.pass ∧
      ∀ k u, mixingTape.after k s = some u → u.config.pointer = 6 + 2 * k := by
  intro rs s
  have hw : 3 ≤ 4 := by decide
  have hrs : rs.FitIn 4 := by decide
  have hs : mixingTape.after 3 (.start rs) = some s := by decide
  obtain ⟨hfit, -, hzero⟩ := registers_never_outgrow mixingTape hw hrs hs
  obtain ⟨-, -, hpass⟩ := hzero rfl 0 s rfl
  exact ⟨hw, hrs, hs, hfit, hpass 0 (by decide), fun k u hu => (hzero rfl k u hu).2.1⟩

/-- Two bits would be too few, for an operand on the tape has three. -/
example : (⟨0, 0, 0⟩ : Registers).FitIn 2 ∧
    after ⟨#[1, 7], rfl, by simp⟩ 1 (.start ⟨0, 0, 0⟩) = some ⟨⟨⟨0, 7, 0⟩, 2⟩, #[], 1⟩ ∧
    ¬ (⟨0, 7, 0⟩ : Registers).FitIn 2 := by
  decide

end Program

/-! ## Machines -/

/-- The registers that the user of a machine reads are within the width that they began with, and
what is read from register A is never greater than what was read from it before. -/
theorem Machine.registers_performAll (p : Program) {w : ℕ} (hw : 3 ≤ w) {rs : Registers}
    (hrs : rs.FitIn w) (before after : List Request) :
    let m := (start p rs).performAll before
    m.state.config.registers.FitIn w ∧
      (m.performAll after).state.config.registers.a ≤ m.state.config.registers.a := by
  intro m
  obtain ⟨j, hbefore⟩ := exists_after_performAll (start p rs) before
  obtain ⟨k, hafter⟩ := exists_after_performAll m after
  exact ⟨Program.fitIn_after (r := .start rs) hw hrs hbefore, Program.a_le_of_after hafter⟩

end OctalTape

import OctalTape.Proofs.Machine.Invariant

set_option relaxedAutoImplicit false
set_option autoImplicit false

/-!
# Steps and jumps

Every step leads to the next instruction on the tape, unless it is a jump. So there are no more
steps up to the first jump that is taken than there are instructions, and no more from one jump to
the next; a jump that leaves the tape is the last step of all. A run that takes few jumps is short,
in whatever way it ends, and one that takes none is over after one step for each instruction.

## Main definitions

* `OctalTape.Config.takesJump` — an instruction is a jump that is taken.
* `OctalTape.Program.jumpsFor` — how many jumps a run takes in its next steps.
* `OctalTape.Program.JumpFree` — no opcode of a program is a jump.

## Main results

* `OctalTape.Program.min_pointer_le_of_step` — a step goes on by one instruction, or it is a jump.
* `OctalTape.Program.two_mul_add_min_pointer_le` — the steps of a course, against its jumps.
* `OctalTape.Program.jumpsFor_eq_zero` — programs without jumps, and runs in which register A is
  zero, take none.
* `OctalTape.Program.steps_bounded_by_jumps` — all together, for a run under any limit.
* `OctalTape.Machine.two_mul_steps_performAll_le` — the steps of a machine, whatever it is asked.

## Implementation notes

Positions behind the tape count as its end, `min pointer p.size`. A jump may lead further, but no
step is made from there.
-/

namespace OctalTape

/-! ## Jumps that are taken -/

/-- Whether an instruction is a jump that is taken: its target is even, and register A is not
zero. -/
def Config.takesJump (c : Config) (i : Instruction) : Bool :=
  i.opcode = .jnz && c.registers.a ≠ 0 && i.operand.toNat % 2 = 0

namespace Program

variable {p : Program} {r s : Run}

/-- Whether the next step of a program is a jump that is taken. -/
def jumpsAt (p : Program) (c : Config) : Bool := (p.fetch c.pointer).any c.takesJump

/-- The number of jumps that a run takes in its next `n` steps, or up to where it stops. -/
def jumpsFor (p : Program) : ℕ → Run → ℕ
  | 0, _ => 0
  | n + 1, r =>
    match p.step r.config with
    | .next t => (if p.jumpsAt r.config then 1 else 0) + p.jumpsFor n (r.advance t)
    | _ => 0

/-- The first of some steps is split off. -/
lemma jumpsFor_succ_of_next {n : ℕ} {t : Transition} (h : p.step r.config = .next t) :
    p.jumpsFor (n + 1) r = (if p.jumpsAt r.config then 1 else 0) + p.jumpsFor n (r.advance t) := by
  simp [jumpsFor, h]

/-- Where a run stops, it takes no jump. -/
lemma jumpsFor_of_stops {left : ℕ} {stop : Stop} (h : p.Stops left r.config stop) :
    p.jumpsFor left r = 0 := by
  cases h with
  | halted h => cases left <;> simp [jumpsFor, h]
  | faulted _ h => cases left <;> simp [jumpsFor, h]
  | exhausted hleft => simp [hleft, jumpsFor]

/-- The jumps of a course that goes on are those of its two parts. -/
lemma jumpsFor_add {m n : ℕ} (hs : p.after m r = some s) :
    p.jumpsFor (m + n) r = p.jumpsFor m r + p.jumpsFor n s := by
  induction m generalizing r with
  | zero =>
    cases hs
    simp [jumpsFor]
  | succ m ih =>
    obtain ⟨t, ht, hs⟩ := exists_next_of_after_succ hs
    rw [Nat.add_right_comm, jumpsFor_succ_of_next ht, jumpsFor_succ_of_next ht, ih hs,
      Nat.add_assoc]

/-! ## Steps against jumps -/

/-- A step goes on by one instruction on the tape, or it is a jump and may go back by the whole
tape. -/
lemma min_pointer_le_of_step {c : Config} {t : Transition} (h : p.step c = .next t) :
    2 + min c.pointer p.size ≤
      min t.config.pointer p.size + if p.jumpsAt c then p.size else 0 := by
  obtain ⟨i, hi, hexec⟩ := step_eq_next_iff.mp h
  have hsize := add_two_le_size_of_fetch hi
  rcases Config.pointer_of_execute hexec with hpass | ⟨hop, ha, heven, rfl⟩
  · omega
  · have hjump : p.jumpsAt c = true := by simp [jumpsAt, hi, Config.takesJump, hop, ha, heven]
    rw [hjump, if_pos rfl]
    omega

/-- **The steps of a course against its jumps.** Twice the number of steps is the way that they have
made on the tape, apart from the jumps, each of which takes back the whole tape at most.

**Proof sketch.** Induction on the steps, with `min_pointer_le_of_step` for the first of them. -/
theorem two_mul_add_min_pointer_le {n : ℕ} (hs : p.after n r = some s) :
    2 * n + min r.config.pointer p.size ≤
      min s.config.pointer p.size + p.jumpsFor n r * p.size := by
  induction n generalizing r with
  | zero =>
    cases hs
    omega
  | succ n ih =>
    obtain ⟨t, ht, hs⟩ := exists_next_of_after_succ hs
    have hfirst := min_pointer_le_of_step ht
    have hrest := ih hs
    rw [Run.config_advance] at hrest
    rw [jumpsFor_succ_of_next ht, Nat.add_mul, ite_mul, Nat.one_mul, Nat.zero_mul]
    omega

/-- Wherever a run stops, it has made no more steps than there are instructions, once for each jump
that it has taken and once more. -/
lemma two_mul_le_jumpsFor {n : ℕ} (hs : p.after n r = some s) :
    2 * n ≤ (p.jumpsFor n r + 1) * p.size := by
  have hway := two_mul_add_min_pointer_le hs
  rw [Nat.add_mul, Nat.one_mul]
  omega

/-- Where another instruction is fetched, there is room for one more step. -/
lemma two_mul_lt_jumpsFor {n : ℕ} (hs : p.after n r = some s)
    (hon : p.fetch s.config.pointer ≠ none) : 2 * n < (p.jumpsFor n r + 1) * p.size := by
  obtain ⟨i, hi⟩ := Option.ne_none_iff_exists'.mp hon
  have hsize := add_two_le_size_of_fetch hi
  have hway := two_mul_add_min_pointer_le hs
  rw [Nat.add_mul, Nat.one_mul]
  omega

/-! ## Runs that take no jumps -/

/-- No opcode of a program is a jump. A three may still stand in the place of an operand. -/
def JumpFree (p : Program) : Prop := ∀ k < p.size / 2, ∀ i ∈ p.fetch (2 * k), i.opcode ≠ .jnz

instance (p : Program) : Decidable p.JumpFree :=
  inferInstanceAs (Decidable (∀ k < p.size / 2, ∀ i ∈ p.fetch (2 * k), i.opcode ≠ .jnz))

/-- A step from an even position of a program without jumps is none. -/
lemma JumpFree.jumpsAt_eq_false (h : p.JumpFree) {c : Config} (heven : c.pointer % 2 = 0) :
    p.jumpsAt c = false := by
  unfold jumpsAt
  cases hi : p.fetch c.pointer with
  | none => rfl
  | some i =>
    have hsize := add_two_le_size_of_fetch hi
    have hop : i.opcode ≠ .jnz :=
      h (c.pointer / 2) (by omega) i (by rw [Nat.mul_div_cancel' (by omega), hi]; rfl)
    simp [Config.takesJump, hop]

/-- A step made while register A is zero is no jump that is taken. -/
lemma jumpsAt_of_a_eq_zero {c : Config} (ha : c.registers.a = 0) : p.jumpsAt c = false := by
  unfold jumpsAt
  cases p.fetch c.pointer <;> simp [Config.takesJump, ha]

/-- A run takes no jumps if none of its steps is one. -/
lemma jumpsFor_eq_zero_of {P : Run → Prop}
    (hstep : ∀ r t, P r → p.step r.config = .next t → P (r.advance t))
    (hno : ∀ r, P r → p.jumpsAt r.config = false) (n : ℕ) (hr : P r) : p.jumpsFor n r = 0 := by
  induction n generalizing r with
  | zero => rfl
  | succ n ih =>
    unfold jumpsFor
    split
    · next t ht => rw [hno r hr, ih (hstep r t hr ht)]; rfl
    · rfl

/-- A program without jumps takes none, and from a register A that is zero none is taken. -/
theorem jumpsFor_eq_zero (n : ℕ) (heven : r.config.pointer % 2 = 0)
    (h : p.JumpFree ∨ r.config.registers.a = 0) : p.jumpsFor n r = 0 := by
  rcases h with hfree | ha
  · refine jumpsFor_eq_zero_of (P := fun r => r.config.pointer % 2 = 0) (fun r t hr ht => ?_)
      (fun r hr => hfree.jumpsAt_eq_false hr) n heven
    rw [Run.config_advance]
    exact even_pointer_of_step hr ht
  · refine jumpsFor_eq_zero_of (P := fun r => r.config.registers.a = 0) (fun r t hr ht => ?_)
      (fun r hr => jumpsAt_of_a_eq_zero hr) n ha
    obtain ⟨i, -, hexec⟩ := step_eq_next_iff.mp ht
    rw [Run.config_advance]
    exact (Config.execute_of_a_eq_zero hr hexec).1

/-! ## Runs -/

/-- A run from its start makes so many steps, and stops with so many jumps taken; if its limit has
stopped it, then there was room for one more step.

**Proof sketch.** The jumps that it takes under the limit are those of the steps that it makes, for
it takes none where it stops. -/
lemma two_mul_steps_run_le (p : Program) (rs : Registers) (limit : ℕ) :
    2 * (p.run limit (.start rs)).2.steps ≤ (p.jumpsFor limit (.start rs) + 1) * p.size ∧
      ((p.run limit (.start rs)).1 = .error (.stepLimitExceeded limit) →
        2 * limit < (p.jumpsFor limit (.start rs) + 1) * p.size) := by
  obtain ⟨k, s, stop, hk, hs, hstop, hrun⟩ := exists_stops_of_run p limit (.start rs)
  have hsteps : s.steps = k := by simpa [Run.start] using steps_after hs
  have hjumps : p.jumpsFor limit (.start rs) = p.jumpsFor k (.start rs) := by
    obtain ⟨left, rfl⟩ : ∃ left, limit = k + left := ⟨limit - k, by simp [Run.start] at hk; omega⟩
    rw [hsteps, Nat.add_sub_cancel_left] at hstop
    rw [jumpsFor_add hs, jumpsFor_of_stops hstop, Nat.add_zero]
  rw [hrun, hjumps, hsteps]
  refine ⟨two_mul_le_jumpsFor hs, fun hexceeded => ?_⟩
  cases hstop with
  | halted => cases hexceeded
  | faulted _ hfault =>
    obtain ⟨i, -, hexec⟩ := step_eq_fault_iff.mp hfault
    cases hexceeded
    rcases Config.execute_eq_error_iff.mp hexec with ⟨-, -, he⟩ | ⟨-, -, -, he⟩ <;> cases he
  | exhausted hleft hon =>
    obtain rfl : limit = k := by simp [Run.start] at hk; omega
    exact two_mul_lt_jumpsFor hs fun hnone => hon (step_eq_halt_iff.mpr hnone)

/-- **Steps are bounded by jumps.** Let a run from any contents of the registers take some jumps
under a limit. In whatever way it ends, it has made no more steps than there are instructions on the
tape, once for each of these jumps and once more; and if it has exceeded its limit, then the limit
was less. A program without jumps takes none, and neither does a run that starts with zero in
register A. So it makes no more steps than there are instructions, and never exceeds a limit that
allows these.

**Proof sketch.** The bound is `two_mul_steps_run_le`, halved, since the tape has an even length.
Without jumps, or with zero in register A, no jump is taken (`jumpsFor_eq_zero`). -/
theorem steps_bounded_by_jumps (p : Program) (rs : Registers) (limit : ℕ) :
    let jumps := p.jumpsFor limit (.start rs)
    let run := p.run limit (.start rs)
    run.2.steps ≤ (jumps + 1) * p.size / 2 ∧
    (run.1 = .error (.stepLimitExceeded limit) → limit < (jumps + 1) * p.size / 2) ∧
    (p.JumpFree ∨ rs.a = 0 → jumps = 0 ∧ run.2.steps ≤ p.size / 2 ∧
      (p.size / 2 ≤ limit → run.1 ≠ .error (.stepLimitExceeded limit))) := by
  intro jumps run
  have hsteps : 2 * run.2.steps ≤ (jumps + 1) * p.size := (two_mul_steps_run_le p rs limit).1
  have hexceeded : run.1 = .error (.stepLimitExceeded limit) → 2 * limit < (jumps + 1) * p.size :=
    (two_mul_steps_run_le p rs limit).2
  have heven : p.size % 2 = 0 := p.even_size
  have heven' : (jumps + 1) * p.size % 2 = 0 := by simp [Nat.mul_mod, heven]
  refine ⟨by omega, fun he => ?_, fun hno => ?_⟩
  · have hlt := hexceeded he
    omega
  · have hzero : jumps = 0 := jumpsFor_eq_zero limit rfl hno
    rw [hzero, Nat.zero_add, Nat.one_mul] at hsteps hexceeded
    refine ⟨hzero, by omega, fun hle he => ?_⟩
    have hlt := hexceeded he
    omega

/-- Threes that are operands are no jumps: a limit of one step for each instruction is enough. A
limit of one step less is exceeded. -/
theorem steps_bounded_by_jumps_threesTape :
    let p : Program := ⟨#[1, 3, 5, 3], rfl, by simp⟩
    let rs : Registers := ⟨8, 2, 6⟩
    p.JumpFree ∧ p.jumpsFor 2 (.start rs) = 0 ∧ (p.run 2 (.start rs)).2.steps ≤ p.size / 2 ∧
      (p.run 2 (.start rs)).1 ≠ .error (.stepLimitExceeded 2) ∧
      (p.run 1 (.start rs)).1 = .error (.stepLimitExceeded 1) ∧
      1 < (p.jumpsFor 1 (.start rs) + 1) * p.size / 2 := by
  intro p rs
  have hfree : p.JumpFree := by decide
  have hexceeded : (p.run 1 (.start rs)).1 = .error (.stepLimitExceeded 1) := rfl
  obtain ⟨-, -, hno⟩ := steps_bounded_by_jumps p rs 2
  obtain ⟨hjumps, hsteps, hne⟩ := hno (.inl hfree)
  obtain ⟨-, hlimit, -⟩ := steps_bounded_by_jumps p rs 1
  exact ⟨hfree, hjumps, hsteps, hne (by decide), hexceeded, hlimit hexceeded⟩

/-- The bound is met: two passes of the same loop, with one jump between them. -/
example :
    let p : Program := ⟨#[0, 3, 3, 0], rfl, by simp⟩
    (p.run 9 (.start ⟨8, 0, 0⟩)).2.steps = 4 ∧ p.jumpsFor 9 (.start ⟨8, 0, 0⟩) = 1 := by
  decide

end Program

/-! ## Machines -/

/-- The steps of a machine that has been started and has performed any requests are bounded by the
jumps that it has taken in all of them. -/
theorem Machine.two_mul_steps_performAll_le (p : Program) (rs : Registers)
    (requests : List Request) :
    let steps := ((start p rs).performAll requests).state.steps
    2 * steps ≤ (p.jumpsFor steps (.start rs) + 1) * p.size := by
  intro steps
  obtain ⟨k, hs⟩ := exists_after_performAll (start p rs) requests
  have hk : steps = k := by
    show ((start p rs).performAll requests).state.steps = k
    rw [Program.steps_after hs]
    exact Nat.zero_add k
  rw [hk]
  exact Program.two_mul_le_jumpsFor (p := p) (r := .start rs) hs

end OctalTape

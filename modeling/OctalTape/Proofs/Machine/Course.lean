import OctalTape.Machine.Session
import OctalTape.Proofs.Machine.Effects

set_option relaxedAutoImplicit false
set_option autoImplicit false

/-!
# The course of a run

A run is cut into its steps. `p.after n r` is the run `r` after `n` further steps of the program
`p`, if it can make them; where a call of `runFor` stops, and why, is read off these.

## Main definitions

* `OctalTape.Program.after` — a run after a number of further steps.
* `OctalTape.Program.Stops` — why a run with some steps left stops where it stands.

## Main results

* `OctalTape.Program.runFor_eq_iff` — a continued run stops at the first configuration with a
  reason to stop.
* `OctalTape.Program.after_add` — courses compose.
* `OctalTape.Program.after_invariant` — what each step preserves holds all along the course.
* `OctalTape.Program.even_pointer_after` — the machine stays on even positions.
* `OctalTape.Program.outputOf_eq_ok_iff` — the output of a seed is that of its run at the halt.
-/

namespace OctalTape

/-! ## Single steps -/

namespace Run

/-- The configuration after a step is that of the transition. -/
@[simp]
theorem config_advance (r : Run) (t : Transition) : (r.advance t).config = t.config := by
  unfold advance
  split <;> rfl

/-- A step adds the value it emits, if any, to the output. -/
@[simp]
theorem toList_output_advance (r : Run) (t : Transition) :
    (r.advance t).output.toList = r.output.toList ++ t.emitted.toList := by
  unfold advance
  split <;> simp_all

/-- A step makes the output longer by the value it emits, if any. -/
@[simp]
theorem size_output_advance (r : Run) (t : Transition) :
    (r.advance t).output.size = r.output.size + t.emitted.toList.length := by
  rw [← Array.length_toList, toList_output_advance, List.length_append, Array.length_toList]

/-- A step counts as one. -/
@[simp]
theorem steps_advance (r : Run) (t : Transition) : (r.advance t).steps = r.steps + 1 := by
  unfold advance
  split <;> rfl

end Run

namespace Program

variable {p : Program}

/-- The machine halts where there is nothing to fetch. -/
lemma step_eq_halt_iff {c : Config} : p.step c = .halt ↔ p.fetch c.pointer = none := by
  unfold step
  cases p.fetch c.pointer with
  | none => simp
  | some i => cases h : c.execute i <;> simp [h]

/-- The machine faults where the instruction fetched cannot be executed. -/
lemma step_eq_fault_iff {c : Config} {e : Error} :
    p.step c = .fault e ↔ ∃ i, p.fetch c.pointer = some i ∧ c.execute i = .error e := by
  unfold step
  cases p.fetch c.pointer with
  | none => simp
  | some i => cases h : c.execute i <;> simp [h]

/-- The machine goes on where the instruction fetched can be executed. -/
lemma step_eq_next_iff {c : Config} {t : Transition} :
    p.step c = .next t ↔ ∃ i, p.fetch c.pointer = some i ∧ c.execute i = .ok t := by
  unfold step
  cases p.fetch c.pointer with
  | none => simp
  | some i => cases h : c.execute i <;> simp [h]

/-- Where register A is zero, a jump is passed by: it neither leads back nor fails. -/
lemma step_of_jnz_of_a_eq_zero {c : Config} {i : Instruction} (hi : p.fetch c.pointer = some i)
    (hjump : i.opcode = .jnz) (ha : c.registers.a = 0) : p.step c = .next c.pass :=
  step_eq_next_iff.mpr ⟨i, hi, by simp [Config.execute, hjump, ha]⟩

/-- Where it is not zero, a jump to an even position is taken. -/
lemma step_of_jnz_of_a_ne_zero {c : Config} {x : UInt8}
    (hi : p.fetch c.pointer = some ⟨.jnz, x⟩) (ha : c.registers.a ≠ 0) (hx : x.toNat % 2 = 0) :
    p.step c = .next ⟨{ c with pointer := x.toNat }, none⟩ :=
  step_eq_next_iff.mpr ⟨_, hi, Config.execute_eq_ok_iff.mpr (.jump ha hx)⟩

/-- An instruction is fetched from the two codes that it consists of.

**Proof sketch.** A code is that of an opcode exactly if it is decoded as this opcode, so both
sides ask the same of the two codes. -/
lemma fetch_eq_some_iff {pointer : ℕ} {i : Instruction} :
    p.fetch pointer = some i ↔
      p.codes[pointer]? = some i.opcode.toCode ∧ p.codes[pointer + 1]? = some i.operand := by
  obtain ⟨op, x⟩ := i
  have hop : ∀ code, code = op.toCode ↔ Opcode.ofCode? code = some op := fun code => by
    rw [Opcode.ofCode?_eq_some_iff, eq_comm]
  unfold fetch
  cases p.codes[pointer]? with
  | none => simp
  | some code =>
    simp only [Option.some.injEq, hop]
    cases p.codes[pointer + 1]? with
    | none => cases Opcode.ofCode? code <;> simp
    | some y => cases hd : Opcode.ofCode? code <;> simp [hd]

/-- Nothing is fetched from behind the tape. -/
lemma lt_size_of_fetch {pointer : ℕ} {i : Instruction} (h : p.fetch pointer = some i) :
    pointer < p.size :=
  (Array.getElem?_eq_some_iff.mp (fetch_eq_some_iff.mp h).1).1

end Program

/-- From an even position a step leads to an even position. -/
lemma Program.even_pointer_of_step {p : Program} {c : Config} {t : Transition}
    (hc : c.pointer % 2 = 0) (h : p.step c = .next t) : t.config.pointer % 2 = 0 := by
  obtain ⟨i, -, hi⟩ := Program.step_eq_next_iff.mp h
  rcases Config.pointer_of_execute hi with hp | ⟨-, -, heven, rfl⟩
  · omega
  · exact heven

/-! ## Several steps -/

namespace Program

variable {p : Program}

/-- The run after exactly `n` further steps, if it neither halts nor faults before. -/
def after (p : Program) : ℕ → Run → Option Run
  | 0, r => some r
  | n + 1, r =>
    match p.step r.config with
    | .next t => p.after n (r.advance t)
    | _ => none

/-- After no steps a run is where it was. -/
@[simp]
theorem after_zero (r : Run) : p.after 0 r = some r := rfl

/-- The first of some steps is split off. -/
lemma after_succ_of_next {n : ℕ} {r : Run} {t : Transition} (h : p.step r.config = .next t) :
    p.after (n + 1) r = p.after n (r.advance t) := by
  simp [after, h]

/-- A run that goes on has a first step. -/
lemma exists_next_of_after_succ {n : ℕ} {r s : Run} (h : p.after (n + 1) r = some s) :
    ∃ t, p.step r.config = .next t ∧ p.after n (r.advance t) = some s := by
  unfold after at h
  split at h
  · next t ht => exact ⟨t, ht, h⟩
  · cases h

/-- Courses compose. -/
theorem after_add (m n : ℕ) (r : Run) :
    p.after (m + n) r = (p.after m r).bind (p.after n) := by
  induction m generalizing r with
  | zero => rw [Nat.zero_add, after_zero, Option.bind_some]
  | succ m ih =>
    rw [Nat.add_right_comm]
    cases h : p.step r.config with
    | next t => rw [after_succ_of_next h, after_succ_of_next h, ih]
    | halt => simp [after, h]
    | fault e => simp [after, h]

/-- A later part of a course follows an earlier one. -/
lemma after_add_of_eq {m n : ℕ} {r s : Run} (h : p.after m r = some s) :
    p.after (m + n) r = p.after n s := by
  rw [after_add, h, Option.bind_some]

/-- A course has a last step. -/
lemma exists_last_of_after_succ {n : ℕ} {r s : Run} (h : p.after (n + 1) r = some s) :
    ∃ u t, p.after n r = some u ∧ p.step u.config = .next t ∧ s = u.advance t := by
  rw [after_add, Option.bind_eq_some_iff] at h
  obtain ⟨u, hu, hlast⟩ := h
  obtain ⟨t, ht, hs⟩ := exists_next_of_after_succ hlast
  exact ⟨u, t, hu, ht, (Option.some.inj hs).symm⟩

/-- What each step preserves holds all along the course. -/
theorem after_invariant {P : Run → Prop}
    (hstep : ∀ r t, P r → p.step r.config = .next t → P (r.advance t)) {n : ℕ} {r s : Run}
    (hr : P r) (h : p.after n r = some s) : P s := by
  induction n generalizing r with
  | zero => cases h; exact hr
  | succ n ih =>
    obtain ⟨t, ht, hs⟩ := exists_next_of_after_succ h
    exact ih (hstep r t hr ht) hs

/-- The count of steps goes up by the number of steps made. -/
lemma steps_after {n : ℕ} {r s : Run} (h : p.after n r = some s) : s.steps = r.steps + n := by
  induction n generalizing r with
  | zero => cases h; rfl
  | succ n ih =>
    obtain ⟨t, -, hs⟩ := exists_next_of_after_succ h
    rw [ih hs, Run.steps_advance]
    omega

/-- The machine stays on even positions. -/
theorem even_pointer_after {n : ℕ} {r s : Run} (hr : r.config.pointer % 2 = 0)
    (h : p.after n r = some s) : s.config.pointer % 2 = 0 :=
  after_invariant (P := fun r => r.config.pointer % 2 = 0)
    (fun r t hr ht => by rw [Run.config_advance]; exact even_pointer_of_step hr ht) hr h

/-! ## Where a run stops -/

/-- Why a run stops in the configuration `c` if `left` more steps are allowed. -/
inductive Stops (p : Program) (left : ℕ) (c : Config) : Stop → Prop where
  /-- Nothing is fetched. -/
  | halted (h : p.step c = .halt) : Stops p left c .halted
  /-- A step is left, but it is a fault. -/
  | faulted {e : Error} (hleft : 0 < left) (h : p.step c = .fault e) : Stops p left c (.faulted e)
  /-- Something is fetched, but no step is left. -/
  | exhausted (hleft : left = 0) (h : p.step c ≠ .halt) : Stops p left c .exhausted

/-- Where there is a reason to stop, a run is continued by nothing.

**Proof sketch.** By the reason: a halt is one with or without a step left, a fault is met with one
left, and at the limit there is none. -/
lemma runFor_of_stops {left : ℕ} {r : Run} {stop : Stop} (h : Stops p left r.config stop) :
    p.runFor left r = (stop, r) := by
  cases h with
  | halted h =>
    cases left with
    | zero => simp [runFor, step_eq_halt_iff.mp h]
    | succ n => simp [runFor, h]
  | faulted hleft h =>
    obtain ⟨n, rfl⟩ : ∃ n, left = n + 1 := ⟨left - 1, by omega⟩
    simp [runFor, h]
  | exhausted hleft h =>
    subst hleft
    obtain ⟨i, hi⟩ := Option.ne_none_iff_exists'.mp fun hnone => h (step_eq_halt_iff.mpr hnone)
    simp [runFor, hi]

/-- A continued run makes its next step, if there is one. -/
lemma runFor_add_of_after {k n : ℕ} {r s : Run} (h : p.after k r = some s) :
    p.runFor (k + n) r = p.runFor n s := by
  induction k generalizing r with
  | zero => cases h; rw [Nat.zero_add]
  | succ k ih =>
    obtain ⟨t, ht, hs⟩ := exists_next_of_after_succ h
    rw [Nat.add_right_comm, runFor, ht]
    exact ih hs

/-- A continued run reaches a configuration with a reason to stop.

**Proof sketch.** Induction on the steps that are left: a step is made, or there is a reason to
stop at once. -/
lemma exists_stops (p : Program) (left : ℕ) (r : Run) :
    ∃ k ≤ left, ∃ s stop, p.after k r = some s ∧ Stops p (left - k) s.config stop := by
  induction left generalizing r with
  | zero =>
    refine ⟨0, Nat.le_refl 0, r, ?_⟩
    by_cases h : p.step r.config = .halt
    · exact ⟨.halted, rfl, .halted h⟩
    · exact ⟨.exhausted, rfl, .exhausted rfl h⟩
  | succ n ih =>
    cases h : p.step r.config with
    | halt => exact ⟨0, by omega, r, .halted, rfl, .halted h⟩
    | fault e => exact ⟨0, by omega, r, .faulted e, rfl, .faulted (by omega) h⟩
    | next t =>
      obtain ⟨k, hk, s, stop, hs, hstop⟩ := ih (r.advance t)
      refine ⟨k + 1, by omega, s, stop, by rw [after_succ_of_next h, hs], ?_⟩
      rwa [Nat.add_sub_add_right]

/-- A continued run stops at the first configuration with a reason to stop.

**Proof sketch.** A course can be taken off the front of a run (`runFor_add_of_after`), and where
there is a reason to stop nothing is left of it. Some such place exists (`exists_stops`), so any
result is that of a course. -/
theorem runFor_eq_iff {left : ℕ} {r s : Run} {stop : Stop} :
    p.runFor left r = (stop, s) ↔
      ∃ k ≤ left, p.after k r = some s ∧ Stops p (left - k) s.config stop := by
  have hrun : ∀ {k s stop}, k ≤ left → p.after k r = some s → Stops p (left - k) s.config stop →
      p.runFor left r = (stop, s) := by
    intro k s stop hk hs hstop
    rw [show left = k + (left - k) by omega, runFor_add_of_after hs, runFor_of_stops hstop]
  constructor
  · intro h
    obtain ⟨k, hk, s', stop', hs', hstop'⟩ := exists_stops p left r
    rw [hrun hk hs' hstop', Prod.mk.injEq] at h
    obtain ⟨rfl, rfl⟩ := h
    exact ⟨k, hk, hs', hstop'⟩
  · rintro ⟨k, hk, hs, hstop⟩
    exact hrun hk hs hstop

/-- The result of a run from its start is the report of where its course stops.

**Proof sketch.** By `runFor_eq_iff`: a run reports the reason to stop, and from the start all the
steps of the limit are left. -/
theorem run_start_eq_iff {limit : ℕ} {rs : Registers} {result : Except Error Unit} {s : Run} :
    p.run limit (.start rs) = (result, s) ↔
      ∃ k ≤ limit, ∃ stop, p.after k (.start rs) = some s ∧ Stops p (limit - k) s.config stop ∧
        stop.report limit = result := by
  have hrun : p.run limit (.start rs) =
      ((p.runFor limit (.start rs)).1.report limit, (p.runFor limit (.start rs)).2) := rfl
  rw [hrun, Prod.mk.injEq]
  constructor
  · rintro ⟨hresult, hs⟩
    obtain ⟨k, hk, hafter, hstop⟩ := runFor_eq_iff.mp
      (show p.runFor limit (.start rs) = ((p.runFor limit (.start rs)).1, s) by rw [← hs])
    exact ⟨k, hk, _, hafter, hstop, hresult⟩
  · rintro ⟨k, hk, stop, hafter, hstop, hresult⟩
    rw [runFor_eq_iff.mpr ⟨k, hk, hafter, hstop⟩]
    exact ⟨hresult, rfl⟩

/-! ## Runs that halt -/

/-- Behind a halt a run goes no further. -/
lemma le_of_after_of_halt {k n : ℕ} {r s u : Run} (hs : p.after k r = some s)
    (hhalt : p.step s.config = .halt) (hu : p.after n r = some u) : n ≤ k := by
  refine Nat.le_of_not_lt fun hlt => ?_
  obtain ⟨m, rfl⟩ : ∃ m, n = k + (m + 1) := ⟨n - k - 1, by omega⟩
  rw [after_add_of_eq hs] at hu
  obtain ⟨t, ht, -⟩ := exists_next_of_after_succ hu
  rw [hhalt] at ht
  cases ht

/-- A run comes to a halt once at most. -/
lemma halt_unique {k n : ℕ} {r s u : Run} (hs : p.after k r = some s)
    (hshalt : p.step s.config = .halt) (hu : p.after n r = some u)
    (huhalt : p.step u.config = .halt) : k = n ∧ s = u := by
  have hk : k = n := Nat.le_antisymm (le_of_after_of_halt hu huhalt hs)
    (le_of_after_of_halt hs hshalt hu)
  subst hk
  rw [hs, Option.some.injEq] at hu
  exact ⟨rfl, hu⟩

/-- The output of a seed is what its run has emitted, unless the run fails. -/
lemma outputOf_eq_map (p : Program) (limit : ℕ) (seed : Word) :
    p.outputOf limit seed = (p.run limit (.start (.ofSeed seed))).1.map
      fun _ => (p.run limit (.start (.ofSeed seed))).2.output.toList := rfl

/-- A seed has an output if its run comes to a halt within the limit; the output is all that has
been emitted there.

**Proof sketch.** A run is a course and a reason to stop, and of the three reasons only the halt
reports success. -/
theorem outputOf_eq_ok_iff {limit : ℕ} {a : Word} {output : List UInt8} :
    p.outputOf limit a = .ok output ↔
      ∃ k ≤ limit, ∃ s, p.after k (.start (.ofSeed a)) = some s ∧ p.step s.config = .halt ∧
        s.output.toList = output := by
  constructor
  · intro h
    cases hrun : p.run limit (.start (.ofSeed a)) with
    | mk result s =>
      obtain ⟨k, hk, stop, hs, hstop, hreport⟩ := run_start_eq_iff.mp hrun
      rw [outputOf_eq_map, hrun, ← hreport] at h
      cases hstop with
      | halted hhalt => exact ⟨k, hk, s, hs, hhalt, Except.ok.inj h⟩
      | faulted _ _ => cases h
      | exhausted _ _ => cases h
  · rintro ⟨k, hk, s, hs, hhalt, rfl⟩
    rw [outputOf_eq_map, run_start_eq_iff.mpr ⟨k, hk, .halted, hs, .halted hhalt, rfl⟩]
    rfl

end Program

end OctalTape

import OctalTape.Proofs.Machine.Resumption

set_option relaxedAutoImplicit false
set_option autoImplicit false

/-!
# The states of a machine

Whatever its user asks of a machine, its position stays even and comes no further than behind the
tape or to the highest target of a jump, and all that it emits are octal digits. So wherever the
position is on the tape an instruction is fetched there, and a run succeeds only by leaving the
tape.

## Main definitions

* `OctalTape.Run.WellFormed` — what holds in every state that a machine comes to.

## Main results

* `OctalTape.Run.WellFormed.advance` — each step keeps a state well-formed.
* `OctalTape.Run.WellFormed.run` — so does a whole run, under any limit.
* `OctalTape.Program.run_eq_ok_iff` — a run succeeds exactly if it ends off the tape.
* `OctalTape.Machine.performAll_wellFormed` — the states that a machine comes to by any requests.
-/

namespace OctalTape

namespace Program

variable {p : Program} {pointer : ℕ} {i : Instruction}

/-- An instruction that is fetched lies on the tape with its operand. -/
lemma add_two_le_size_of_fetch (h : p.fetch pointer = some i) : pointer + 2 ≤ p.size := by
  obtain ⟨hlt, -⟩ := Array.getElem?_eq_some_iff.mp (fetch_eq_some_iff.mp h).2
  exact hlt

/-- An operand that is fetched has three bits. -/
lemma operand_le_of_fetch (h : p.fetch pointer = some i) : i.operand.toNat ≤ 7 := by
  obtain ⟨hlt, hx⟩ := Array.getElem?_eq_some_iff.mp (fetch_eq_some_iff.mp h).2
  rw [← hx]
  exact UInt8.le_iff_toNat_le.mp (p.le_seven _ (Array.getElem_mem hlt))

end Program

/-- What an instruction emits is an octal digit. -/
lemma Config.emitted_le_seven {c : Config} {i : Instruction} {t : Transition}
    (h : c.execute i = .ok t) : ∀ v ∈ t.emitted, v ≤ 7 := by
  intro v hv
  cases Config.execute_eq_ok_iff.mp h with
  | @out x w hw =>
    obtain rfl : w.lowDigit.toUInt8 = v := Option.some.inj hv
    have hlt : w.toNat % 8 < 8 := Nat.mod_lt _ (by decide)
    rw [UInt8.le_iff_toNat_le, Word.toNat_toUInt8_lowDigit]
    exact Nat.le_of_lt_succ hlt
  | _ => cases hv

/-! ## Well-formed states -/

/-- What holds in every state that a machine with the program `p` comes to. -/
structure Run.WellFormed (p : Program) (r : Run) : Prop where
  /-- The position is that of an opcode, or off the tape. -/
  even_pointer : r.config.pointer % 2 = 0
  /-- Only a jump leads further than behind the tape, and no further than its operand. -/
  pointer_le : r.config.pointer ≤ max p.size 6
  /-- Octal digits are emitted. -/
  output_le_seven : ∀ v ∈ r.output.toList, v ≤ 7
  /-- A step emits one value at most. -/
  length_output_le : r.output.toList.length ≤ r.steps

namespace Run.WellFormed

variable {p : Program} {r s : Run}

/-- A run begins in a well-formed state. -/
lemma start (p : Program) (rs : Registers) : (Run.start rs).WellFormed p :=
  ⟨rfl, Nat.zero_le _, by simp [Run.start], Nat.le_refl 0⟩

/-- Each step keeps a state well-formed.

**Proof sketch.** One field after the other. The position stays even, and an instruction leads to
the position behind it or jumps to its operand, which is six at most if it is even. A value that is
emitted is a digit, and at most one is emitted in a step. -/
theorem advance {t : Transition} (h : r.WellFormed p) (ht : p.step r.config = .next t) :
    (r.advance t).WellFormed p := by
  obtain ⟨i, hi, hexec⟩ := Program.step_eq_next_iff.mp ht
  constructor
  · rw [Run.config_advance]
    exact Program.even_pointer_of_step h.even_pointer ht
  · rw [Run.config_advance]
    rcases Config.pointer_of_execute hexec with hpass | ⟨-, -, heven, rfl⟩
    · have hsize := Program.add_two_le_size_of_fetch hi
      omega
    · -- an even code of three bits is six at most
      have hoperand := Program.operand_le_of_fetch hi
      show i.operand.toNat ≤ max p.size 6
      omega
  · intro v hv
    rw [Run.toList_output_advance, List.mem_append, Option.mem_toList] at hv
    rcases hv with hbefore | hemitted
    · exact h.output_le_seven v hbefore
    · exact Config.emitted_le_seven hexec v hemitted
  · have hone : t.emitted.toList.length ≤ 1 := by cases t.emitted <;> simp
    have hlength := h.length_output_le
    rw [Run.toList_output_advance, List.length_append, Run.steps_advance]
    omega

/-- A course of steps keeps a state well-formed. -/
lemma after {n : ℕ} (h : r.WellFormed p) (hs : p.after n r = some s) : s.WellFormed p :=
  Program.after_invariant (fun _ _ hr ht => hr.advance ht) h hs

/-- A run under any limit keeps a state well-formed, however it ends. -/
theorem run (h : r.WellFormed p) (limit : ℕ) : (p.run limit r).2.WellFormed p := by
  obtain ⟨k, s, stop, -, hs, -, hrun⟩ := Program.exists_stops_of_run p limit r
  rw [hrun]
  exact h.after hs

/-- Where a well-formed state is on the tape, an opcode and its operand stand there, and they are
fetched. -/
lemma exists_fetch (h : r.WellFormed p) (hon : r.config.pointer < p.size) :
    ∃ op x, p.codes[r.config.pointer]? = some (Opcode.toCode op) ∧
      p.codes[r.config.pointer + 1]? = some x ∧ p.fetch r.config.pointer = some ⟨op, x⟩ := by
  have hne : p.fetch r.config.pointer ≠ none := fun hnone =>
    absurd ((Program.fetch_eq_none_iff h.even_pointer).mp hnone) (Nat.not_le_of_lt hon)
  obtain ⟨⟨op, x⟩, hi⟩ := Option.ne_none_iff_exists'.mp hne
  obtain ⟨hop, hx⟩ := Program.fetch_eq_some_iff.mp hi
  exact ⟨op, x, hop, hx, hi⟩

end Run.WellFormed

/-! ## Runs -/

namespace Program

variable {p : Program}

/-- From the start, a run makes no more steps than its limit allows. -/
lemma steps_run_start_le (p : Program) (limit : ℕ) (rs : Registers) :
    (p.run limit (.start rs)).2.steps ≤ limit := by
  obtain ⟨k, s, stop, hk, hs, -, hrun⟩ := exists_stops_of_run p limit (.start rs)
  have hstart : (Run.start rs).steps = 0 := rfl
  rw [hrun, steps_after hs]
  omega

/-- From an even position, a run succeeds exactly if it ends off the tape. -/
theorem run_eq_ok_iff {limit : ℕ} {r : Run} (h : r.config.pointer % 2 = 0) :
    (p.run limit r).1 = .ok () ↔ p.size ≤ (p.run limit r).2.config.pointer := by
  constructor
  · intro hok
    obtain ⟨k, hs, hhalt⟩ := exists_halt_of_run_eq_ok hok
    exact (fetch_eq_none_iff (even_pointer_after h hs)).mp (step_eq_halt_iff.mp hhalt)
  · obtain ⟨k, s, stop, -, hs, hstop, hrun⟩ := exists_stops_of_run p limit r
    rw [hrun]
    intro hoff
    rw [(hstop.eq_of_even_pointer (even_pointer_after h hs)).1 hoff]
    rfl

end Program

/-! ## Requests to a machine -/

/-- **The invariant of a machine.** Let a machine that has been started with any contents of its
registers perform any requests, among them runs that fail. Its state is then well-formed: the
position is even, and no further than behind the tape or at six; the values emitted are octal
digits, no more of them than steps were made. The steps are no more than the greatest limit in
force at a run. Where the position is on the tape, the opcode and the operand there are fetched;
and a run of the machine succeeds exactly if it ends off the tape.

**Proof sketch.** The state is that of one run from the start under the greatest limit, and each
step of a run keeps a state well-formed. -/
theorem Machine.performAll_wellFormed (p : Program) (rs : Registers) (requests : List Request) :
    let m := (start p rs).performAll requests
    let pointer := m.state.config.pointer
    m.state.WellFormed p ∧
    m.state.steps ≤ Request.greatestLimit requests ∧
    (pointer < p.size → ∃ op x, p.codes[pointer]? = some (Opcode.toCode op) ∧
      p.codes[pointer + 1]? = some x ∧ p.fetch pointer = some ⟨op, x⟩) ∧
    (m.run.1 = .ok () ↔ p.size ≤ m.run.2.state.config.pointer) := by
  intro m pointer
  have hstate : m.state = (p.run (Request.greatestLimit requests) (.start rs)).2 :=
    state_performAll_start p rs requests
  have hprogram : m.program = p := program_performAll (start p rs) requests
  have hwf : m.state.WellFormed p := by
    rw [hstate]
    exact (Run.WellFormed.start p rs).run _
  refine ⟨hwf, ?_, hwf.exists_fetch, ?_⟩
  · rw [hstate]
    exact Program.steps_run_start_le p _ rs
  · have hrun : m.run.1 = (p.run m.stepLimit m.state).1 ∧
        m.run.2.state = (p.run m.stepLimit m.state).2 := by
      rw [← hprogram]
      exact ⟨rfl, rfl⟩
    rw [hrun.1, hrun.2]
    exact Program.run_eq_ok_iff hwf.even_pointer

end OctalTape

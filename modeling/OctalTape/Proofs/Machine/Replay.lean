import Mathlib.Data.List.Basic
import OctalTape.Machine.Session
import OctalTape.Proofs.Machine.Resumption
import OctalTape.Proofs.Text.TraceLine

set_option relaxedAutoImplicit false
set_option autoImplicit false

/-!
# The trace of a run replays it

A trace is written by a loop of its own, beside the run that it tells of. Its entry number `k` is
made in the state that the run is in after `k` steps, if a step is left there and an instruction is
fetched. So the trace has one entry for each step of the run, and one more if the run ends with an
instruction that cannot be executed; and each entry follows from the one before.

## Main definitions

* `OctalTape.endsInFault` — a run ends with an instruction that cannot be executed.
* `OctalTape.Program.Replays` — entries of a trace tell of a run from one state to another.

## Main results

* `OctalTape.Program.getElem?_trace_eq_some_iff` — which entries a trace has.
* `OctalTape.Program.replays_trace` — a trace tells of its run, under any limit.
* `OctalTape.Machine.log_replays` — so do the lines that a machine sends, which can be read back.
-/

namespace OctalTape

/-- Whether a result is that of a run that ends with an instruction that cannot be executed. -/
def endsInFault : Except Error Unit → Bool
  | .error (.reservedOperand _) | .error (.misalignedJump _) => true
  | _ => false

namespace Program

variable {p : Program}

/-! ## The entries of a trace -/

/-- New entries are added behind the old ones, and do not depend on them.

**Proof sketch.** Induction on the steps that are left, for any entries in front. -/
lemma toList_traceFor (n index : ℕ) (c : Config) (entries : Array Trace.Entry) :
    (p.traceFor n index c entries).toList =
      entries.toList ++ (p.traceFor n index c #[]).toList := by
  induction n generalizing index c entries with
  | zero => simp [traceFor]
  | succ n ih =>
    unfold traceFor
    cases p.fetch c.pointer with
    | none => simp
    | some i =>
      dsimp only
      cases c.execute i with
      | error e => simp
      | ok t =>
        dsimp only
        rw [ih (index + 1) t.config (entries.push _), ih (index + 1) t.config (#[].push _)]
        simp

/-- A step that is made has its entry, in front of those of the steps behind it. -/
lemma toList_traceFor_of_next {n index : ℕ} {c : Config} {i : Instruction} {t : Transition}
    (hi : p.fetch c.pointer = some i) (ht : c.execute i = .ok t) :
    (p.traceFor (n + 1) index c #[]).toList =
      ⟨index, c, i⟩ :: (p.traceFor n (index + 1) t.config #[]).toList := by
  simp only [traceFor, hi, ht]
  rw [toList_traceFor]
  rfl

/-- **The entries of a trace.** The entry number `k` is made if a step is left after `k` steps and
an instruction is fetched there, and it shows this.

**Proof sketch.** Induction on the number of steps that are left. An entry behind the first is one
of the run that has made its first step. -/
theorem getElem?_traceFor_eq_some_iff {n k : ℕ} {r : Run} {e : Trace.Entry} :
    (p.traceFor n r.steps r.config #[]).toList[k]? = some e ↔
      k < n ∧ ∃ s i, p.after k r = some s ∧ p.fetch s.config.pointer = some i ∧
        e = ⟨s.steps, s.config, i⟩ := by
  induction n generalizing k r with
  | zero => simp [traceFor]
  | succ n ih =>
    cases hi : p.fetch r.config.pointer with
    | none =>
      have hhalt := step_eq_halt_iff.mpr hi
      cases k <;> simp [traceFor, hi, after, hhalt]
    | some i =>
      cases ht : r.config.execute i with
      | error e' =>
        have hfault := step_eq_fault_iff.mpr ⟨i, hi, ht⟩
        cases k <;> simp [traceFor, hi, ht, after, hfault, eq_comm]
      | ok t =>
        have hnext := step_eq_next_iff.mpr ⟨i, hi, ht⟩
        rw [toList_traceFor_of_next hi ht]
        cases k with
        | zero => simp [hi, eq_comm]
        | succ k =>
          have hdeep := ih (k := k) (r := r.advance t)
          rw [Run.steps_advance, Run.config_advance] at hdeep
          rw [List.getElem?_cons_succ, hdeep, after_succ_of_next hnext, Nat.succ_lt_succ_iff]

/-- The same for the trace of a run under a limit on all of its steps. -/
lemma getElem?_trace_eq_some_iff {limit k : ℕ} {r : Run} {e : Trace.Entry} :
    (p.trace limit r)[k]? = some e ↔
      k < limit - r.steps ∧ ∃ s i, p.after k r = some s ∧ p.fetch s.config.pointer = some i ∧
        e = ⟨s.steps, s.config, i⟩ := getElem?_traceFor_eq_some_iff

/-- The entry number `k` shows the state after `k` steps. -/
lemma exists_after_of_entry {limit k : ℕ} {r : Run} {e : Trace.Entry}
    (h : (p.trace limit r)[k]? = some e) :
    ∃ u, p.after k r = some u ∧ e.index = r.steps + k ∧ e.config = u.config ∧
      p.fetch u.config.pointer = some e.instruction := by
  obtain ⟨-, u, i, hu, hi, rfl⟩ := getElem?_trace_eq_some_iff.mp h
  exact ⟨u, hu, steps_after hu, rfl, hi⟩

/-- The entry number `k` leads to the state after `k + 1` steps, if the run comes to it. -/
lemma exists_execute_of_entry {limit k : ℕ} {r s : Run} {e : Trace.Entry}
    (h : (p.trace limit r)[k]? = some e) (hs : p.after (k + 1) r = some s) :
    ∃ t, e.config.execute e.instruction = .ok t ∧ t.config = s.config := by
  obtain ⟨u, hu, -, hconfig, hi⟩ := exists_after_of_entry h
  rw [after_add_of_eq hu] at hs
  obtain ⟨t, ht, hadvance⟩ := exists_next_of_after_succ hs
  obtain ⟨i, hi', hexec⟩ := step_eq_next_iff.mp ht
  rw [hi, Option.some.injEq] at hi'
  rw [after_zero, Option.some.injEq] at hadvance
  exact ⟨t, by rw [hconfig, hi', hexec], by rw [← hadvance, Run.config_advance]⟩

/-- The entry number `k` shows the state after `k` steps and its instruction, which fails if the run
faults there. -/
lemma execute_of_entry_of_fault {limit k : ℕ} {r s : Run} {e : Trace.Entry} {error : Error}
    (h : (p.trace limit r)[k]? = some e) (hs : p.after k r = some s)
    (hfault : p.step s.config = .fault error) :
    e.config = s.config ∧ e.config.execute e.instruction = .error error := by
  obtain ⟨u, hu, -, hconfig, hi⟩ := exists_after_of_entry h
  obtain rfl : s = u := Option.some.inj (hs.symm.trans hu)
  obtain ⟨i, hi', hexec⟩ := step_eq_fault_iff.mp hfault
  rw [hi, Option.some.injEq] at hi'
  exact ⟨hconfig, by rw [hconfig, hi', hexec]⟩

/-- An instruction that cannot be executed is a fault. -/
lemma endsInFault_of_execute {c : Config} {i : Instruction} {e : Error}
    (h : c.execute i = .error e) : endsInFault (.error e) = true := by
  rcases Config.execute_eq_error_iff.mp h with ⟨-, -, rfl⟩ | ⟨-, -, -, rfl⟩ <;> rfl

/-- A trace has one entry for each step that its run makes, and one more for a fault.

**Proof sketch.** Induction on the steps. Where the run stops, an entry is made only if a step is
left and an instruction is fetched, which then is the fault. -/
lemma length_traceFor {left limit k : ℕ} {r s : Run} {stop : Stop} (hk : k ≤ left)
    (hs : p.after k r = some s) (hstop : p.Stops (left - k) s.config stop) :
    (p.traceFor left r.steps r.config #[]).toList.length =
      k + if endsInFault (stop.report limit) then 1 else 0 := by
  induction k generalizing left r with
  | zero =>
    cases hs
    cases hstop with
    | halted h =>
      have hi := step_eq_halt_iff.mp h
      cases left <;> simp [traceFor, hi, Stop.report, endsInFault]
    | @faulted e hleft h =>
      obtain ⟨i, hi, he⟩ := step_eq_fault_iff.mp h
      obtain ⟨n, rfl⟩ : ∃ n, left = n + 1 := ⟨left - 1, by omega⟩
      simp [traceFor, hi, he, Stop.report, endsInFault_of_execute he]
    | exhausted hleft _ =>
      obtain rfl : left = 0 := hleft
      simp [traceFor, Stop.report, endsInFault]
  | succ k ih =>
    obtain ⟨t, ht, hs⟩ := exists_next_of_after_succ hs
    obtain ⟨i, hi, hexec⟩ := step_eq_next_iff.mp ht
    obtain ⟨n, rfl⟩ : ∃ n, left = n + 1 := ⟨left - 1, by omega⟩
    rw [Nat.add_sub_add_right] at hstop
    have hlen := ih (Nat.le_of_succ_le_succ hk) hs hstop
    rw [Run.steps_advance, Run.config_advance] at hlen
    rw [toList_traceFor_of_next hi hexec, List.length_cons, hlen]
    omega

/-! ## Traces that tell of a run -/

/-- The entries tell of a run from the state `r` to the state `s` that ends with `result`. -/
structure Replays (p : Program) (r s : Run) (result : Except Error Unit)
    (entries : List Trace.Entry) : Prop where
  /-- There is one entry for each step that is made, and one more for a fault. -/
  length_eq : r.steps + entries.length = s.steps + if endsInFault result then 1 else 0
  /-- The entries are numbered from the steps that were made before. -/
  index_eq : ∀ k e, entries[k]? = some e → e.index = r.steps + k
  /-- The first entry shows the state at the beginning. -/
  config_head : ∀ e, entries.head? = some e → e.config = r.config
  /-- An entry shows the opcode and the operand that are on the tape at its position. -/
  codes : ∀ e ∈ entries, p.codes[e.config.pointer]? = some e.instruction.opcode.toCode ∧
    p.codes[e.config.pointer + 1]? = some e.instruction.operand
  /-- An entry behind another shows what the instruction of that makes of its configuration. -/
  execute_next : ∀ k e e', entries[k]? = some e → entries[k + 1]? = some e' →
    ∃ t, e.config.execute e.instruction = .ok t ∧ t.config = e'.config
  /-- The last entry leads to the state at the end, -/
  execute_last : endsInFault result = false → ∀ e, entries.getLast? = some e →
    ∃ t, e.config.execute e.instruction = .ok t ∧ t.config = s.config
  /-- unless it is that of a fault: then it shows this state, and an instruction that cannot be
  executed in it. -/
  fault_last : endsInFault result = true → ∃ e error, entries.getLast? = some e ∧
    e.config = s.config ∧ e.config.execute e.instruction = .error error ∧ result = .error error
  /-- The step that a limit forbids has no entry. -/
  index_lt : ∀ limit, result = .error (.stepLimitExceeded limit) → ∀ e ∈ entries, e.index < s.steps

/-- **A trace tells of its run**, under any limit and from any state.

**Proof sketch.** The run makes `k` steps and stops. The entry number `j` shows the state after `j`
steps (`exists_after_of_entry`), which gives the first entry, the codes, and the instruction that
leads to the next state. There are `k` entries, and one more for a fault (`length_traceFor`), so
the last one belongs to the last step, or to the fault behind it. -/
theorem replays_trace (p : Program) (limit : ℕ) (r : Run) :
    p.Replays r (p.run limit r).2 (p.run limit r).1 (p.trace limit r) := by
  obtain ⟨k, s, stop, hk, hs, hstop, hrun⟩ := exists_stops_of_run p limit r
  rw [hrun]
  have hsteps := steps_after hs
  have hlen : (p.trace limit r).length = k + if endsInFault (stop.report limit) then 1 else 0 := by
    rw [show limit - s.steps = limit - r.steps - k by omega] at hstop
    exact length_traceFor hk hs hstop
  constructor
  case length_eq =>
    dsimp only
    rw [hlen, hsteps, Nat.add_assoc]
  case index_eq =>
    intro j e he
    obtain ⟨u, -, hindex, -⟩ := exists_after_of_entry he
    exact hindex
  case config_head =>
    intro e he
    rw [List.head?_eq_getElem?] at he
    obtain ⟨u, hu, -, hconfig, -⟩ := exists_after_of_entry he
    cases hu
    exact hconfig
  case codes =>
    intro e he
    obtain ⟨j, hj⟩ := List.mem_iff_getElem?.mp he
    obtain ⟨u, -, -, hconfig, hi⟩ := exists_after_of_entry hj
    rw [hconfig]
    exact fetch_eq_some_iff.mp hi
  case execute_next =>
    intro j e e' he he'
    obtain ⟨u, hu, -, hconfig, -⟩ := exists_after_of_entry he'
    rw [hconfig]
    exact exists_execute_of_entry he hu
  case execute_last =>
    intro hno e he
    rw [hno, if_neg Bool.false_ne_true, Nat.add_zero] at hlen
    rw [List.getLast?_eq_getElem?, hlen] at he
    have hpos : 0 < k := hlen ▸ List.length_pos_of_mem (List.mem_of_getElem? he)
    refine exists_execute_of_entry he ?_
    rwa [Nat.sub_add_cancel hpos]
  case fault_last =>
    intro hyes
    rw [hyes, if_pos rfl] at hlen
    obtain ⟨e, he⟩ : ∃ e, (p.trace limit r)[k]? = some e :=
      ⟨_, List.getElem?_eq_getElem (by omega)⟩
    cases hstop with
    | halted => cases hyes
    | exhausted => cases hyes
    | @faulted error _ hfault =>
      obtain ⟨hconfig, hexec⟩ := execute_of_entry_of_fault he hs hfault
      refine ⟨e, error, ?_, hconfig, hexec, rfl⟩
      rw [List.getLast?_eq_getElem?, hlen, Nat.add_sub_cancel, he]
  case index_lt =>
    intro limit' hlimit e he
    have hno : endsInFault (stop.report limit) = false := by
      rw [show stop.report limit = _ from hlimit]
      rfl
    rw [hno, if_neg Bool.false_ne_true, Nat.add_zero] at hlen
    obtain ⟨j, hj⟩ := List.mem_iff_getElem?.mp he
    obtain ⟨hlt, -⟩ := List.getElem?_eq_some_iff.mp hj
    obtain ⟨u, -, hindex, -⟩ := exists_after_of_entry hj
    rw [hindex, hsteps]
    omega

end Program

/-- **The log of a run replays it.** In whatever state a machine is run, the lines that it sends to
a log of the finest grain are those of exactly one list of entries, and these tell of the run:
there is a line for each step that is made, and one more for a reserved operand or a misaligned
jump; the steps are numbered on; the first line shows the state of the machine before the run, each
line behind another what the instruction shown there leads to, and the line of a fault the state in
which the machine is left. -/
theorem Machine.log_replays (m : Machine) :
    ∃ entries : List Trace.Entry,
      (∀ es, m.log .trace .run = es.map Trace.Entry.toLog ↔ es = entries) ∧
      m.program.Replays m.state m.run.2.state m.run.1 entries := by
  refine ⟨m.program.trace m.stepLimit m.state, fun es => ?_,
    m.program.replays_trace m.stepLimit m.state⟩
  have hlog : m.log .trace .run =
      (m.program.trace m.stepLimit m.state).map Trace.Entry.toLog := rfl
  rw [hlog, eq_comm]
  exact (List.map_injective_iff.mpr Trace.Entry.toLog_injective).eq_iff

/-- A step and the fault behind it: the step is counted, and both have their lines. -/
example :
    let m := Machine.start ⟨#[0, 1, 5, 7], rfl, by simp⟩ ⟨6, 0, 0⟩
    (m.log .trace .run).map (·.line) =
        ["TRACE Step #0: Adv 1 @ 0, registers [6, 0, 0].",
          "TRACE Step #1: Out 7 @ 2, registers [3, 0, 0]."] ∧
      m.run.1 = .error (.reservedOperand 2) ∧ m.run.2.state.steps = 1 := by
  decide +kernel

end OctalTape

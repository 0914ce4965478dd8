import Mathlib.Algebra.Group.Nat.Defs
import OctalTape.Proofs.Machine.Course

set_option relaxedAutoImplicit false
set_option autoImplicit false

/-!
# Runs that are taken up again

A machine that was stopped by its limit goes on when it is run under a greater one, and the steps
made before still count. It does not matter how often a run is interrupted: the machine comes as
far as one run under the greatest of the limits brings it, and what its last run reports can be
read off the state that it leaves.

## Main definitions

* `OctalTape.Machine.performAll` — the machine after some requests.
* `OctalTape.Machine.Request.limitsAtRuns` — the limits in force whenever the machine is run;
  `OctalTape.Machine.Request.greatestLimit`, the greatest of them.

## Main results

* `OctalTape.Program.run_run_of_le`, `OctalTape.Program.state_run_run` — a run that is taken up
  again is a single run under the greater limit.
* `OctalTape.Program.run_eq_of_le` — a run that does not use up its limit is the same under any
  greater one.
* `OctalTape.Machine.state_performAll` — the state after some requests is that of a single run.
* `OctalTape.Machine.performAll_eq_single_run` — the same from the start, with the report of the
  last run.

## Implementation notes

A limit stands against the steps that the run has made in all, so a lower limit than an earlier
one does not take the machine back: it leaves it where it is.
-/

namespace OctalTape

namespace Program

variable {p : Program}

/-! ## Reasons to stop under different limits -/

/-- A reason to stop other than the limit is one with more steps left, too. -/
lemma Stops.of_le {left left' : ℕ} {c : Config} {stop : Stop} (h : p.Stops left c stop)
    (hstop : stop ≠ .exhausted) (hle : left ≤ left') : p.Stops left' c stop := by
  cases h with
  | halted h => exact .halted h
  | faulted hleft h => exact .faulted (by omega) h
  | exhausted => exact absurd rfl hstop

/-- Where there is a reason to stop, there is one with fewer steps left. -/
lemma Stops.exists_of_ge {left left' : ℕ} {c : Config} {stop : Stop} (h : p.Stops left c stop)
    (hle : left' ≤ left) : ∃ stop', p.Stops left' c stop' := by
  cases h with
  | halted h => exact ⟨_, .halted h⟩
  | @faulted e hleft h =>
    rcases Nat.eq_zero_or_pos left' with hzero | hpos
    · exact ⟨_, .exhausted hzero (by simp [h])⟩
    · exact ⟨_, .faulted hpos h⟩
  | exhausted hleft h => exact ⟨_, .exhausted (by omega) h⟩

/-! ## Single runs -/

/-- A run under a limit passes through the states that are within the limit. -/
lemma run_of_after {k limit : ℕ} {r s : Run} (h : p.after k r = some s)
    (hk : k ≤ limit - r.steps) : p.run limit r = p.run limit s := by
  have hsteps := steps_after h
  have hrun : p.runFor (limit - r.steps) r = p.runFor (limit - s.steps) s := by
    rw [show limit - r.steps = k + (limit - s.steps) by omega]
    exact runFor_add_of_after h
  unfold run
  rw [hrun]

/-- Where there is a reason to stop, a run reports it and makes no step. -/
lemma run_of_stops {limit : ℕ} {s : Run} {stop : Stop}
    (h : p.Stops (limit - s.steps) s.config stop) :
    p.run limit s = (stop.report limit, s) := by
  unfold run
  rw [runFor_of_stops h]

/-- A run makes its steps and leaves a state with a reason to stop, which it reports. -/
lemma exists_stops_of_run (p : Program) (limit : ℕ) (r : Run) :
    ∃ k s stop, k ≤ limit - r.steps ∧ p.after k r = some s ∧
      p.Stops (limit - s.steps) s.config stop ∧ p.run limit r = (stop.report limit, s) := by
  obtain ⟨k, hk, s, stop, hs, hstop⟩ := exists_stops p (limit - r.steps) r
  have hsteps := steps_after hs
  rw [show limit - r.steps - k = limit - s.steps by omega] at hstop
  refine ⟨k, s, stop, hk, hs, hstop, ?_⟩
  rw [run_of_after hs hk, run_of_stops hstop]

/-- A run that is allowed no step leaves the state as it is. -/
lemma state_run_zero (p : Program) (r : Run) : (p.run 0 r).2 = r := by
  obtain ⟨k, s, stop, hk, hs, -, hrun⟩ := exists_stops_of_run p 0 r
  obtain rfl : k = 0 := by omega
  rw [hrun]
  exact (Option.some.inj hs).symm

/-- A run that succeeds makes its steps and comes to a halt. -/
lemma exists_halt_of_run_eq_ok {limit : ℕ} {r : Run} (h : (p.run limit r).1 = .ok ()) :
    ∃ k, p.after k r = some (p.run limit r).2 ∧ p.step (p.run limit r).2.config = .halt := by
  obtain ⟨k, s, stop, -, hs, hstop, hrun⟩ := exists_stops_of_run p limit r
  rw [hrun] at h ⊢
  cases hstop with
  | halted hhalt => exact ⟨k, hs, hhalt⟩
  | faulted => cases h
  | exhausted => cases h

/-- The reason to stop in an even position, read off the state: off the tape it is the halt; on
the tape it is the limit if the steps made have used it up, and otherwise the fault of the
instruction there.

**Proof sketch.** From an even position a run halts exactly if it is off the tape. On the tape the
other two reasons are told apart by whether a step is left. -/
lemma Stops.eq_of_even_pointer {limit : ℕ} {s : Run} {stop : Stop}
    (h : p.Stops (limit - s.steps) s.config stop) (heven : s.config.pointer % 2 = 0) :
    (p.size ≤ s.config.pointer → stop = .halted) ∧
    (s.config.pointer < p.size → limit ≤ s.steps → stop = .exhausted) ∧
    (s.config.pointer < p.size → s.steps < limit →
      ∃ i e, p.fetch s.config.pointer = some i ∧ s.config.execute i = .error e ∧
        stop = .faulted e) := by
  have hhalt : p.step s.config = .halt ↔ p.size ≤ s.config.pointer := by
    rw [step_eq_halt_iff, fetch_eq_none_iff heven]
  cases h with
  | halted h =>
    have hoff := hhalt.mp h
    exact ⟨fun _ => rfl, fun hon => by omega, fun hon => by omega⟩
  | @faulted e hleft h =>
    refine ⟨fun hoff => ?_, fun _ hle => by omega, fun _ _ => ?_⟩
    · rw [hhalt.mpr hoff] at h
      cases h
    · obtain ⟨i, hi, he⟩ := step_eq_fault_iff.mp h
      exact ⟨i, e, hi, he, rfl⟩
  | exhausted hleft h =>
    refine ⟨fun hoff => absurd (hhalt.mpr hoff) h, fun _ _ => rfl, fun _ hlt => by omega⟩

/-! ## Two runs -/

/-- A run that is taken up again under a greater limit is a single run under that limit. -/
theorem run_run_of_le {limit limit' : ℕ} (h : limit ≤ limit') (r : Run) :
    p.run limit' (p.run limit r).2 = p.run limit' r := by
  obtain ⟨k, s, stop, hk, hs, -, hrun⟩ := exists_stops_of_run p limit r
  rw [hrun]
  exact (run_of_after hs (by omega)).symm

/-- A run that is taken up again under a lesser limit stays where it is. -/
lemma state_run_run_of_ge {limit limit' : ℕ} (h : limit' ≤ limit) (r : Run) :
    (p.run limit' (p.run limit r).2).2 = (p.run limit r).2 := by
  obtain ⟨k, s, stop, -, -, hstop, hrun⟩ := exists_stops_of_run p limit r
  rw [hrun]
  obtain ⟨stop', hstop'⟩ := hstop.exists_of_ge (show limit' - s.steps ≤ limit - s.steps by omega)
  rw [run_of_stops hstop']

/-- Two runs come as far as a single one under the greater of their limits. -/
theorem state_run_run (limit limit' : ℕ) (r : Run) :
    (p.run limit' (p.run limit r).2).2 = (p.run (max limit limit') r).2 := by
  rcases Nat.le_total limit limit' with h | h
  · rw [run_run_of_le h, Nat.max_eq_right h]
  · rw [state_run_run_of_ge h, Nat.max_eq_left h]

/-- A run that does not use up its limit is the same under any greater one. -/
theorem run_eq_of_le {limit limit' : ℕ} {r : Run} (h : limit ≤ limit')
    (hresult : (p.run limit r).1 ≠ .error (.stepLimitExceeded limit)) :
    p.run limit' r = p.run limit r := by
  obtain ⟨k, s, stop, hk, hs, hstop, hrun⟩ := exists_stops_of_run p limit r
  rw [hrun] at hresult ⊢
  have hne : stop ≠ .exhausted := by
    rintro rfl
    exact hresult rfl
  rw [run_of_after hs (by omega), run_of_stops (hstop.of_le hne (by omega))]
  cases stop with
  | halted => rfl
  | faulted e => rfl
  | exhausted => exact absurd rfl hne

end Program

/-! ## Requests to a machine -/

namespace Machine

/-- The machine after some requests, whatever it has replied to them. -/
def performAll (m : Machine) (requests : List Request) : Machine :=
  requests.foldl (fun m request => (m.perform request).2) m

/-- The limits in force whenever a machine is run in the course of some requests, if `limit` is
in force at first. -/
def Request.limitsAtRuns (limit : ℕ) : List Request → List ℕ
  | [] => []
  | .run :: requests => limit :: limitsAtRuns limit requests
  | .setStepLimit limit' :: requests => limitsAtRuns limit' requests
  | .read _ :: requests => limitsAtRuns limit requests

/-- The greatest limit in force whenever a machine that has just been started is run in the
course of some requests; zero if it is not run. -/
def Request.greatestLimit (requests : List Request) : ℕ :=
  (limitsAtRuns defaultStepLimit requests).foldl max 0

/-- The first of some requests is performed before the others. -/
@[simp]
theorem performAll_cons (m : Machine) (request : Request) (requests : List Request) :
    m.performAll (request :: requests) = (m.perform request).2.performAll requests := rfl

/-- Requests in two parts are performed one part after the other. -/
@[simp]
theorem performAll_append (m : Machine) (before after : List Request) :
    m.performAll (before ++ after) = (m.performAll before).performAll after :=
  List.foldl_append

/-- A run changes nothing but the state. -/
lemma perform_run (m : Machine) :
    (m.perform .run).2 = { m with state := (m.program.run m.stepLimit m.state).2 } := rfl

/-- No request changes the program. -/
@[simp]
theorem program_performAll (m : Machine) (requests : List Request) :
    (m.performAll requests).program = m.program := by
  induction requests generalizing m with
  | nil => rfl
  | cons request requests ih =>
    rw [performAll_cons, ih]
    cases request <;> rfl

/-- Without a run, the state stays as it is. -/
lemma state_performAll_of_no_run {requests : List Request} (h : .run ∉ requests) (m : Machine) :
    (m.performAll requests).state = m.state := by
  induction requests generalizing m with
  | nil => rfl
  | cons request requests ih =>
    rw [List.mem_cons, not_or] at h
    rw [performAll_cons, ih h.2]
    cases request with
    | run => exact absurd rfl h.1
    | setStepLimit limit => rfl
    | read r => rfl

/-- **Interrupted runs compose.** A machine whose state a single run under a limit leaves is,
after some requests, in the state that a single run under the greatest limit leaves.

**Proof sketch.** Induction on the requests. Only a run changes the state, and two runs come as
far as one under the greater of their limits (`Program.state_run_run`). -/
theorem state_performAll {m : Machine} {limit : ℕ} {r : Run}
    (h : m.state = (m.program.run limit r).2) (requests : List Request) :
    (m.performAll requests).state =
      (m.program.run ((Request.limitsAtRuns m.stepLimit requests).foldl max limit) r).2 := by
  induction requests generalizing m limit with
  | nil => exact h
  | cons request requests ih =>
    rw [performAll_cons]
    cases request with
    | run =>
      have hrun : (m.perform .run).2.state = (m.program.run (max limit m.stepLimit) r).2 := by
        rw [perform_run, h]
        exact Program.state_run_run limit m.stepLimit r
      exact ih hrun
    | setStepLimit limit' => exact ih (m := m.setStepLimit limit') h
    | read reg => exact ih (m := m) h

/-- The state of a machine that has been started and has performed some requests is that of a
single run under the greatest limit in force at a run. -/
lemma state_performAll_start (p : Program) (rs : Registers) (requests : List Request) :
    ((start p rs).performAll requests).state =
      (p.run (Request.greatestLimit requests) (.start rs)).2 := by
  exact state_performAll (m := start p rs) (Program.state_run_zero p (.start rs)).symm requests

/-- A machine comes by any requests to a state that its program comes to by steps. -/
lemma exists_after_performAll (m : Machine) (requests : List Request) :
    ∃ k, m.program.after k m.state = some (m.performAll requests).state := by
  rw [state_performAll (Program.state_run_zero m.program m.state).symm requests]
  obtain ⟨k, s, stop, -, hs, -, hrun⟩ := Program.exists_stops_of_run m.program
    ((Request.limitsAtRuns m.stepLimit requests).foldl max 0) m.state
  rw [hrun]
  exact ⟨k, hs⟩

/-- **One run under the greatest limit.** Let a machine that has just been started perform some
requests, and take the last run among them. In the end the machine is in the state that a single
run under the greatest limit leaves, and that is the state in which the last run has left it. Off
the tape, the last run has succeeded, however many steps have been made. On the tape, it has
reported its limit if the steps made have used it up; otherwise it has reported the fault of the
instruction there, and to run the machine again reports the same and changes nothing.

**Proof sketch.** The state is that of a single run (`state_performAll_start`), so its position
is even. The last run has stopped there for a reason, which the state decides
(`Program.Stops.eq_of_even_pointer`) and which is still there for another run. -/
theorem performAll_eq_single_run (p : Program) (rs : Registers) (before after : List Request)
    (hafter : .run ∉ after) :
    let requests := before ++ .run :: after
    let m := (start p rs).performAll before
    let s := ((start p rs).performAll requests).state
    s = ((start p rs).setStepLimit (Request.greatestLimit requests)).run.2.state ∧
    m.run.2.state = s ∧
    (p.size ≤ s.config.pointer → m.run.1 = .ok ()) ∧
    (s.config.pointer < p.size → m.stepLimit ≤ s.steps →
      m.run.1 = .error (.stepLimitExceeded m.stepLimit)) ∧
    (s.config.pointer < p.size → s.steps < m.stepLimit →
      ∃ i e, p.fetch s.config.pointer = some i ∧ s.config.execute i = .error e ∧
        m.run.1 = .error e ∧ m.run.2.run = (.error e, m.run.2)) := by
  intro requests m s
  have hsingle : s = (p.run (Request.greatestLimit requests) (.start rs)).2 :=
    state_performAll_start p rs requests
  have hlast : m.run.2.state = s := by
    have happend : (start p rs).performAll requests = m.run.2.performAll after :=
      performAll_append _ before (.run :: after)
    show m.run.2.state = ((start p rs).performAll requests).state
    rw [happend, state_performAll_of_no_run hafter]
  have heven : s.config.pointer % 2 = 0 := by
    obtain ⟨k, s', stop, -, hs', -, hrun⟩ :=
      Program.exists_stops_of_run p (Request.greatestLimit requests) (.start rs)
    rw [hsingle, hrun]
    exact Program.even_pointer_after (show (Run.start rs).config.pointer % 2 = 0 from rfl) hs'
  have hprogram : m.program = p := program_performAll (start p rs) before
  obtain ⟨k, s', stop, -, -, hstop, hrun⟩ :=
    Program.exists_stops_of_run m.program m.stepLimit m.state
  have hm : m.run = (stop.report m.stepLimit, { m with state := s' }) := by
    unfold run
    rw [hrun]
  obtain rfl : s' = s := by rw [← hlast, hm]
  rw [hprogram] at hstop
  obtain ⟨hhalted, hexhausted, hfaulted⟩ := hstop.eq_of_even_pointer heven
  refine ⟨hsingle, hlast, fun hoff => ?_, fun hon hle => ?_, fun hon hlt => ?_⟩
  · rw [hm, hhalted hoff]
    rfl
  · rw [hm, hexhausted hon hle]
    rfl
  · obtain ⟨i, e, hi, he, rfl⟩ := hfaulted hon hlt
    refine ⟨i, e, hi, he, by rw [hm]; rfl, ?_⟩
    rw [hm]
    unfold run
    simp only [hprogram]
    rw [Program.run_of_stops hstop]
    rfl

/-- A program that emits the halves of its seed until nothing is left, and then resolves the
reserved operand. -/
def halvingTape : Program := ⟨#[0, 1, 5, 4, 3, 0, 5, 7], rfl, by simp⟩

/-- The halving tape is stopped in the first pass, run again under a lower limit, which leaves it
there, and then up to its fault. A single run comes to the same state, and another run reports the
fault again. -/
theorem performAll_halvingTape :
    let before : List Request := [.setStepLimit 4, .run, .setStepLimit 2, .run, .setStepLimit 50]
    let after : List Request := [.read .a, .setStepLimit 6]
    let m := (start halvingTape ⟨5, 0, 0⟩).performAll before
    .run ∉ after ∧
    ((start halvingTape ⟨5, 0, 0⟩).performAll (before ++ .run :: after)).state =
      ((start halvingTape ⟨5, 0, 0⟩).setStepLimit 50).run.2.state ∧
    m.run.1 = .error (.reservedOperand 6) ∧
    m.run.2.run = (.error (.reservedOperand 6), m.run.2) := by
  intro before after m
  obtain ⟨hsingle, -, -, -, hfaulted⟩ :=
    performAll_eq_single_run halvingTape ⟨5, 0, 0⟩ before after (by decide)
  obtain ⟨i, e, hi, he, hrun, hagain⟩ := hfaulted (by decide) (by decide)
  obtain rfl : i = ⟨.out, 7⟩ := by
    have hfetch : halvingTape.fetch 6 = some ⟨.out, 7⟩ := by decide
    exact Option.some.inj (hi.symm.trans hfetch)
  cases he
  have hgreatest : Request.greatestLimit (before ++ .run :: after) = 50 := by decide
  rw [hgreatest] at hsingle
  exact ⟨by decide, hsingle, hrun, hagain⟩

end Machine

end OctalTape

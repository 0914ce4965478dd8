import Mathlib.Algebra.Group.Nat.Defs
import OctalTape.Proofs.Machine.Course

set_option relaxedAutoImplicit false
set_option autoImplicit false

/-!
# The machine with unbounded numbers

The machine holds words of 64 bits and shifts them. The machine of this module holds numbers of
any size and divides them; it reads the codes of the tape as numbers and knows nothing of words,
of step limits, or of how instructions are decoded. Both make the same runs.

## Main definitions

* `OctalTape.Unbounded.State` — three numbers, a position, and the values emitted so far.
* `OctalTape.Unbounded.State.execute` — what the eight opcodes do to them.
* `OctalTape.Unbounded.step`, `OctalTape.Unbounded.after` — one step, and several, on a tape.
* `OctalTape.Unbounded.Represents` — a run of the machine shows a state of the unbounded one.

## Main results

* `OctalTape.Unbounded.execute_matches` — every instruction does the same in both machines.
* `OctalTape.Unbounded.after_represents` — a course of the machine is one of the unbounded one.
* `OctalTape.Unbounded.run_refines_unbounded` — a run under a limit ends as the unbounded one
  does, or where the limit cuts that one off.

## Implementation notes

A position on the tape is taken as the start of an instruction, whether it is even or not; a
missing operand would read as `0`. From the start of a tape of even length only even positions
are reached, so there is always an operand.
-/

namespace OctalTape

/-- The codes of a program as numbers. -/
def Program.tape (p : Program) : List ℕ := p.toList.map UInt8.toNat

namespace Unbounded

/-! ## The reference machine -/

/-- Why an instruction cannot be executed. -/
inductive Fault where
  /-- The instruction at this position resolves the operand `7`. -/
  | reservedOperand (pointer : ℕ)
  /-- A jump that is taken leads to this odd position. -/
  | misalignedJump (target : ℕ)
  deriving DecidableEq, Repr

/-- The error that reports a fault. -/
def Fault.error : Fault → Error
  | .reservedOperand pointer => .reservedOperand pointer
  | .misalignedJump target => .misalignedJump target

/-- Three numbers, the position on the tape, and the values emitted so far. -/
structure State where
  a : ℕ
  b : ℕ
  c : ℕ
  pointer : ℕ := 0
  output : List ℕ := []
  deriving DecidableEq, Repr

/-- What the machine does next. -/
inductive Outcome where
  /-- The position is off the tape. -/
  | halted
  /-- The instruction at the position cannot be executed. -/
  | faulted (fault : Fault)
  /-- The instruction at the position has been executed. -/
  | next (state : State)
  deriving DecidableEq, Repr

namespace State

/-- The state with which a run from the given registers begins. -/
def start (rs : Registers) : State :=
  { a := rs.a.toNat, b := rs.b.toNat, c := rs.c.toNat }

/-- The number that an operand denotes where it is resolved. -/
def combo (s : State) (x : ℕ) : Option ℕ :=
  if x < 4 then some x
  else if x = 4 then some s.a
  else if x = 5 then some s.b
  else if x = 6 then some s.c
  else none

/-- The state after one register has been given the number `n`. -/
def set (s : State) (r : Register) (n : ℕ) : State :=
  match r with
  | .a => { s with a := n }
  | .b => { s with b := n }
  | .c => { s with c := n }

/-- The state behind the instruction. -/
def pass (s : State) : State := { s with pointer := s.pointer + 2 }

/-- Resolve the operand, do something with the number, and go on behind the instruction. -/
def withCombo (s : State) (x : ℕ) (f : ℕ → State) : Outcome :=
  match s.combo x with
  | some v => .next (f v).pass
  | none => .faulted (.reservedOperand s.pointer)

/-- What the instruction with the given opcode and operand makes of a state. -/
def execute (s : State) (opcode x : ℕ) : Outcome :=
  match opcode with
  | 0 => s.withCombo x fun v => s.set .a (s.a / 2 ^ v)
  | 1 => .next (s.set .b (s.b ^^^ x)).pass
  | 2 => s.withCombo x fun v => s.set .b (v % 8)
  | 3 =>
    if s.a = 0 then .next s.pass
    else if x % 2 = 0 then .next { s with pointer := x }
    else .faulted (.misalignedJump x)
  | 4 => .next (s.set .b (s.b ^^^ s.c)).pass
  | 5 => s.withCombo x fun v => { s with output := s.output ++ [v % 8] }
  | 6 => s.withCombo x fun v => s.set .b (s.a / 2 ^ v)
  | _ => s.withCombo x fun v => s.set .c (s.a / 2 ^ v)

end State

/-- What the machine does next on a tape. -/
def step (tape : List ℕ) (s : State) : Outcome :=
  if s.pointer < tape.length then
    s.execute (tape.getD s.pointer 0) (tape.getD (s.pointer + 1) 0)
  else .halted

/-- The state after exactly `n` steps, if the machine neither halts nor faults before. -/
def after (tape : List ℕ) : ℕ → State → Option State
  | 0, s => some s
  | n + 1, s =>
    match step tape s with
    | .next s' => after tape n s'
    | _ => none

/-- How the machine ends after `k` steps in the state `s`, if it may make `limit` steps. -/
inductive Ends (tape : List ℕ) (limit k : ℕ) (s : State) : Except Error Unit → Prop where
  /-- It has left the tape. -/
  | halted (hk : k ≤ limit) (h : tape.length ≤ s.pointer) : Ends tape limit k s (.ok ())
  /-- A step is left, but it is a fault. -/
  | faulted {f : Fault} (hk : k < limit) (h : step tape s = .faulted f) :
      Ends tape limit k s (.error f.error)
  /-- It is on the tape, but no step is left. -/
  | exhausted (hk : k = limit) (h : s.pointer < tape.length) :
      Ends tape limit k s (.error (.stepLimitExceeded limit))

/-! ## The reference machine is deterministic -/

/-- No instruction halts the machine. -/
lemma execute_ne_halted (s : State) (opcode x : ℕ) : s.execute opcode x ≠ .halted := by
  have hcombo : ∀ f, s.withCombo x f ≠ .halted := by
    intro f
    unfold State.withCombo
    split <;> simp
  unfold State.execute
  split
  any_goals exact hcombo _
  any_goals simp
  split
  · simp
  · split <;> simp

/-- The machine halts exactly off the tape. -/
lemma step_eq_halted_iff {tape : List ℕ} {s : State} :
    step tape s = .halted ↔ tape.length ≤ s.pointer := by
  unfold step
  split
  · next h => simp [execute_ne_halted, h]
  · next h => simpa using h

/-- Where the machine ends, it makes no step within the limit. -/
lemma Ends.not_next {tape : List ℕ} {limit k : ℕ} {s s' : State} {result : Except Error Unit}
    (h : Ends tape limit k s result) (hk : k < limit) : step tape s ≠ .next s' := by
  cases h with
  | halted _ hs => simp [step_eq_halted_iff.mpr hs]
  | faulted _ hs => simp [hs]
  | exhausted hlimit _ => omega

/-- The machine ends within the limit. -/
lemma Ends.le_limit {tape : List ℕ} {limit k : ℕ} {s : State} {result : Except Error Unit}
    (h : Ends tape limit k s result) : k ≤ limit := by
  cases h <;> omega

/-- In one state the machine ends in one way.

**Proof sketch.** The three ways to end exclude each other, by what is at the position and by the
number of steps. -/
lemma Ends.result_unique {tape : List ℕ} {limit k : ℕ} {s : State} {x y : Except Error Unit}
    (hx : Ends tape limit k s x) (hy : Ends tape limit k s y) : x = y := by
  cases hx with
  | halted _ hs =>
    cases hy with
    | halted => rfl
    | faulted _ hs' => simp [step_eq_halted_iff.mpr hs] at hs'
    | exhausted _ hs' => omega
  | faulted hk hs =>
    cases hy with
    | halted _ hs' => simp [step_eq_halted_iff.mpr hs'] at hs
    | faulted _ hs' =>
      rw [hs, Outcome.faulted.injEq] at hs'
      rw [hs']
    | exhausted => omega
  | exhausted hk hs =>
    cases hy with
    | halted => omega
    | faulted => omega
    | exhausted => rfl

/-- Before the last of some steps there is a next one.

**Proof sketch.** Induction on the steps made. The later state is reached, so the first step is
made, and so on. -/
lemma exists_next_of_after {tape : List ℕ} {j k : ℕ} {s₀ s t : State} (hjk : j < k)
    (hs : after tape j s₀ = some s) (ht : after tape k s₀ = some t) :
    ∃ s', step tape s = .next s' := by
  obtain ⟨n, rfl⟩ : ∃ n, k = n + 1 := ⟨k - 1, by omega⟩
  induction j generalizing n s₀ with
  | zero =>
    cases hs
    unfold after at ht
    split at ht
    · next s' h => exact ⟨s', h⟩
    · cases ht
  | succ j ih =>
    obtain ⟨m, rfl⟩ : ∃ m, n = m + 1 := ⟨n - 1, by omega⟩
    cases h : step tape s₀ with
    | next s' =>
      simp only [after, h] at hs ht
      exact ih hs m (by omega) ht
    | halted => simp [after, h] at hs
    | faulted f => simp [after, h] at hs

/-- The machine ends once: after one number of steps, in one state, in one way.

**Proof sketch.** A step is made in front of the later of two ends (`exists_next_of_after`), but
none where the machine has ended, so the numbers of steps are the same. -/
lemma Ends.unique {tape : List ℕ} {limit j k : ℕ} {s₀ s t : State} {x y : Except Error Unit}
    (hs : after tape j s₀ = some s) (hx : Ends tape limit j s x)
    (ht : after tape k s₀ = some t) (hy : Ends tape limit k t y) : j = k ∧ s = t ∧ x = y := by
  have hjk : j = k := by
    rcases Nat.lt_trichotomy j k with h | h | h
    · obtain ⟨s', hs'⟩ := exists_next_of_after h hs ht
      exact absurd hs' (hx.not_next (Nat.lt_of_lt_of_le h hy.le_limit))
    · exact h
    · obtain ⟨s', hs'⟩ := exists_next_of_after h ht hs
      exact absurd hs' (hy.not_next (Nat.lt_of_lt_of_le h hx.le_limit))
  subst hjk
  have hst : s = t := Option.some.inj (hs.symm.trans ht)
  subst hst
  exact ⟨rfl, rfl, hx.result_unique hy⟩

/-! ## The same steps -/

/-- The run `r` shows the state `s` that the unbounded machine has reached after `k` steps. -/
structure Represents (r : Run) (k : ℕ) (s : State) : Prop where
  a : r.config.registers.a.toNat = s.a
  b : r.config.registers.b.toNat = s.b
  c : r.config.registers.c.toNat = s.c
  pointer : r.config.pointer = s.pointer
  output : r.output.toList.map UInt8.toNat = s.output
  steps : r.steps = k

/-- The start of a run shows the start of the unbounded machine. -/
lemma represents_start (rs : Registers) : Represents (.start rs) 0 (.start rs) :=
  ⟨rfl, rfl, rfl, rfl, rfl, rfl⟩

/-- Both machines have met the same fault, or have come to configurations that correspond. -/
inductive Matches (r : Run) (k : ℕ) : Except Error Transition → Outcome → Prop where
  | fault (f : Fault) : Matches r k (.error f.error) (.faulted f)
  | next {t : Transition} {s : State} (h : Represents (r.advance t) (k + 1) s) :
      Matches r k (.ok t) (.next s)

section Matching

variable {r : Run} {k : ℕ} {s : State}

/-- An operand denotes the same number in both machines, or is reserved in both. -/
lemma combo_represents (h : Represents r k s) (x : UInt8) :
    s.combo x.toNat = ((Operand.ofCode x).value? r.config.registers).map UInt64.toNat := by
  have heq : ∀ n : UInt8, x = n ↔ x.toNat = n.toNat := fun n => UInt8.toNat_inj.symm
  unfold State.combo Operand.ofCode
  simp only [UInt8.lt_iff_toNat_lt, heq, UInt8.reduceToNat]
  split_ifs
  · simp [Operand.value?]
  · simp [Operand.value?, Registers.get, h.a]
  · simp [Operand.value?, Registers.get, h.b]
  · simp [Operand.value?, Registers.get, h.c]
  · rfl

/-- What is done with a resolved operand matches if it matches for each word that the operand
may denote. -/
lemma matches_withCombo (h : Represents r k s) (x : UInt8) {g : Word → Transition}
    {f : ℕ → State} (hgf : ∀ w : Word, Represents (r.advance (g w)) (k + 1) (f w.toNat).pass) :
    Matches r k ((r.config.resolve x).map g) (s.withCombo x.toNat f) := by
  unfold State.withCombo Config.resolve
  rw [combo_represents h x]
  cases (Operand.ofCode x).value? r.config.registers with
  | none =>
    rw [h.pointer]
    exact .fault (.reservedOperand s.pointer)
  | some w => exact .next (hgf w)

/-- A word put into a register shows the number put there. -/
lemma represents_assign (h : Represents r k s) (reg : Register) {w : Word} {n : ℕ}
    (hw : w.toNat = n) :
    Represents (r.advance (r.config.assign reg w)) (k + 1) (s.set reg n).pass := by
  obtain ⟨ha, hb, hc, hp, ho, hs⟩ := h
  cases reg <;> constructor <;>
    simp [Config.assign, Registers.set, State.set, State.pass, ha, hb, hc, hp, ho, hs, hw]

/-- A value emitted shows the number emitted. -/
lemma represents_emit (h : Represents r k s) {value : UInt8} {n : ℕ} (hn : value.toNat = n) :
    Represents (r.advance (r.config.emit value)) (k + 1)
      { s with output := s.output ++ [n] }.pass := by
  obtain ⟨ha, hb, hc, hp, ho, hs⟩ := h
  constructor <;> simp [Config.emit, State.pass, ha, hb, hc, hp, ho, hs, hn]

/-- A step that only moves to another position shows the state at that position. -/
lemma represents_move (h : Represents r k s) (pointer : ℕ) :
    Represents (r.advance ⟨{ r.config with pointer := pointer }, none⟩) (k + 1)
      { s with pointer := pointer } := by
  obtain ⟨ha, hb, hc, hp, ho, hs⟩ := h
  constructor <;> simp [ha, hb, hc, ho, hs]

/-- The quotient by a power of two is that of the numbers. -/
lemma toNat_quotient (h : Represents r k s) (w : Word) :
    (r.config.registers.a.divPow2 w).toNat = s.a / 2 ^ w.toNat := by
  rw [Word.toNat_divPow2, Nat.shiftRight_eq_div_pow, h.a]

/-- Every instruction does the same in both machines.

**Proof sketch.** By cases on the opcode. Where the operand is resolved, `matches_withCombo`
leaves the word that it denotes; what is then done with the word is division
(`toNat_quotient`) or the remainder (`Word.toNat_lowDigit`) of its number. -/
theorem execute_matches (h : Represents r k s) (i : Instruction) :
    Matches r k (r.config.execute i) (s.execute i.opcode.toCode.toNat i.operand.toNat) := by
  obtain ⟨op, x⟩ := i
  cases op with
  | adv =>
    simp only [Config.execute, Config.map_quotient]
    exact matches_withCombo h x fun w => represents_assign h .a (toNat_quotient h w)
  | bxl =>
    refine .next (represents_assign h .b ?_)
    rw [UInt64.toNat_xor, h.b, UInt8.toNat_toUInt64]
  | bst => exact matches_withCombo h x fun w => represents_assign h .b (Word.toNat_lowDigit w)
  | jnz =>
    have ha : r.config.registers.a = 0 ↔ s.a = 0 := by
      rw [← h.a, ← UInt64.toNat_inj]
      rfl
    simp only [Config.execute, Config.jump, State.execute, Opcode.toCode, UInt8.reduceToNat, ha]
    split_ifs with hzero heven
    · rw [Config.pass, State.pass, ← h.pointer]
      exact .next (represents_move h _)
    · exact .next (represents_move h _)
    · exact .fault (.misalignedJump x.toNat)
  | bxc =>
    refine .next (represents_assign h .b ?_)
    rw [UInt64.toNat_xor, h.b, h.c]
  | out =>
    exact matches_withCombo h x fun w => represents_emit h (Word.toNat_toUInt8_lowDigit w)
  | bdv =>
    simp only [Config.execute, Config.map_quotient]
    exact matches_withCombo h x fun w => represents_assign h .b (toNat_quotient h w)
  | cdv =>
    simp only [Config.execute, Config.map_quotient]
    exact matches_withCombo h x fun w => represents_assign h .c (toNat_quotient h w)

end Matching

/-! ## The same runs -/

section Runs

variable {p : Program}

/-- An instruction is fetched from the tape, where its codes stand as numbers. -/
lemma tape_of_fetch {pointer : ℕ} {i : Instruction} (h : p.fetch pointer = some i) :
    pointer < p.tape.length ∧ p.tape.getD pointer 0 = i.opcode.toCode.toNat ∧
      p.tape.getD (pointer + 1) 0 = i.operand.toNat := by
  obtain ⟨hop, hx⟩ := Program.fetch_eq_some_iff.mp h
  obtain ⟨hlt, -⟩ := Array.getElem?_eq_some_iff.mp hop
  refine ⟨by simpa [Program.tape, Program.toList] using hlt, ?_, ?_⟩
  · simp [Program.tape, Program.toList, List.getD_eq_getElem?_getD, hop]
  · simp [Program.tape, Program.toList, List.getD_eq_getElem?_getD, hx]

/-- From an even position both machines halt, both meet the same fault, or both make a step.

**Proof sketch.** Nothing is fetched off the tape, where both halt. On it, the codes fetched are
those that the unbounded machine reads, and the instruction does the same in both
(`execute_matches`). -/
lemma step_represents {r : Run} {k : ℕ} {s : State} (h : Represents r k s)
    (heven : r.config.pointer % 2 = 0) :
    p.step r.config = .halt ∧ step p.tape s = .halted ∨
      (∃ f, p.step r.config = .fault f.error ∧ step p.tape s = .faulted f) ∨
      ∃ t s', p.step r.config = .next t ∧ step p.tape s = .next s' ∧
        Represents (r.advance t) (k + 1) s' := by
  cases hi : p.fetch r.config.pointer with
  | none =>
    refine .inl ⟨Program.step_eq_halt_iff.mpr hi, step_eq_halted_iff.mpr ?_⟩
    rw [Program.fetch_eq_none_iff heven, h.pointer] at hi
    simpa [Program.tape, Program.toList, Program.size] using hi
  | some i =>
    obtain ⟨hlt, hop, hx⟩ := tape_of_fetch hi
    rw [h.pointer] at hlt hop hx
    have hstep : step p.tape s = s.execute i.opcode.toCode.toNat i.operand.toNat := by
      rw [step, if_pos hlt, hop, hx]
    have hmatch := execute_matches h i
    rw [← hstep] at hmatch
    generalize hexec : r.config.execute i = result at hmatch
    generalize hout : step p.tape s = outcome at hmatch
    cases hmatch with
    | fault f => exact .inr (.inl ⟨f, Program.step_eq_fault_iff.mpr ⟨i, hi, hexec⟩, rfl⟩)
    | next hnext =>
      exact .inr (.inr ⟨_, _, Program.step_eq_next_iff.mpr ⟨i, hi, hexec⟩, rfl, hnext⟩)

/-- A course of the machine is a course of the unbounded one.

**Proof sketch.** Induction on the steps, by `step_represents`; the position stays even. -/
theorem after_represents {n k : ℕ} {r r' : Run} {s : State} (h : Represents r k s)
    (heven : r.config.pointer % 2 = 0) (hr : p.after n r = some r') :
    ∃ s', after p.tape n s = some s' ∧ Represents r' (k + n) s' := by
  induction n generalizing r k s with
  | zero =>
    cases hr
    exact ⟨s, rfl, h⟩
  | succ n ih =>
    obtain ⟨t, ht, hr'⟩ := Program.exists_next_of_after_succ hr
    rcases step_represents (p := p) h heven with
      ⟨hstop, -⟩ | ⟨f, hstop, -⟩ | ⟨t', s', hnext, hs', h'⟩
    · simp [hstop] at ht
    · simp [hstop] at ht
    · obtain rfl : t' = t := by simpa [hnext] using ht
      have heven' : (r.advance t').config.pointer % 2 = 0 := by
        rw [Run.config_advance]
        exact Program.even_pointer_of_step heven hnext
      obtain ⟨s'', hs'', h''⟩ := ih h' heven' hr'
      refine ⟨s'', by simp [after, hs', hs''], ?_⟩
      rwa [show k + (n + 1) = k + 1 + n by omega]

/-- A run under a limit ends as the unbounded machine ends under it, and shows its state.

**Proof sketch.** A run under a limit is a course and a reason to stop, and the course is one of
the unbounded machine (`after_represents`). At its end the machines do the same
(`step_represents`), so the reason to stop is the same. -/
lemma exists_ends_of_run (p : Program) (rs : Registers) (limit : ℕ) :
    ∃ k s, after p.tape k (.start rs) = some s ∧
      Ends p.tape limit k s (p.run limit (.start rs)).1 ∧
      Represents (p.run limit (.start rs)).2 k s := by
  obtain ⟨k, hk, stop, hr, hstop, hresult⟩ := Program.run_start_eq_iff.mp
    (show p.run limit (.start rs) = ((p.run limit (.start rs)).1, (p.run limit (.start rs)).2)
      from rfl)
  obtain ⟨s, hs, h⟩ := after_represents (represents_start rs) rfl hr
  rw [Nat.zero_add] at h
  refine ⟨k, s, hs, ?_, h⟩
  rw [← hresult]
  have heven := Program.even_pointer_after (show (Run.start rs).config.pointer % 2 = 0 from rfl) hr
  rcases step_represents (p := p) h heven with ⟨hp, hs'⟩ | ⟨f, hp, hs'⟩ | ⟨t, s', hp, hs', -⟩
  · cases hstop with
    | halted => exact .halted hk (step_eq_halted_iff.mp hs')
    | faulted _ hne => simp [hp] at hne
    | exhausted _ hne => exact absurd hp hne
  · cases hstop with
    | halted hne => simp [hp] at hne
    | faulted hleft he =>
      obtain rfl : f.error = _ := by simpa [hp] using he
      exact .faulted (by omega) hs'
    | exhausted hleft _ =>
      refine .exhausted (by omega) (Nat.lt_of_not_le fun hle => ?_)
      simp [step_eq_halted_iff.mpr hle] at hs'
  · cases hstop with
    | halted hne => simp [hp] at hne
    | faulted _ hne => simp [hp] at hne
    | exhausted hleft _ =>
      refine .exhausted (by omega) (Nat.lt_of_not_le fun hle => ?_)
      simp [step_eq_halted_iff.mpr hle] at hs'

/-- However the unbounded machine ends under a limit, a run under that limit ends so too, and
shows the state in which it ends. -/
lemma run_of_ends {k limit : ℕ} {rs : Registers} {s : State} {result : Except Error Unit}
    (hs : after p.tape k (.start rs) = some s) (h : Ends p.tape limit k s result) :
    (p.run limit (.start rs)).1 = result ∧ Represents (p.run limit (.start rs)).2 k s := by
  obtain ⟨k', s', hs', h', hrep⟩ := exists_ends_of_run p rs limit
  obtain ⟨rfl, rfl, hresult⟩ := Ends.unique hs h hs' h'
  exact ⟨hresult.symm, hrep⟩

/-- Different faults are reported by different errors. -/
lemma Fault.error_injective {f g : Fault} (h : f.error = g.error) : f = g := by
  cases f <;> cases g <;> simp_all [Fault.error]

end Runs

/-- **The machine refines the unbounded one.** A run from any registers under any limit succeeds
exactly if the unbounded machine leaves the tape within the limit; it reports a fault exactly if
the unbounded machine meets that fault with a step left; and it reports the limit exactly if the
unbounded machine has made all the steps allowed and is still on the tape, whatever comes next.
However the unbounded machine ends, the run ends so too, with the same numbers in the registers,
at the same position, after the same steps and the same outputs; and end it does.

**Proof sketch.** A course of the machine is a course of the unbounded one (`after_represents`),
and at its end both have the same reason to stop (`exists_ends_of_run`). The unbounded machine
ends only once (`Ends.unique`), which gives the converses (`run_of_ends`). -/
theorem run_refines_unbounded (p : Program) (rs : Registers) (limit : ℕ) :
    let m := ((Machine.start p rs).setStepLimit limit).run
    (m.1 = .ok () ↔
      ∃ k ≤ limit, ∃ s, after p.tape k (.start rs) = some s ∧ p.tape.length ≤ s.pointer) ∧
    (∀ f : Fault, m.1 = .error f.error ↔
      ∃ k < limit, ∃ s, after p.tape k (.start rs) = some s ∧ step p.tape s = .faulted f) ∧
    (m.1 = .error (.stepLimitExceeded limit) ↔
      ∃ s, after p.tape limit (.start rs) = some s ∧ s.pointer < p.tape.length) ∧
    (∀ k s result, after p.tape k (.start rs) = some s → Ends p.tape limit k s result →
      m.1 = result ∧ Represents m.2.state k s) ∧
    ∃ k s, after p.tape k (.start rs) = some s ∧ Ends p.tape limit k s m.1 := by
  intro m
  have hall : ∀ k s result, after p.tape k (.start rs) = some s → Ends p.tape limit k s result →
      m.1 = result ∧ Represents m.2.state k s := fun k s result => run_of_ends
  obtain ⟨k₀, s₀, hs₀, hends, -⟩ := exists_ends_of_run p rs limit
  change Ends p.tape limit k₀ s₀ m.1 at hends
  refine ⟨⟨fun h => ?_, ?_⟩, fun f => ⟨fun h => ?_, ?_⟩, ⟨fun h => ?_, ?_⟩, hall,
    k₀, s₀, hs₀, hends⟩
  · rw [h] at hends
    cases hends with
    | halted hk hoff => exact ⟨k₀, hk, s₀, hs₀, hoff⟩
  · rintro ⟨k, hk, s, hs, hoff⟩
    exact (hall k s _ hs (.halted hk hoff)).1
  · rw [h] at hends
    generalize herror : f.error = e at hends
    cases hends with
    | faulted hk hfault =>
      rw [Fault.error_injective herror]
      exact ⟨k₀, hk, s₀, hs₀, hfault⟩
    | exhausted => cases f <;> cases herror
  · rintro ⟨k, hk, s, hs, hfault⟩
    exact (hall k s _ hs (.faulted hk hfault)).1
  · rw [h] at hends
    generalize herror : Error.stepLimitExceeded limit = e at hends
    cases hends with
    | @faulted f => cases f <;> cases herror
    | exhausted hk hon => exact ⟨s₀, hk ▸ hs₀, hon⟩
  · rintro ⟨s, hs, hon⟩
    exact (hall limit s _ hs (.exhausted rfl hon)).1

end Unbounded

end OctalTape

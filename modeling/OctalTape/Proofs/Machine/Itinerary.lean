import Mathlib.Data.Finset.Card
import Mathlib.Data.Nat.Count
import OctalTape.Proofs.Machine.ControlFlow
import OctalTape.Proofs.Machine.Invariant

set_option relaxedAutoImplicit false
set_option autoImplicit false

/-!
# The itinerary of a program

As long as register A is not zero every jump is taken, so the way of the machine can be read off
the tape: it is a walk that starts at its beginning and takes each jump. The walk comes to an end,
off the tape or at a jump to an odd position, or it comes back to one of its positions and goes in
a circle from there on. If it comes to an end, or if the circle shifts register A by a fixed
number of bits, then no run goes on for long: a word has no more than 64 bits to be shifted out,
and once register A is zero the machine goes straight to the end of the tape.

## Main definitions

* `OctalTape.Program.itinerary` — the positions of the walk that takes each jump.
* `OctalTape.Program.Returns` — the walk comes back to one of its positions.
* `OctalTape.Program.WindsDown` — the walk comes to an end, or its circle shifts register A.

## Main results

* `OctalTape.Program.itinerary_ends_or_returns` — the walk is over after one step for each
  instruction of the tape; so it is decidable whether a program winds down.
* `OctalTape.Program.itinerary_of_after` — the machine is on its itinerary until A is zero.
* `OctalTape.Program.lt_of_step_of_ne_zero` — a program that winds down makes few steps before A
  is zero.
* `OctalTape.Program.run_of_windsDown` — a program that winds down halts or faults.
-/

namespace OctalTape

/-! ## Shifts -/

/-- Whether an instruction shifts register A by a fixed number of bits, and by one at least. -/
def Instruction.shortens (i : Instruction) : Bool :=
  i.opcode = .adv && 1 ≤ i.operand.toNat && i.operand.toNat ≤ 3

namespace Config

variable {c : Config} {i : Instruction} {t : Transition}

/-- What is in register A never grows. -/
lemma toNat_a_le_of_execute (h : c.execute i = .ok t) :
    t.config.registers.a.toNat ≤ c.registers.a.toNat := by
  cases execute_eq_ok_iff.mp h with
  | adv => exact Word.toNat_divPow2_le _ _
  | _ => exact Nat.le_refl _

/-- A fixed shift takes half of register A at least. -/
lemma toNat_a_of_shortens (hi : i.shortens) (h : c.execute i = .ok t) :
    t.config.registers.a.toNat * 2 ≤ c.registers.a.toNat := by
  obtain ⟨op, x⟩ := i
  simp only [Instruction.shortens, Bool.and_eq_true, decide_eq_true_eq] at hi
  obtain ⟨⟨rfl, hpos⟩, hle⟩ := hi
  have hlit : x < 4 := UInt8.lt_iff_toNat_lt.mpr (Nat.lt_succ_of_le hle)
  rw [toNat_a_of_literal (fun _ => hlit) h, ← Nat.le_div_iff_mul_le Nat.two_pos]
  exact Nat.div_le_div_left (Nat.pow_le_pow_right Nat.two_pos hpos) Nat.two_pos

end Config

/-! ## The walk -/

namespace Program

variable {p : Program}

/-- Where an instruction leads if each jump is taken: nowhere off the tape, and nowhere from a
jump to an odd position. -/
def follow (p : Program) (pointer : ℕ) : Option ℕ :=
  match p.fetch pointer with
  | none => none
  | some i =>
    if i.opcode = .jnz then
      if i.operand.toNat % 2 = 0 then some i.operand.toNat else none
    else some (pointer + 2)

/-- The position after some steps from the start of the tape if each jump is taken, unless the
walk has come to its end before. -/
def itinerary (p : Program) : ℕ → Option ℕ
  | 0 => some 0
  | n + 1 => (p.itinerary n).bind p.follow

/-- Whether the instruction from which step `n` of the walk is made shifts register A by a fixed
number of bits. -/
def shortensAt (p : Program) (n : ℕ) : Bool :=
  ((p.itinerary n).bind p.fetch).any Instruction.shortens

/-- The walk is back after `j` steps where it was after `i` steps, and was back nowhere before. -/
structure Returns (p : Program) (i j : ℕ) : Prop where
  lt : i < j
  back : p.itinerary i = p.itinerary j
  goes_on : p.itinerary j ≠ none
  first : ∀ l < j, ∀ k < l, p.itinerary k ≠ p.itinerary l

/-- The walk comes to an end, or it comes back to one of its positions and an instruction on the
circle from there shifts register A by a fixed number of bits. -/
def WindsDown (p : Program) : Prop :=
  (∃ n, p.itinerary n = none) ∨ ∃ i j, p.Returns i j ∧ ∃ n, i ≤ n ∧ n < j ∧ p.shortensAt n

/-- Only an instruction leads on. -/
lemma lt_size_of_follow {pointer next : ℕ} (h : p.follow pointer = some next) :
    pointer < p.size := by
  unfold follow at h
  split at h
  · cases h
  · next i hi => exact lt_size_of_fetch hi

/-- From an even position an instruction leads to an even position. -/
lemma even_of_follow {pointer next : ℕ} (heven : pointer % 2 = 0)
    (h : p.follow pointer = some next) : next % 2 = 0 := by
  unfold follow at h
  split at h
  · cases h
  · split at h
    · split at h
      · next hx => cases h; exact hx
      · cases h
    · cases h
      omega

/-- The walk is on even positions. -/
lemma even_of_itinerary {n pointer : ℕ} (h : p.itinerary n = some pointer) :
    pointer % 2 = 0 := by
  induction n generalizing pointer with
  | zero => cases h; rfl
  | succ n ih =>
    obtain ⟨before, hbefore, hfollow⟩ := Option.bind_eq_some_iff.mp h
    exact even_of_follow (ih hbefore) hfollow

/-- A walk that goes on has been on the tape before. -/
lemma exists_itinerary_of_lt {k n : ℕ} (hgo : p.itinerary n ≠ none) (hk : k < n) :
    ∃ pointer, p.itinerary k = some pointer ∧ pointer < p.size := by
  induction n with
  | zero => omega
  | succ n ih =>
    obtain ⟨next, hnext⟩ := Option.ne_none_iff_exists'.mp hgo
    obtain ⟨pointer, hpointer, hfollow⟩ := Option.bind_eq_some_iff.mp hnext
    rcases Nat.lt_succ_iff_lt_or_eq.mp hk with hlt | rfl
    · exact ih (by rw [hpointer]; nofun) hlt
    · exact ⟨pointer, hpointer, lt_size_of_follow hfollow⟩

/-- Two parts of the walk that begin at the same position are the same. -/
lemma itinerary_add_congr {i j : ℕ} (h : p.itinerary i = p.itinerary j) (n : ℕ) :
    p.itinerary (i + n) = p.itinerary (j + n) := by
  induction n with
  | zero => exact h
  | succ n ih =>
    show (p.itinerary (i + n)).bind p.follow = (p.itinerary (j + n)).bind p.follow
    rw [ih]

/-- Where the walk has come back it goes in a circle. -/
lemma itinerary_circle {i d : ℕ} (h : p.itinerary i = p.itinerary (i + d)) (m n : ℕ) :
    p.itinerary (i + m * d + n) = p.itinerary (i + n) := by
  induction m with
  | zero => rw [Nat.zero_mul, Nat.add_zero]
  | succ m ih =>
    calc p.itinerary (i + (m + 1) * d + n)
        = p.itinerary (i + d + (m * d + n)) := by
          congr 1
          rw [Nat.add_mul]
          omega
      _ = p.itinerary (i + (m * d + n)) := (itinerary_add_congr h _).symm
      _ = p.itinerary (i + n) := by rw [← Nat.add_assoc, ih]

/-- A walk that comes to an end never comes back. -/
lemma itinerary_ne_of_ends {k l m : ℕ} (hend : p.itinerary m = none) (hkl : k < l)
    (hgo : p.itinerary l ≠ none) : p.itinerary k ≠ p.itinerary l := by
  intro hback
  -- otherwise it would be back at the same position behind its end
  obtain ⟨d, rfl⟩ : ∃ d, l = k + d := ⟨l - k, by omega⟩
  have hcircle : p.itinerary (k + (m + 1) * d) = p.itinerary k :=
    itinerary_circle hback (m + 1) 0
  have hbehind : m < k + (m + 1) * d := by
    have hle : (m + 1) * 1 ≤ (m + 1) * d := Nat.mul_le_mul_left _ (by omega)
    omega
  obtain ⟨pointer, hpointer, -⟩ := exists_itinerary_of_lt (by rwa [hcircle, hback]) hbehind
  rw [hend] at hpointer
  cases hpointer

/-! ## The length of the walk -/

/-- The walk makes no more steps from different positions than there are instructions.

**Proof sketch.** Up to its last place the walk stands on even positions of the tape, and there are
half as many of these as there are codes. Since the places differ, none is counted twice. -/
lemma two_mul_le_size {n : ℕ} (hgo : p.itinerary n ≠ none)
    (hdistinct : ∀ l < n, ∀ k < l, p.itinerary k ≠ p.itinerary l) : 2 * n ≤ p.size := by
  have hinj : Set.InjOn p.itinerary (Finset.range n) := by
    intro k hk l hl heq
    rw [Finset.coe_range, Set.mem_Iio] at hk hl
    rcases Nat.lt_trichotomy k l with hlt | rfl | hlt
    · exact absurd heq (hdistinct l hl k hlt)
    · rfl
    · exact absurd heq.symm (hdistinct k hk l hlt)
  have hon : (Finset.range n).image p.itinerary ⊆
      (Finset.range (p.size / 2)).image fun k => some (2 * k) := by
    intro place hplace
    obtain ⟨k, hk, rfl⟩ := Finset.mem_image.mp hplace
    obtain ⟨pointer, hpointer, hlt⟩ := exists_itinerary_of_lt hgo (Finset.mem_range.mp hk)
    have heven := even_of_itinerary hpointer
    have hsize : p.size % 2 = 0 := p.even_size
    refine Finset.mem_image.mpr ⟨pointer / 2, Finset.mem_range.mpr (by omega), ?_⟩
    rw [hpointer, Nat.mul_div_cancel' (Nat.dvd_of_mod_eq_zero heven)]
  have hcount : n ≤ p.size / 2 :=
    calc n = ((Finset.range n).image p.itinerary).card := by
          rw [Finset.card_image_of_injOn hinj, Finset.card_range]
      _ ≤ ((Finset.range (p.size / 2)).image fun k => some (2 * k)).card :=
          Finset.card_le_card hon
      _ ≤ (Finset.range (p.size / 2)).card := Finset.card_image_le
      _ = p.size / 2 := Finset.card_range _
  omega

/-- A walk that comes to an end makes no more steps than there are instructions. -/
lemma two_mul_le_size_of_ends {m n : ℕ} (hend : p.itinerary m = none)
    (hgo : p.itinerary n ≠ none) : 2 * n ≤ p.size := by
  refine two_mul_le_size hgo fun l hl k hkl => itinerary_ne_of_ends hend hkl ?_
  obtain ⟨pointer, hpointer, -⟩ := exists_itinerary_of_lt hgo hl
  simp [hpointer]

/-- A walk comes back after no more steps than there are instructions. -/
lemma Returns.two_mul_le_size {i j : ℕ} (h : p.Returns i j) : 2 * j ≤ p.size :=
  Program.two_mul_le_size h.goes_on h.first

/-- The walk of a program is over after one step for each instruction: it has come to an end, or
it has come back.

**Proof sketch.** If the walk goes on, its positions up to there are not all different, for there
are too many of them. Take the first one at which it has been before. -/
theorem itinerary_ends_or_returns (p : Program) :
    p.itinerary (p.size / 2 + 1) = none ∨ ∃ i j, p.Returns i j := by
  by_cases hend : p.itinerary (p.size / 2 + 1) = none
  · exact .inl hend
  have hback : ∃ j, j < p.size / 2 + 1 ∧ ∃ i < j, p.itinerary i = p.itinerary j := by
    by_contra hnone
    have hle := Program.two_mul_le_size hend
      fun l hl k hkl heq => hnone ⟨l, hl, k, hkl, heq⟩
    omega
  classical
  obtain ⟨hj, i, hij, hi⟩ := Nat.find_spec hback
  obtain ⟨pointer, hpointer, -⟩ := exists_itinerary_of_lt hend hj
  refine .inr ⟨i, Nat.find hback, hij, hi, by rw [hpointer]; nofun, fun l hl k hkl heq => ?_⟩
  exact Nat.find_min hback hl ⟨by omega, k, hkl, heq⟩

/-- Whether a program winds down can be seen from as many steps of the walk as there are
instructions.

**Proof sketch.** A walk that comes to an end, or back, does so within that many steps
(`two_mul_le_size_of_ends`, `Returns.two_mul_le_size`). -/
lemma windsDown_iff : p.WindsDown ↔
    p.itinerary (p.size / 2 + 1) = none ∨ ∃ j : Fin (p.size / 2 + 1), ∃ i : Fin j.val,
      p.Returns i j ∧ ∃ n : Fin j.val, i.val ≤ n.val ∧ p.shortensAt n.val := by
  constructor
  · rintro (⟨n, hend⟩ | ⟨i, j, hback, n, hin, hnj, hshort⟩)
    · left
      by_contra hgo
      have hle := two_mul_le_size_of_ends hend hgo
      omega
    · have hj := hback.two_mul_le_size
      exact .inr ⟨⟨j, by omega⟩, ⟨i, hback.lt⟩, hback, ⟨n, hnj⟩, hin, hshort⟩
  · rintro (hend | ⟨j, i, hback, n, hin, hshort⟩)
    · exact .inl ⟨_, hend⟩
    · exact .inr ⟨i, j, hback, n, hin, n.isLt, hshort⟩

instance (p : Program) (i j : ℕ) : Decidable (p.Returns i j) :=
  decidable_of_iff (i < j ∧ p.itinerary i = p.itinerary j ∧ p.itinerary j ≠ none ∧
      ∀ l < j, ∀ k < l, p.itinerary k ≠ p.itinerary l)
    ⟨fun ⟨hlt, hback, hgo, hfirst⟩ => ⟨hlt, hback, hgo, hfirst⟩,
      fun ⟨hlt, hback, hgo, hfirst⟩ => ⟨hlt, hback, hgo, hfirst⟩⟩

instance (p : Program) : Decidable p.WindsDown := decidable_of_iff _ windsDown_iff.symm

/-! ## The machine on its itinerary -/

/-- As long as register A is not zero, a step of the machine is one of the walk. -/
lemma follow_of_step {c : Config} {t : Transition} (ha : c.registers.a ≠ 0)
    (h : p.step c = .next t) : p.follow c.pointer = some t.config.pointer := by
  obtain ⟨i, hi, hexec⟩ := step_eq_next_iff.mp h
  unfold follow
  rw [hi]
  cases Config.execute_eq_ok_iff.mp hexec with
  | pass hzero => exact absurd hzero ha
  | jump _ hx => simp [hx]
  | _ => rfl

/-- From its itinerary a step leads the machine to the next position of it. -/
lemma itinerary_succ_of_step {c : Config} {t : Transition} {n : ℕ}
    (hon : p.itinerary n = some c.pointer) (ha : c.registers.a ≠ 0) (h : p.step c = .next t) :
    p.itinerary (n + 1) = some t.config.pointer := by
  show (p.itinerary n).bind p.follow = _
  rw [hon]
  exact follow_of_step ha h

/-- Register A is halved by each fixed shift, and never grows. -/
lemma toNat_a_mul_pow_le {c : Config} {t : Transition} {n : ℕ}
    (hon : p.itinerary n = some c.pointer) (h : p.step c = .next t) :
    t.config.registers.a.toNat * 2 ^ (if p.shortensAt n then 1 else 0) ≤
      c.registers.a.toNat := by
  obtain ⟨i, hi, hexec⟩ := step_eq_next_iff.mp h
  have hshort : p.shortensAt n = i.shortens := by simp [shortensAt, hon, hi]
  rw [hshort]
  split
  · next hs => exact Config.toNat_a_of_shortens hs hexec
  · rw [Nat.pow_zero, Nat.mul_one]
    exact Config.toNat_a_le_of_execute hexec

/-- As long as register A is not zero the machine is on its itinerary, and A has been halved by
each fixed shift on it.

**Proof sketch.** Induction on the steps. Register A has not been zero before, for it would still
be (`Config.execute_of_a_eq_zero`), so the last step is one of the walk. -/
theorem itinerary_of_after {n : ℕ} {rs : Registers} {s : Run}
    (hs : p.after n (.start rs) = some s) (ha : s.config.registers.a ≠ 0) :
    p.itinerary n = some s.config.pointer ∧
      s.config.registers.a.toNat * 2 ^ Nat.count (p.shortensAt ·) n ≤ rs.a.toNat := by
  induction n generalizing s with
  | zero =>
    cases hs
    exact ⟨rfl, by simp [Run.start, Config.start]⟩
  | succ n ih =>
    obtain ⟨u, t, hu, ht, rfl⟩ := exists_last_of_after_succ hs
    rw [Run.config_advance] at ha ⊢
    have hua : u.config.registers.a ≠ 0 := by
      intro hzero
      obtain ⟨i, -, hexec⟩ := step_eq_next_iff.mp ht
      exact ha (Config.execute_of_a_eq_zero hzero hexec).1
    obtain ⟨hon, hle⟩ := ih hu hua
    refine ⟨itinerary_succ_of_step hon hua ht, ?_⟩
    rw [Nat.count_succ, Nat.add_comm, Nat.pow_add, ← Nat.mul_assoc]
    exact (Nat.mul_le_mul_right _ (toNat_a_mul_pow_le hon ht)).trans hle

/-- There are less than as many fixed shifts as a word has bits before register A is zero. -/
lemma count_shortensAt_lt {n : ℕ} {rs : Registers} {s : Run}
    (hs : p.after n (.start rs) = some s) (ha : s.config.registers.a ≠ 0) :
    Nat.count (p.shortensAt ·) n < 64 := by
  obtain ⟨-, hle⟩ := itinerary_of_after hs ha
  have hpos : 1 ≤ s.config.registers.a.toNat :=
    Nat.one_le_iff_ne_zero.mpr fun hzero => ha (UInt64.toNat_inj.mp hzero)
  have hpow : 2 ^ Nat.count (p.shortensAt ·) n < 2 ^ 64 :=
    calc 2 ^ Nat.count (p.shortensAt ·) n
        ≤ s.config.registers.a.toNat * 2 ^ Nat.count (p.shortensAt ·) n :=
          Nat.le_mul_of_pos_left _ hpos
      _ ≤ rs.a.toNat := hle
      _ < 2 ^ 64 := rs.a.toNat_lt
  exact (Nat.pow_lt_pow_iff_right (by decide)).mp hpow

/-- Going round a circle that shifts register A some times shifts it as often.

**Proof sketch.** Induction on the times round. The instruction is met again at the same place of
each circle (`itinerary_circle`), so one more circle counts it once more. -/
lemma Returns.le_count_shortensAt {i j n : ℕ} (h : p.Returns i j) (hin : i ≤ n) (hnj : n < j)
    (hshort : p.shortensAt n) (m : ℕ) :
    m ≤ Nat.count (p.shortensAt ·) (i + m * (j - i)) := by
  have hback : p.itinerary i = p.itinerary (i + (j - i)) := by
    rw [Nat.add_sub_cancel' (Nat.le_of_lt h.lt)]
    exact h.back
  have hwithin : n - i < j - i := by omega
  induction m with
  | zero => exact Nat.zero_le _
  | succ m ih =>
    have hsame : p.shortensAt (i + m * (j - i) + (n - i)) := by
      unfold shortensAt
      rw [itinerary_circle hback, Nat.add_sub_cancel' hin]
      exact hshort
    calc m ≤ Nat.count (p.shortensAt ·) (i + m * (j - i)) := ih
      _ ≤ Nat.count (p.shortensAt ·) (i + m * (j - i) + (n - i)) :=
        Nat.count_monotone _ (Nat.le_add_right _ _)
      _ < Nat.count (p.shortensAt ·) (i + (m + 1) * (j - i)) := by
        refine Nat.count_strict_mono hsame ?_
        rw [Nat.add_mul]
        omega

/-- A step that a program which winds down makes while register A is not zero is one of its first
`32 * p.size` steps.

**Proof sketch.** The step is one of the walk. If the walk comes to an end, it makes no more steps
than there are instructions. If it comes back after `j` steps where it was after `i` steps, then
`64` rounds of `j - i` steps would shift out all bits that a word has, and `j` is no more than the
number of instructions. -/
theorem lt_of_step_of_ne_zero (h : p.WindsDown) {n : ℕ} {rs : Registers} {s : Run} {t : Transition}
    (hs : p.after n (.start rs) = some s) (ha : s.config.registers.a ≠ 0)
    (ht : p.step s.config = .next t) : n < 32 * p.size := by
  rcases h with ⟨m, hend⟩ | ⟨i, j, hback, k, hik, hkj, hshort⟩
  · obtain ⟨hon, -⟩ := itinerary_of_after hs ha
    have hnext := itinerary_succ_of_step hon ha ht
    have hle := two_mul_le_size_of_ends hend (show p.itinerary (n + 1) ≠ none by rw [hnext]; nofun)
    omega
  · have hj := hback.two_mul_le_size
    have hij := hback.lt
    refine Nat.lt_of_lt_of_le (Nat.lt_of_not_le fun hle => ?_)
      (show i + 64 * (j - i) ≤ 32 * p.size by omega)
    have hmany : 64 ≤ Nat.count (p.shortensAt ·) n :=
      (hback.le_count_shortensAt hik hkj hshort 64).trans (Nat.count_monotone _ hle)
    exact Nat.not_lt_of_le hmany (count_shortensAt_lt hs ha)

/-! ## Runs of programs that wind down -/

/-- A program that winds down makes at most `65` steps for each of its instructions.

**Proof sketch.** Induction on the steps. The steps that are made before register A is zero are
bounded by `lt_of_step_of_ne_zero`. From there on each step leads to the next instruction, so the
position bounds the number of the others. -/
theorem two_mul_steps_le (h : p.WindsDown) {n : ℕ} {rs : Registers} {s : Run}
    (hs : p.after n (.start rs) = some s) : 2 * n ≤ 65 * p.size := by
  have hbound : n ≤ 32 * p.size ∨ s.config.registers.a = 0 ∧ s.config.pointer ≤ p.size ∧
      2 * n ≤ 64 * p.size + s.config.pointer := by
    induction n generalizing s with
    | zero => exact .inl (Nat.zero_le _)
    | succ n ih =>
      obtain ⟨u, t, hu, ht, rfl⟩ := exists_last_of_after_succ hs
      by_cases ha : u.config.registers.a = 0
      · right
        obtain ⟨i, hi, hexec⟩ := step_eq_next_iff.mp ht
        obtain ⟨hzero, hpointer⟩ := Config.execute_of_a_eq_zero ha hexec
        have hsize := add_two_le_size_of_fetch hi
        rw [Run.config_advance, hpointer]
        refine ⟨hzero, hsize, ?_⟩
        rcases ih hu with hle | ⟨-, -, hle⟩ <;> omega
      · exact .inl (lt_of_step_of_ne_zero h hu ha ht)
  rcases hbound with hle | ⟨-, hpointer, hle⟩ <;> omega

/-- **A halting criterion that is read off the tape.** Take each jump on the way through the tape
from its start. If this walk comes to an end, off the tape or at a jump to an odd position, or if
it comes back to one of its positions and an instruction on the circle from there shifts register
A by one, two or three bits, then from any contents of the registers and under any limit of at
least `33` steps for each code of the tape the machine halts, or it faults for a reserved operand
or a jump to an odd position. It does so within `33` steps for each code, and so never for its
limit.

**Proof sketch.** The run is a course and a reason to stop, and the course is bounded by
`two_mul_steps_le`. So the limit leaves a step wherever an instruction is fetched, and the reason
is a halt or one of the two faults. -/
theorem run_of_windsDown (h : p.WindsDown) (rs : Registers) {limit : ℕ}
    (hlimit : 33 * p.size ≤ limit) :
    let run := p.run limit (.start rs)
    run.2.steps ≤ 33 * p.size ∧
      (run.1 = .ok () ∨ (∃ pointer, run.1 = .error (.reservedOperand pointer)) ∨
        ∃ target, run.1 = .error (.misalignedJump target)) ∧
      ∀ n, run.1 ≠ .error (.stepLimitExceeded n) := by
  intro run
  obtain ⟨k, s, stop, -, hs, hstop, hrun⟩ := exists_stops_of_run p limit (.start rs)
  have hsteps : s.steps = k := (steps_after hs).trans (Nat.zero_add k)
  have hk := two_mul_steps_le h hs
  have hreport : run.1 = .ok () ∨ (∃ pointer, run.1 = .error (.reservedOperand pointer)) ∨
      ∃ target, run.1 = .error (.misalignedJump target) := by
    simp only [run, hrun]
    cases hstop with
    | halted => exact .inl rfl
    | faulted _ hfault =>
      obtain ⟨i, -, he⟩ := step_eq_fault_iff.mp hfault
      rcases Config.execute_eq_error_iff.mp he with ⟨-, -, rfl⟩ | ⟨-, -, -, rfl⟩
      · exact .inr (.inl ⟨_, rfl⟩)
      · exact .inr (.inr ⟨_, rfl⟩)
    | exhausted hleft hgo =>
      -- only an empty tape could leave no step at all, and there nothing is fetched
      obtain ⟨i, hi⟩ := Option.ne_none_iff_exists'.mp (mt step_eq_halt_iff.mpr hgo)
      have hsize := lt_size_of_fetch hi
      omega
  refine ⟨?_, hreport, fun n hn => ?_⟩
  · simp only [run, hrun, hsteps]
    omega
  · rw [hn] at hreport
    rcases hreport with hok | ⟨_, herror⟩ | ⟨_, herror⟩
    · cases hok
    · cases herror
    · cases herror

/-- A program whose walk jumps forward at first and then goes in a circle with two jumps, on
which register A is halved. -/
def circlingTape : Program := ⟨#[3, 4, 5, 5, 0, 1, 3, 2], rfl, by simp⟩

/-- From the greatest word the circling tape halts, or faults, within `264` steps. -/
theorem run_circlingTape :
    let run := circlingTape.run 264 (.start ⟨18446744073709551615, 7, 9⟩)
    circlingTape.WindsDown ∧ 33 * circlingTape.size ≤ 264 ∧ run.2.steps ≤ 264 ∧
      ∀ n, run.1 ≠ .error (.stepLimitExceeded n) := by
  intro run
  have hwinds : circlingTape.WindsDown := by decide
  have hlimit : 33 * circlingTape.size ≤ 264 := by decide
  obtain ⟨hsteps, -, hne⟩ := run_of_windsDown hwinds ⟨18446744073709551615, 7, 9⟩ hlimit
  exact ⟨hwinds, hlimit, hsteps, hne⟩

/-- A program that emits register A for ever does not wind down. -/
example : ¬ WindsDown ⟨#[5, 4, 3, 0], rfl, by simp⟩ := by decide

end Program

end OctalTape

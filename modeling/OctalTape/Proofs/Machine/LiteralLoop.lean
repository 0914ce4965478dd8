import Mathlib.Data.Nat.Find
import Mathlib.Tactic.ByContra
import OctalTape.Proofs.Machine.StraightLine

set_option relaxedAutoImplicit false
set_option autoImplicit false

/-!
# Loops with literal shifts

If register A is divided by fixed powers of two only and no jump leads forward, a program has
one loop at most. Its first jump leads back until A is zero, and then no jump is taken any more.
So a run goes through the code in front of the loop once, through the body of the loop until its
shifts have exhausted A, and once through the code behind it. What else is in the registers
matters neither for the length of the run nor for the number of its outputs.

## Main definitions

* `OctalTape.Program.LiteralBackward` — fixed shifts, and no jump forward.
* `OctalTape.LiteralLoop` — the code in front of the first jump's target, between the two, and
  behind the jump.
* `OctalTape.LiteralLoop.Exhausts` — how many passes of the loop exhaust a number.

## Main results

* `OctalTape.Program.exists_after_of_carries` — code without a jump that is taken is gone through
  from its first to its last instruction.
* `OctalTape.Program.LiteralBackward.fixed_of_outputOf` — a program with one run that halts has
  no instruction that can fault.
* `OctalTape.LiteralLoop.exists_after_passes` — several passes.
* `OctalTape.LiteralLoop.outputOf_length_iff` — exactly when a run halts within a limit, and how
  many values it emits.
* `OctalTape.Program.LiteralBackward.exists_literalLoop` — a program that only jumps back is free
  of jumps, or it is a loop.
-/

namespace OctalTape

namespace Instruction

/-- An instruction that resolves no reserved operand and shifts register A, if at all, by a fixed
number of bits. -/
structure Fixed (i : Instruction) : Prop where
  literal : i.opcode = .adv → i.operand < 4
  unreserved : i.opcode.resolves → i.operand.toNat < 7

/-- By how many bits some instructions shift register A together. -/
def totalShift : List Instruction → ℕ
  | [] => 0
  | i :: is => i.shift + totalShift is

/-- How many values some instructions emit together. -/
def outputs (is : List Instruction) : ℕ := is.countP (·.opcode = .out)

end Instruction

open Instruction (totalShift outputs)

namespace Program

variable {p : Program}

/-! ## Going through code -/

/-- Code of fixed instructions is gone through from its first to its last, if it has no jump or if
register A is exhausted.

**Proof sketch.** Induction on the code. Its first instruction leads behind itself
(`Config.exists_execute_of_pass`), and an exhausted register A stays so. -/
theorem exists_after_of_carries {r : Run} {is : List Instruction}
    (hcarry : p.Carries r.config.pointer is) (hfixed : ∀ i ∈ is, i.Fixed)
    (hpass : (∀ i ∈ is, i.opcode ≠ .jnz) ∨ r.config.registers.a = 0) :
    ∃ s, p.after is.length r = some s ∧
      s.config.pointer = r.config.pointer + 2 * is.length ∧
      s.config.registers.a.toNat = r.config.registers.a.toNat / 2 ^ totalShift is ∧
      s.output.size = r.output.size + outputs is := by
  induction is generalizing r with
  | nil => exact ⟨r, rfl, by simp, by simp [totalShift], by simp [outputs]⟩
  | cons i is ih =>
    obtain ⟨hfetch, hcarry⟩ := hcarry
    obtain ⟨t, ht, hp⟩ := Config.exists_execute_of_pass (c := r.config)
      (hfixed i (by simp)).unreserved fun hj => hpass.resolve_left fun hno => hno i (by simp) hj
    have ha := Config.toNat_a_of_literal (hfixed i (by simp)).literal ht
    have hpass' : (∀ j ∈ is, j.opcode ≠ .jnz) ∨ (r.advance t).config.registers.a = 0 := by
      refine hpass.imp (fun hno j hj => hno j (by simp [hj])) fun hzero => ?_
      rw [Run.config_advance, ← UInt64.toNat_inj, ha, hzero]
      exact Nat.zero_div _
    obtain ⟨s, hs, hsp, hsa, hout⟩ := ih (r := r.advance t)
      (by rwa [Run.config_advance, hp]) (fun j hj => hfixed j (by simp [hj])) hpass'
    refine ⟨s, ?_, ?_, ?_, ?_⟩
    · rw [List.length_cons, after_succ_of_next (step_eq_next_iff.mpr ⟨i, hfetch, ht⟩), hs]
    · rw [hsp, Run.config_advance, hp, List.length_cons]
      omega
    · rw [hsa, Run.config_advance, ha, Nat.div_div_eq_div_mul, ← Nat.pow_add]
      rfl
    · rw [hout, ← Array.length_toList, Run.toList_output_advance, List.length_append,
        Config.length_emitted_of_execute ht, Array.length_toList, outputs, outputs,
        List.countP_cons]
      simp only [decide_eq_true_eq]
      omega

/-- A tape carries the instructions that are fetched from its even positions.

**Proof sketch.** Induction on the number of instructions, counted from the end of the tape. In
front of those that are carried, an even position on the tape holds another. -/
lemma exists_carries (p : Program) :
    ∃ is, p.Carries 0 is ∧ p.size = 2 * is.length := by
  have hfrom : ∀ k, 2 * k ≤ p.size → ∃ is, is.length = k ∧ p.Carries (p.size - 2 * k) is := by
    intro k
    induction k with
    | zero => exact fun _ => ⟨[], rfl, trivial⟩
    | succ k ih =>
      intro hk
      obtain ⟨is, rfl, his⟩ := ih (by omega)
      have heven : (p.size - 2 * (is.length + 1)) % 2 = 0 := by
        have hsize : p.size % 2 = 0 := p.even_size
        omega
      have hsome : p.fetch (p.size - 2 * (is.length + 1)) ≠ none := by
        rw [Ne, fetch_eq_none_iff heven]
        omega
      obtain ⟨i, hi⟩ := Option.ne_none_iff_exists'.mp hsome
      refine ⟨i :: is, rfl, hi, ?_⟩
      rwa [show p.size - 2 * (is.length + 1) + 2 = p.size - 2 * is.length by omega]
  have heven : p.size % 2 = 0 := p.even_size
  obtain ⟨is, hlen, his⟩ := hfrom (p.size / 2) (by omega)
  rw [show p.size - 2 * (p.size / 2) = 0 by omega] at his
  exact ⟨is, his, by omega⟩

/-- Each instruction that a tape carries from its start is fetched from an even position. -/
lemma Carries.fetch {pointer : ℕ} {is : List Instruction} (h : p.Carries pointer is)
    {i : Instruction} (hi : i ∈ is) :
    ∃ k < is.length, p.fetch (pointer + 2 * k) = some i := by
  obtain ⟨before, behind, rfl⟩ := List.append_of_mem hi
  obtain ⟨-, hfetch, -⟩ := carries_append_iff.mp h
  exact ⟨before.length, by simp, hfetch⟩

/-! ## Programs that only jump back -/

/-- Register A is divided by fixed powers of two only, and each jump leads to an even position
that is not behind it. -/
structure LiteralBackward (p : Program) : Prop where
  literal : ∀ {pointer x}, pointer % 2 = 0 → p.fetch pointer = some ⟨.adv, x⟩ → x.toNat ≤ 3
  backward : ∀ {pointer x}, pointer % 2 = 0 → p.fetch pointer = some ⟨.jnz, x⟩ →
    x.toNat % 2 = 0 ∧ x.toNat ≤ pointer

namespace LiteralBackward

/-- What the shifts and jumps of a program have to be is asked of each instruction on its tape.

**Proof sketch.** Instructions are fetched from the even positions of the tape, which are those of
the form `2 * k` for `k` below half its size. -/
lemma iff_forall_fetch : p.LiteralBackward ↔ ∀ k : Fin (p.size / 2),
    (p.fetch (2 * k.val)).all fun i => (i.opcode = .adv → i.operand.toNat ≤ 3) ∧
      (i.opcode = .jnz → i.operand.toNat % 2 = 0 ∧ i.operand.toNat ≤ 2 * k.val) := by
  simp only [Option.all_eq_true, decide_eq_true_eq]
  constructor
  · rintro h k ⟨op, x⟩ hfetch
    refine ⟨?_, ?_⟩
    · rintro rfl
      exact h.literal (by omega) hfetch
    · rintro rfl
      exact h.backward (by omega) hfetch
  · intro h
    have hindex : ∀ {pointer i}, pointer % 2 = 0 → p.fetch pointer = some i →
        ∃ k : Fin (p.size / 2), 2 * k.val = pointer := by
      intro pointer i heven hfetch
      have hsize : p.size % 2 = 0 := p.even_size
      have hlt := lt_size_of_fetch hfetch
      exact ⟨⟨pointer / 2, by omega⟩, by simp only; omega⟩
    constructor
    · intro pointer x heven hfetch
      obtain ⟨k, rfl⟩ := hindex heven hfetch
      exact (h k _ hfetch).1 rfl
    · intro pointer x heven hfetch
      obtain ⟨k, rfl⟩ := hindex heven hfetch
      exact (h k _ hfetch).2 rfl

instance (p : Program) : Decidable p.LiteralBackward := decidable_of_iff _ iff_forall_fetch.symm

/-- Where nothing leads forward past an instruction that faults, no run gets behind it.

**Proof sketch.** The invariant is that the position is even and not behind the instruction. No
step is made from its position, a step from before leads to it at most, and a jump leads back. -/
lemma pointer_le_of_reserved (h : p.LiteralBackward) {pointer : ℕ} {i : Instruction}
    (hfetch : p.fetch pointer = some i) (hres : i.opcode.resolves) (hx : 7 ≤ i.operand.toNat)
    (heven : pointer % 2 = 0) {n : ℕ} {rs : Registers} {s : Run}
    (hs : p.after n (.start rs) = some s) : s.config.pointer ≤ pointer := by
  refine (after_invariant (P := fun r => r.config.pointer % 2 = 0 ∧ r.config.pointer ≤ pointer)
    (fun r t hr ht => ?_) ⟨rfl, Nat.zero_le _⟩ hs).2
  obtain ⟨hreven, hle⟩ := hr
  rw [Run.config_advance]
  refine ⟨even_pointer_of_step hreven ht, ?_⟩
  obtain ⟨j, hj, hexec⟩ := step_eq_next_iff.mp ht
  have hne : r.config.pointer ≠ pointer := by
    intro heq
    rw [heq, hfetch, Option.some.injEq] at hj
    subst hj
    have herror := Config.execute_eq_error_iff (c := r.config).mpr (.inl ⟨hres, hx, rfl⟩)
    rw [herror] at hexec
    cases hexec
  rcases Config.pointer_of_execute hexec with hp | ⟨hjnz, -, -, rfl⟩
  · omega
  · obtain ⟨op, x⟩ := j
    obtain rfl : op = .jnz := hjnz
    exact Nat.le_trans (h.backward hreven hj).2 hle

/-- If one run halts, no instruction of the program can fault, and all shifts are fixed.

**Proof sketch.** A run that halts is behind the tape. It cannot have come past an instruction that
faults (`pointer_le_of_reserved`), so there is none. -/
lemma fixed_of_outputOf (h : p.LiteralBackward) {limit : ℕ} {a : Word} {output : List UInt8}
    (hout : p.outputOf limit a = .ok output) {pointer : ℕ} {i : Instruction}
    (heven : pointer % 2 = 0) (hfetch : p.fetch pointer = some i) : i.Fixed where
  literal := by
    intro hadv
    obtain ⟨op, x⟩ := i
    obtain rfl : op = .adv := hadv
    have hx := h.literal heven hfetch
    rw [UInt8.lt_iff_toNat_lt]
    exact Nat.lt_of_le_of_lt hx (by decide)
  unreserved := by
    intro hres
    refine Nat.lt_of_not_le fun hx => ?_
    obtain ⟨k, -, s, hs, hhalt, -⟩ := outputOf_eq_ok_iff.mp hout
    have hle := h.pointer_le_of_reserved hfetch hres hx heven hs
    have hseven : s.config.pointer % 2 = 0 := even_pointer_after rfl hs
    have hoff := (fetch_eq_none_iff hseven).mp (step_eq_halt_iff.mp hhalt)
    exact Nat.not_le_of_lt (lt_size_of_fetch hfetch) (Nat.le_trans hoff hle)

end LiteralBackward

end Program

/-! ## One loop -/

/-- A program that goes through `front` once, then through `body` until register A is zero, and
then through `back`. -/
structure LiteralLoop (p : Program) (front body back : List Instruction) : Prop where
  /-- The first jump is the one behind the body, and leads to its start. -/
  carries : ∃ x : UInt8, x.toNat = 2 * front.length ∧
    p.Carries 0 (front ++ (body ++ ⟨.jnz, x⟩ :: back))
  /-- There is nothing else on the tape. -/
  size_eq : p.size = 2 * (front.length + body.length + 1 + back.length)
  /-- There is no jump before. -/
  no_jump : ∀ i ∈ front ++ body, i.opcode ≠ .jnz
  /-- No instruction faults, and all shifts are fixed. -/
  fixed : ∀ i ∈ front ++ (body ++ back), i.Fixed

namespace LiteralLoop

open Program

variable {p : Program} {front body back : List Instruction}

/-- The passes of a loop that exhaust a number: `m` of them shift out all of its bits, the shift
by `first` bits in front of them included, and fewer do not. There is always one pass. -/
structure Exhausts (first each a m : ℕ) : Prop where
  pos : 1 ≤ m
  lt : a < 2 ^ (first + m * each)
  le : ∀ k, 1 ≤ k → k < m → 2 ^ (first + k * each) ≤ a

/-- The jump is a fixed instruction too. -/
lemma fixed_jump (x : UInt8) : Instruction.Fixed ⟨.jnz, x⟩ := ⟨nofun, nofun⟩

/-- The body is gone through from its start to the jump behind it. -/
lemma exists_after_body (h : LiteralLoop p front body back) {r : Run}
    (hr : r.config.pointer = 2 * front.length) :
    ∃ s, p.after body.length r = some s ∧
      s.config.pointer = 2 * front.length + 2 * body.length ∧
      s.config.registers.a.toNat = r.config.registers.a.toNat / 2 ^ totalShift body ∧
      s.output.size = r.output.size + outputs body := by
  obtain ⟨x, -, hcarry⟩ := h.carries
  obtain ⟨hbody, -⟩ := carries_append_iff.mp (carries_append_iff.mp hcarry).2
  rw [Nat.zero_add, ← hr] at hbody
  rw [← hr]
  exact exists_after_of_carries hbody
    (fun i hi => h.fixed i (List.mem_append_right _ (List.mem_append_left _ hi)))
    (.inl fun i hi => h.no_jump i (List.mem_append_right _ hi))

/-- A pass that does not exhaust register A leads back to the start of the body.

**Proof sketch.** The body divides register A by its shifts (`exists_after_body`), and leaves it
above zero, so the jump behind the body is taken. -/
lemma exists_after_pass (h : LiteralLoop p front body back) {r : Run}
    (hr : r.config.pointer = 2 * front.length)
    (ha : 2 ^ totalShift body ≤ r.config.registers.a.toNat) :
    ∃ s, p.after (body.length + 1) r = some s ∧ s.config.pointer = 2 * front.length ∧
      s.config.registers.a.toNat = r.config.registers.a.toNat / 2 ^ totalShift body ∧
      s.output.size = r.output.size + outputs body := by
  obtain ⟨x, hx, hcarry⟩ := h.carries
  obtain ⟨-, hjump, -⟩ := carries_append_iff.mp (carries_append_iff.mp hcarry).2
  obtain ⟨s, hs, hsp, hsa, hout⟩ := h.exists_after_body hr
  have hne : s.config.registers.a ≠ 0 := by
    intro hzero
    have hpos := Nat.div_pos ha (Nat.two_pow_pos _)
    rw [← hsa, hzero] at hpos
    exact Nat.lt_irrefl 0 hpos
  have hfetch : p.fetch s.config.pointer = some ⟨.jnz, x⟩ := by
    rw [hsp, ← hjump, Nat.zero_add]
  have hstep : p.step s.config = .next ⟨{ s.config with pointer := x.toNat }, none⟩ :=
    step_of_jnz_of_a_ne_zero hfetch hne (by rw [hx, Nat.mul_mod_right])
  refine ⟨s.advance ⟨{ s.config with pointer := x.toNat }, none⟩, ?_, hx, hsa, hout⟩
  rw [after_add_of_eq hs, after_succ_of_next hstep, after_zero]

/-- After some passes that do not exhaust the seed the machine stands at the start of the body.

**Proof sketch.** Induction on the passes. The code in front of the loop is gone through once.
Behind each pass the jump is taken, because A is not exhausted yet (`exists_after_pass`). -/
theorem exists_after_passes (h : LiteralLoop p front body back) (a : Word) {m : ℕ}
    (hm : ∀ k, 1 ≤ k → k ≤ m → 2 ^ (totalShift front + k * totalShift body) ≤ a.toNat) :
    ∃ s, p.after (front.length + m * (body.length + 1)) (.start (.ofSeed a)) = some s ∧
      s.config.pointer = 2 * front.length ∧
      s.config.registers.a.toNat =
        a.toNat / 2 ^ (totalShift front + m * totalShift body) ∧
      s.output.size = outputs front + m * outputs body := by
  induction m with
  | zero =>
    obtain ⟨x, -, hcarry⟩ := h.carries
    obtain ⟨s, hs, hsp, hsa, hout⟩ :=
      exists_after_of_carries (r := .start (.ofSeed a)) (carries_append_iff.mp hcarry).1
        (fun i hi => h.fixed i (List.mem_append_left _ hi))
        (.inl fun i hi => h.no_jump i (List.mem_append_left _ hi))
    simp only [Nat.zero_mul, Nat.add_zero]
    exact ⟨s, hs, hsp.trans (Nat.zero_add _), hsa, hout.trans (Nat.zero_add _)⟩
  | succ m ih =>
    obtain ⟨r, hr, hrp, hra, hrout⟩ := ih fun k hk hkm => hm k hk (by omega)
    have hleft : 2 ^ totalShift body ≤ r.config.registers.a.toNat := by
      have hlast := hm (m + 1) (by omega) (Nat.le_refl _)
      rw [Nat.add_mul, Nat.one_mul, ← Nat.add_assoc, Nat.pow_add, Nat.mul_comm] at hlast
      rw [hra]
      exact (Nat.le_div_iff_mul_le (Nat.two_pow_pos _)).mpr hlast
    obtain ⟨s, hs, hsp, hsa, hout⟩ := h.exists_after_pass hrp hleft
    refine ⟨s, ?_, hsp, ?_, ?_⟩
    · rw [Nat.add_mul, Nat.one_mul, ← Nat.add_assoc, after_add_of_eq hr, hs]
    · rw [hsa, hra, Nat.div_div_eq_div_mul, ← Nat.pow_add, Nat.add_mul, Nat.one_mul,
        Nat.add_assoc]
    · rw [hout, hrout, Nat.add_mul, Nat.one_mul, Nat.add_assoc]

/-- After the passes that exhaust the seed the machine leaves the tape.

**Proof sketch.** All passes but the last end at the start of the body
(`exists_after_passes`). The last one exhausts A, so that no jump is taken from there on. -/
theorem exists_halt_of_exhausts (h : LiteralLoop p front body back) {a : Word} {m : ℕ}
    (hm : Exhausts (totalShift front) (totalShift body) a.toNat m) :
    ∃ s, p.after (front.length + m * (body.length + 1) + back.length)
        (.start (.ofSeed a)) = some s ∧
      p.step s.config = .halt ∧
      s.output.size = outputs front + m * outputs body + outputs back := by
  obtain ⟨n, rfl⟩ : ∃ n, m = n + 1 := ⟨m - 1, (Nat.sub_add_cancel hm.pos).symm⟩
  obtain ⟨r, hr, hrp, hra, hrout⟩ :=
    h.exists_after_passes a (m := n) fun k hk hkn => hm.le k hk (by omega)
  obtain ⟨s, hs, hsp, hsa, hout⟩ := h.exists_after_body hrp
  have hzero : s.config.registers.a = 0 := by
    have hlt := hm.lt
    rw [Nat.add_mul, Nat.one_mul, ← Nat.add_assoc] at hlt
    rw [← UInt64.toNat_inj, hsa, hra, Nat.div_div_eq_div_mul, ← Nat.pow_add]
    exact Nat.div_eq_of_lt hlt
  obtain ⟨x, -, hcarry⟩ := h.carries
  obtain ⟨-, hrest⟩ := carries_append_iff.mp (carries_append_iff.mp hcarry).2
  rw [Nat.zero_add, ← hsp] at hrest
  have hfixed : ∀ i ∈ (⟨.jnz, x⟩ :: back : List Instruction), i.Fixed := by
    intro i hi
    rcases List.mem_cons.mp hi with rfl | hi
    · exact fixed_jump x
    · exact h.fixed i (List.mem_append_right _ (List.mem_append_right _ hi))
  obtain ⟨u, hu, hup, -, huout⟩ := exists_after_of_carries hrest hfixed (.inr hzero)
  have hsteps : front.length + (n + 1) * (body.length + 1) + back.length =
      front.length + n * (body.length + 1) + (body.length + (back.length + 1)) := by
    rw [Nat.add_mul, Nat.one_mul]
    omega
  have hsize := h.size_eq
  rw [List.length_cons] at hup
  refine ⟨u, ?_, ?_, ?_⟩
  · rw [hsteps, after_add_of_eq hr, after_add_of_eq hs]
    exact hu
  · rw [step_eq_halt_iff, fetch_eq_none_iff] <;> omega
  · have hjump : outputs (⟨.jnz, x⟩ :: back) = outputs back := by simp [outputs]
    rw [huout, hout, hrout, hjump, Nat.add_mul, Nat.one_mul, Nat.add_assoc (outputs front)]

/-- The passes of a run that halts exhaust its seed.

**Proof sketch.** Otherwise the machine would stand at the start of the body again and again, and
so also after more steps than the run has made. -/
lemma exists_exhausts_of_halt (h : LiteralLoop p front body back) {a : Word} {k : ℕ} {s : Run}
    (hs : p.after k (.start (.ofSeed a)) = some s) (hhalt : p.step s.config = .halt) :
    ∃ m, Exhausts (totalShift front) (totalShift body) a.toNat m := by
  have hex : ∃ m, 1 ≤ m ∧ a.toNat < 2 ^ (totalShift front + m * totalShift body) := by
    by_contra hnone
    obtain ⟨r, hr, -⟩ := h.exists_after_passes a (m := k + 1) fun m hm _ =>
      Nat.le_of_not_lt fun hlt => hnone ⟨m, hm, hlt⟩
    have hle := le_of_after_of_halt hs hhalt hr
    rw [Nat.mul_add, Nat.mul_one] at hle
    omega
  classical
  refine ⟨Nat.find hex, (Nat.find_spec hex).1, (Nat.find_spec hex).2, fun m hm hlt => ?_⟩
  exact Nat.le_of_not_lt fun ha => Nat.find_min hex hlt ⟨hm, ha⟩

/-- A run halts within a limit exactly if passes that exhaust its seed fit into the limit; it
then has the outputs of these passes, and those in front of them and behind them.

**Proof sketch.** Passes that exhaust the seed lead to a halt (`exists_halt_of_exhausts`), and a
run that halts has made such passes (`exists_exhausts_of_halt`). Since a run halts only once, the
steps and the outputs are theirs. -/
theorem outputOf_length_iff (h : LiteralLoop p front body back) {limit n : ℕ} {a : Word} :
    (∃ output, p.outputOf limit a = .ok output ∧ output.length = n) ↔
      ∃ m, Exhausts (totalShift front) (totalShift body) a.toNat m ∧
        front.length + m * (body.length + 1) + back.length ≤ limit ∧
        outputs front + m * outputs body + outputs back = n := by
  constructor
  · rintro ⟨output, hout, rfl⟩
    obtain ⟨k, hk, s, hs, hhalt, rfl⟩ := outputOf_eq_ok_iff.mp hout
    obtain ⟨m, hm⟩ := h.exists_exhausts_of_halt hs hhalt
    obtain ⟨u, hu, huhalt, huout⟩ := h.exists_halt_of_exhausts hm
    obtain ⟨rfl, rfl⟩ := halt_unique hs hhalt hu huhalt
    exact ⟨m, hm, hk, by rw [Array.length_toList, huout]⟩
  · rintro ⟨m, hm, hle, rfl⟩
    obtain ⟨s, hs, hhalt, hout⟩ := h.exists_halt_of_exhausts hm
    refine ⟨s.output.toList, outputOf_eq_ok_iff.mpr ⟨_, hle, s, hs, hhalt, rfl⟩, ?_⟩
    rw [Array.length_toList, hout]

end LiteralLoop

/-! ## The loop of a program that only jumps back -/

namespace Program

variable {p : Program}

/-- All runs of a program without jumps have the same number of outputs. -/
lemma length_output_of_no_jump {is : List Instruction} (hcarry : p.Carries 0 is)
    (hsize : p.size = 2 * is.length) (hfixed : ∀ i ∈ is, i.Fixed)
    (hno : ∀ i ∈ is, i.opcode ≠ .jnz) {limit : ℕ} {a : Word} {output : List UInt8}
    (hout : p.outputOf limit a = .ok output) : output.length = outputs is := by
  obtain ⟨k, -, s, hs, hhalt, rfl⟩ := outputOf_eq_ok_iff.mp hout
  obtain ⟨u, hu, hup, -, huout⟩ :=
    exists_after_of_carries (r := .start (.ofSeed a)) hcarry hfixed (.inl hno)
  have hpointer : u.config.pointer = 2 * is.length := hup.trans (Nat.zero_add _)
  have huhalt : p.step u.config = .halt := by
    rw [step_eq_halt_iff, fetch_eq_none_iff] <;> omega
  obtain ⟨rfl, rfl⟩ := halt_unique hs hhalt hu huhalt
  rw [Array.length_toList, huout]
  exact Nat.zero_add _

/-- A program with fixed shifts and without jumps forward that has a run which halts is free of
jumps, or it is a loop.

**Proof sketch.** If there is a jump, take the first one. Its target splits the code in front of
it into the body and what comes before that. -/
theorem LiteralBackward.exists_literalLoop (h : p.LiteralBackward) {limit : ℕ} {a : Word}
    {output : List UInt8} (hout : p.outputOf limit a = .ok output) :
    (∃ is, p.Carries 0 is ∧ p.size = 2 * is.length ∧ (∀ i ∈ is, i.Fixed) ∧
      ∀ i ∈ is, i.opcode ≠ .jnz) ∨
    ∃ front body back, LiteralLoop p front body back := by
  obtain ⟨is, hcarry, hsize⟩ := p.exists_carries
  have hfixed : ∀ i ∈ is, i.Fixed := by
    intro i hi
    obtain ⟨k, -, hfetch⟩ := hcarry.fetch hi
    exact h.fixed_of_outputOf hout (by omega) hfetch
  cases hfind : is.find? (·.opcode = .jnz) with
  | none =>
    have hno : ∀ i ∈ is, i.opcode ≠ .jnz := by simpa using hfind
    exact .inl ⟨is, hcarry, hsize, hfixed, hno⟩
  | some j =>
    obtain ⟨hjnz, before, back, rfl, hbefore⟩ := List.find?_eq_some_iff_append.mp hfind
    obtain ⟨op, x⟩ := j
    obtain rfl : op = .jnz := by simpa using hjnz
    have hno : ∀ i ∈ before, i.opcode ≠ .jnz := by simpa using hbefore
    obtain ⟨-, hjump, -⟩ := carries_append_iff.mp hcarry
    obtain ⟨heven, hle⟩ := h.backward (by omega) hjump
    have hsplit : before.take (x.toNat / 2) ++ before.drop (x.toNat / 2) = before :=
      List.take_append_drop _ _
    have hfront : (before.take (x.toNat / 2)).length = x.toNat / 2 := by
      rw [List.length_take]
      omega
    refine .inr ⟨before.take (x.toNat / 2), before.drop (x.toNat / 2), back, ?_, ?_, ?_, ?_⟩
    · exact ⟨x, by omega, by rwa [← List.append_assoc, hsplit]⟩
    · rw [hsize, ← List.length_append, hsplit, List.length_append, List.length_cons]
      omega
    · rwa [hsplit]
    · rw [← List.append_assoc, hsplit]
      intro i hi
      rcases List.mem_append.mp hi with hi | hi
      · exact hfixed i (List.mem_append_left _ hi)
      · exact hfixed i (List.mem_append_right _ (List.mem_cons_of_mem _ hi))

end Program

end OctalTape

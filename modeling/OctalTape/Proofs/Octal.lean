import Mathlib.Data.List.Induction
import Mathlib.Data.Nat.Log
import Mathlib.Tactic.Ring
import OctalTape.Word

set_option relaxedAutoImplicit false
set_option autoImplicit false

/-!
# Octal digits

Numbers are written in octal digits from the highest. A list of digits may begin with zeros; the
way in which a number is written does not, and zero is written with one digit. Lists of digits
are in their lexicographic order, in which a list comes before those that begin with it.

## Main definitions

* `OctalTape.octalLength` — the number of octal digits of a number.
* `OctalTape.octalValue`, `OctalTape.octalWord` — the number, and the word, that digits denote.
* `OctalTape.octalString` — the digits with which a number is written.

## Main results

* `OctalTape.octalLength_of_lt`, `OctalTape.octalLength_of_le` — the last digit is one, and the
  others are those of the quotient by eight.
* `OctalTape.octalLength_pow` — the powers of eight are the least numbers of their length.
* `OctalTape.octalLength_le_iff` — the numbers of at most `n` digits are those below `8 ^ n`.
* `OctalTape.octalLength_word_le` — a word has at most 22 octal digits.
* `OctalTape.octalValue_octalString` — the digits with which a number is written denote it.
* `OctalTape.octalValue_le_of_lt` — a list that comes before another in the lexicographic order,
  and is no longer, denotes no greater number.
* `OctalTape.isPrefix_of_lt_of_lt` — lists between a list and one that begins with it do so too.
* `OctalTape.lt_of_concat_isPrefix` — lists that part at a digit are ordered as these digits are.
-/

namespace OctalTape

/-- The number of octal digits of `n`; zero has one. -/
def octalLength (n : ℕ) : ℕ := Nat.log 8 n + 1

/-- There is always a digit. -/
lemma octalLength_pos (n : ℕ) : 0 < octalLength n := Nat.succ_pos _

/-- Below eight there is one digit. -/
lemma octalLength_of_lt {n : ℕ} (h : n < 8) : octalLength n = 1 := by
  rw [octalLength, Nat.log_of_lt h]

/-- From eight on there is one digit more than the quotient by eight has. -/
lemma octalLength_of_le {n : ℕ} (h : 8 ≤ n) : octalLength n = octalLength (n / 8) + 1 := by
  rw [octalLength, octalLength, Nat.log_of_one_lt_of_le (by decide) h]

/-- The least number with `n + 1` digits is `8 ^ n`. -/
lemma octalLength_pow (n : ℕ) : octalLength (8 ^ n) = n + 1 := by
  rw [octalLength, Nat.log_pow (by decide)]

/-- The numbers of at most `n` digits are those below `8 ^ n`, if any digit is allowed. -/
lemma octalLength_le_iff {m n : ℕ} (hn : 0 < n) : octalLength m ≤ n ↔ m < 8 ^ n := by
  rw [octalLength, Nat.add_one_le_iff]
  rcases Nat.eq_zero_or_pos m with rfl | hm
  · simp only [Nat.log_zero_right, hn, true_iff]
    exact Nat.pow_pos (by decide)
  · exact Nat.log_lt_iff_lt_pow (by decide) hm.ne'

/-- A word has at most 22 octal digits. -/
lemma octalLength_word_le (w : Word) : octalLength w.toNat ≤ 22 := by
  rw [octalLength_le_iff (by decide)]
  exact Nat.lt_trans w.toNat_lt (by decide)

/-! ## Lists of digits -/

/-- The number that octal digits denote, read from the highest. -/
def octalValue (w : List (Fin 8)) : ℕ := w.foldl (fun n (d : Fin 8) => 8 * n + d.val) 0

/-- The word that octal digits denote; it is their number if that fits into a word. -/
def octalWord (w : List (Fin 8)) : Word := UInt64.ofNat (octalValue w)

/-- No digits denote zero. -/
@[simp]
lemma octalValue_nil : octalValue [] = 0 := rfl

/-- One more digit multiplies the number by eight and adds the digit. -/
lemma octalValue_concat (w : List (Fin 8)) (d : Fin 8) :
    octalValue (w ++ [d]) = 8 * octalValue w + d.val := by
  simp [octalValue]

/-- A number that fits into a word is not changed by it. -/
lemma toNat_octalWord {w : List (Fin 8)} (h : octalValue w < UInt64.size) :
    (octalWord w).toNat = octalValue w := UInt64.toNat_ofNat_of_lt' h

/-- With `n` digits, only the numbers below `8 ^ n` are denoted. -/
lemma octalValue_lt (w : List (Fin 8)) : octalValue w < 8 ^ w.length := by
  induction w using List.reverseRecOn with
  | nil => simp
  | append_singleton w d ih =>
    rw [octalValue_concat, List.length_append, List.length_singleton, Nat.pow_succ]
    omega

/-- A number has at most as many digits as any list that denotes it. -/
lemma octalLength_octalValue_le {w : List (Fin 8)} (hw : w ≠ []) :
    octalLength (octalValue w) ≤ w.length :=
  (octalLength_le_iff (List.length_pos_iff.mpr hw)).mpr (octalValue_lt w)

/-- Digits at the front are multiplied by the power of eight for those behind them. -/
lemma octalValue_append (u w : List (Fin 8)) :
    octalValue (u ++ w) = octalValue u * 8 ^ w.length + octalValue w := by
  induction w using List.reverseRecOn with
  | nil => simp
  | append_singleton w d ih =>
    rw [← List.append_assoc, octalValue_concat, ih, octalValue_concat, List.length_append,
      List.length_singleton, Nat.pow_succ]
    ring

/-- The first digit counts as often as the power of eight for those behind it says. -/
lemma octalValue_cons (d : Fin 8) (w : List (Fin 8)) :
    octalValue (d :: w) = d.val * 8 ^ w.length + octalValue w := by
  have hsingle : octalValue [d] = d.val := by simp [octalValue]
  rw [← List.singleton_append, octalValue_append, hsingle]

/-- More digits denote no lesser number. -/
lemma octalValue_le_of_isPrefix {u w : List (Fin 8)} (h : u <+: w) :
    octalValue u ≤ octalValue w := by
  obtain ⟨t, rfl⟩ := h
  rw [octalValue_append]
  exact Nat.le_add_right_of_le (Nat.le_mul_of_pos_right _ (Nat.pow_pos (by decide)))

/-- The first of some digits denote the quotient by the power of eight for those behind them. -/
lemma octalValue_of_isPrefix {u w : List (Fin 8)} (h : u <+: w) :
    octalValue u = octalValue w / 8 ^ (w.length - u.length) := by
  obtain ⟨t, rfl⟩ := h
  have hlen : (u ++ t).length - u.length = t.length := by simp
  rw [hlen, octalValue_append, Nat.mul_comm, Nat.mul_add_div (Nat.pow_pos (by decide)),
    Nat.div_eq_of_lt (octalValue_lt t), Nat.add_zero]

/-! ## The lexicographic order -/

/-- A list comes before the others that begin with it. -/
lemma lt_of_isPrefix_of_ne {u w : List (Fin 8)} (h : u <+: w) (hne : w ≠ u) : u < w := by
  obtain ⟨t, rfl⟩ := h
  cases t with
  | nil => exact absurd (List.append_nil u) hne
  | cons d t =>
    have hlt : u ++ [] < u ++ d :: t := List.append_left_lt List.Lex.nil
    rwa [List.append_nil] at hlt

/-- Lists that part at a digit are ordered as these digits are. -/
lemma lt_of_concat_isPrefix {u v w : List (Fin 8)} {d e : Fin 8} (hde : d < e)
    (hv : u ++ [d] <+: v) (hw : u ++ [e] <+: w) : v < w := by
  obtain ⟨s, rfl⟩ := hv
  obtain ⟨t, rfl⟩ := hw
  rw [List.append_assoc, List.append_assoc]
  exact List.append_left_lt (List.Lex.rel hde)

/-- What lies between digits and others that begin with them begins with them too.

**Proof sketch.** Induction on the digits that the others begin with. The first digits of the three
are equal, since those of the outer two are. -/
lemma isPrefix_of_lt_of_lt {u v w : List (Fin 8)} (huv : u < v) (hvw : v < w) (huw : u <+: w) :
    u <+: v := by
  induction u generalizing v w with
  | nil => exact List.nil_prefix
  | cons d u ih =>
    obtain ⟨t, rfl⟩ := huw
    cases v with
    | nil => exact absurd huv (List.not_lt_nil _)
    | cons e v =>
      rw [List.cons_append] at hvw
      rcases List.cons_lt_cons_iff.mp huv with hde | ⟨rfl, htail⟩
      · rcases List.cons_lt_cons_iff.mp hvw with hed | ⟨rfl, -⟩
        · exact absurd hed (Fin.lt_asymm hde)
        · exact absurd hde (Fin.lt_irrefl _)
      · rcases List.cons_lt_cons_iff.mp hvw with hed | ⟨-, hbehind⟩
        · exact absurd hed (Fin.lt_irrefl _)
        · exact (List.prefix_cons_inj d).mpr (ih htail hbehind (List.prefix_append u t))

/-- Digits that come before others, and are no more and no prefix of them, denote less than as
many of the first of the others do.

**Proof sketch.** Induction on the digits that come before. If the first digits differ, one more of
the greater place is more than all the digits behind can make up (`octalValue_lt`); if they are the
same, the digits behind decide. -/
lemma octalValue_lt_div_of_lt {v w : List (Fin 8)} (hlen : v.length ≤ w.length) (h : v < w)
    (hpre : ¬ v <+: w) : octalValue v < octalValue w / 8 ^ (w.length - v.length) := by
  rw [← Nat.add_one_le_iff, Nat.le_div_iff_mul_le (Nat.pow_pos (by decide))]
  induction v generalizing w with
  | nil => exact absurd List.nil_prefix hpre
  | cons d v ih =>
    obtain ⟨e, w, rfl⟩ : ∃ e u, w = e :: u :=
      List.exists_cons_of_length_pos (Nat.lt_of_lt_of_le (Nat.succ_pos _) hlen)
    have hvw : v.length ≤ w.length := by simpa using hlen
    have hpow : 8 ^ w.length = 8 ^ v.length * 8 ^ (w.length - v.length) := by
      rw [← Nat.pow_add, Nat.add_sub_cancel' hvw]
    rw [octalValue_cons, octalValue_cons, List.length_cons, List.length_cons,
      Nat.add_sub_add_right, hpow, ← Nat.mul_assoc]
    rcases List.cons_lt_cons_iff.mp h with hde | ⟨rfl, htail⟩
    · have hv := octalValue_lt v
      have hle : (d.val + 1) * 8 ^ v.length ≤ e.val * 8 ^ v.length :=
        Nat.mul_le_mul_right _ (Nat.succ_le_of_lt (Fin.lt_def.mp hde))
      rw [Nat.add_mul, Nat.one_mul] at hle
      exact Nat.le_add_right_of_le (Nat.mul_le_mul_right _ (by omega))
    · rw [Nat.add_assoc, Nat.add_mul]
      refine Nat.add_le_add_left (ih hvw htail fun hpre' => hpre ?_) _
      exact (List.prefix_cons_inj d).mpr hpre'

/-- A list that comes before another and is no longer denotes no greater number. -/
lemma octalValue_le_of_lt {v w : List (Fin 8)} (hlen : v.length ≤ w.length) (h : v < w) :
    octalValue v ≤ octalValue w := by
  by_cases hpre : v <+: w
  · exact octalValue_le_of_isPrefix hpre
  · exact (octalValue_lt_div_of_lt hlen h hpre).le.trans (Nat.div_le_self _ _)

/-! ## Writing a number -/

/-- The digits with which `n` is written. -/
def octalString (n : ℕ) : List (Fin 8) :=
  if n < 8 then [Fin.ofNat 8 n] else octalString (n / 8) ++ [Fin.ofNat 8 n]

/-- Below eight there is one digit. -/
lemma octalString_of_lt {n : ℕ} (h : n < 8) : octalString n = [Fin.ofNat 8 n] := by
  rw [octalString, if_pos h]

/-- From eight on the last digit follows those of the quotient by eight. -/
lemma octalString_of_le {n : ℕ} (h : 8 ≤ n) :
    octalString n = octalString (n / 8) ++ [Fin.ofNat 8 n] := by
  rw [octalString, if_neg (by omega)]

/-- The digits with which a number is written denote it. -/
lemma octalValue_octalString (n : ℕ) : octalValue (octalString n) = n := by
  induction n using octalString.induct with
  | case1 n h =>
    rw [octalString_of_lt h]
    simp [octalValue, Nat.mod_eq_of_lt h]
  | case2 n h ih =>
    rw [octalString_of_le (by omega), octalValue_concat, ih]
    simp
    omega

/-- A word is denoted by the digits with which it is written. -/
lemma octalWord_octalString (a : Word) : octalWord (octalString a.toNat) = a := by
  rw [octalWord, octalValue_octalString, UInt64.ofNat_toNat]

/-- A number is written with as many digits as it has. -/
lemma length_octalString (n : ℕ) : (octalString n).length = octalLength n := by
  induction n using octalString.induct with
  | case1 n h => rw [octalString_of_lt h, octalLength_of_lt h, List.length_singleton]
  | case2 n h ih =>
    rw [octalString_of_le (by omega), octalLength_of_le (by omega), List.length_append, ih,
      List.length_singleton]

/-- A number is written with some digit. -/
lemma octalString_ne_nil (n : ℕ) : octalString n ≠ [] := by
  rw [← List.length_pos_iff, length_octalString]
  exact octalLength_pos n

end OctalTape

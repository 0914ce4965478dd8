import Mathlib.Data.Nat.Notation
import Mathlib.Logic.Function.Defs
import OctalTape.Machine.Trace
import OctalTape.Proofs.Text.ProgramText

set_option relaxedAutoImplicit false
set_option autoImplicit false

/-!
# The lines of a trace

A line of a trace shows an instruction and the configuration that it meets. Nothing is lost when
they are put into words: behind each number stands something that is no digit, and the names of the
opcodes have the same length. So the line can be read back.

## Main results

* `OctalTape.Text.decimalDigits_append_inj` — a number is cut off from what follows it.
* `OctalTape.Trace.Entry.toLog_injective` — different entries have different lines.
-/

namespace OctalTape

namespace Text

/-- A number is cut off from what follows it, if that begins with no digit. -/
lemma takeWhile_decimalDigits_append (n : ℕ) {c : Char} (hc : c.isDigit = false)
    (cs : List Char) : (decimalDigits n ++ c :: cs).takeWhile Char.isDigit = decimalDigits n := by
  rw [List.takeWhile_append_of_pos fun _ => isDigit_of_mem_decimalDigits,
    List.takeWhile_cons_of_neg (by simp [hc]), List.append_nil]

/-- Numbers in front of the same separator, which begins with no digit, are the same if the texts
are, and so is what follows the separator.

**Proof sketch.** The digits are what is taken off while there are digits, and a number can be read
back from them; what follows is then the same by cancellation. -/
lemma decimalDigits_append_inj {m n : ℕ} {sep cs ds : List Char}
    (hsep : sep.head?.map Char.isDigit = some false)
    (h : decimalDigits m ++ (sep ++ cs) = decimalDigits n ++ (sep ++ ds)) : m = n ∧ cs = ds := by
  cases sep with
  | nil => cases hsep
  | cons c sep =>
    have hc : c.isDigit = false := Option.some.inj hsep
    have hdigits : decimalDigits m = decimalDigits n := by
      have htake := congrArg (List.takeWhile Char.isDigit) h
      rwa [List.cons_append, List.cons_append, takeWhile_decimalDigits_append m hc,
        takeWhile_decimalDigits_append n hc] at htake
    refine ⟨?_, ?_⟩
    · have hread := congrArg readNat? hdigits
      rw [readNat?_decimalDigits, readNat?_decimalDigits] at hread
      exact Option.some.inj hread
    · rw [hdigits] at h
      exact List.append_cancel_left (List.append_cancel_left h)

end Text

namespace Opcode

/-- The names of the opcodes have the same length. -/
lemma length_name (op : Opcode) : op.name.toList.length = 3 := by
  cases op <;> rfl

/-- Different opcodes have different names. -/
lemma name_injective : Function.Injective name := by
  intro op op' h
  cases op <;> cases op' <;> first | rfl | exact absurd h (by decide)

end Opcode

namespace Trace.Entry

open Text (decimalDigits decimalDigits_append_inj)

/-- The characters of a message. -/
lemma toList_message (e : Trace.Entry) :
    e.message.toList = "Step #".toList ++ (decimalDigits e.index ++ (": ".toList ++
      (e.instruction.opcode.name.toList ++ (" ".toList ++
      (decimalDigits e.instruction.operand.toNat ++ (" @ ".toList ++
      (decimalDigits e.config.pointer ++ (", registers [".toList ++
      (decimalDigits e.config.registers.a.toNat ++ (", ".toList ++
      (decimalDigits e.config.registers.b.toNat ++ (", ".toList ++
      (decimalDigits e.config.registers.c.toNat ++ ("].".toList ++ [])))))))))))))) := by
  unfold message
  simp only [Registers.toList, List.map_cons, List.map_nil, String.intercalate_cons_cons,
    String.intercalate_singleton, String.toList_append, Text.toList_decimal, List.append_assoc,
    List.append_nil]

/-- Different entries have different messages.

**Proof sketch.** From the left to the right, each number is cut off from the separator behind it,
and the name of the opcode by its length. -/
theorem message_injective : Function.Injective message := by
  rintro ⟨index, ⟨⟨a, b, c⟩, pointer⟩, op, x⟩ ⟨index', ⟨⟨a', b', c'⟩, pointer'⟩, op', x'⟩ h
  have h := congrArg String.toList h
  rw [toList_message, toList_message] at h
  obtain ⟨rfl, h⟩ := decimalDigits_append_inj (by decide) (List.append_cancel_left h)
  obtain ⟨hname, h⟩ := List.append_inj h (by rw [Opcode.length_name, Opcode.length_name])
  obtain ⟨hx, h⟩ := decimalDigits_append_inj (by decide) (List.append_cancel_left h)
  obtain ⟨rfl, h⟩ := decimalDigits_append_inj (by decide) h
  obtain ⟨ha, h⟩ := decimalDigits_append_inj (by decide) h
  obtain ⟨hb, h⟩ := decimalDigits_append_inj (by decide) h
  obtain ⟨hc, -⟩ := decimalDigits_append_inj (by decide) h
  obtain rfl := Opcode.name_injective (String.toList_inj.mp hname)
  obtain rfl := UInt8.toNat_inj.mp hx
  obtain rfl := UInt64.toNat_inj.mp ha
  obtain rfl := UInt64.toNat_inj.mp hb
  obtain rfl := UInt64.toNat_inj.mp hc
  rfl

/-- Different entries have different lines. -/
theorem toLog_injective : Function.Injective toLog := fun _ _ h =>
  message_injective (congrArg Log.Entry.message h)

end Trace.Entry

end OctalTape

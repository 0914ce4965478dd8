import Mathlib.Tactic.Basic
import OctalTape.Proofs.Search.FirstPath
import OctalTape.Proofs.Text.SnapshotText
import OctalTape.Tool.Basic

set_option relaxedAutoImplicit false
set_option autoImplicit false

/-!
# A seed that is found is confirmed by a run

The search tool prints a seed for the program in a file. If a snapshot with this seed and this
program is written to another file, the run tool reads it back, halts under the same limit, and
prints the codes of the program.

## Main definitions

* `OctalTape.Tool.query` — the question that the search tool asks about a program.

## Main results

* `OctalTape.SeedSearch.output_of_findSeed_eq_some` — the seed that a search finds emits the
  target.
* `OctalTape.Snapshot.load_text` — a snapshot is loaded from a file with its text.
* `OctalTape.Tool.stdout_invertSnapshot_iff` — when the search tool prints a seed.
* `OctalTape.Tool.run_confirms_invert` — what the search tool prints, the run tool confirms.
-/

namespace OctalTape

open Text (decimal decimalDigits)

/-! ## Texts in files -/

/-- Different numbers have different texts. -/
lemma Text.decimal_inj {m n : Nat} : decimal m = decimal n ↔ m = n := by
  refine ⟨fun h => ?_, fun h => by rw [h]⟩
  have hdigits : decimalDigits m = decimalDigits n := String.ofList_injective h
  have hread := congrArg readNat? hdigits
  rw [readNat?_decimalDigits, readNat?_decimalDigits] at hread
  exact Option.some.inj hread

/-- A text with something at its end is not empty. -/
lemma Text.append_ne_empty {front back : String} (h : back ≠ "") : front ++ back ≠ "" :=
  fun happend => h (String.append_eq_empty_iff.mp happend).2

/-- The encoding of a text is decoded to it. -/
lemma Files.decode_toUTF8 (text : String) : decode text.toUTF8 = .ok text := by
  have hdecode : String.fromUTF8? text.toUTF8 = some text := dif_pos text.isValidUTF8
  rw [decode, hdecode]

/-- A snapshot is loaded from a file that holds its text. -/
lemma Snapshot.load_text (path : String) (s : Snapshot) {ending : String}
    (h : ending ∈ ["", "\n"]) : load path (.ok (s.text ++ ending).toUTF8) = .ok s := by
  simp only [load, Except.bind, Files.decode_toUTF8, ofText_text s h]

/-! ## Seeds -/

/-- The seed that a search finds emits the target. -/
theorem SeedSearch.output_of_findSeed_eq_some {q : SeedSearch} {seed : Word}
    (h : q.findSeed.result = .ok (some seed)) : q.output seed = .ok q.target := by
  have hdescend := result_descend_of_findSeed_eq_ok h
  obtain ⟨w, -, -, hout⟩ := result_descend_eq_some_iff.mp hdescend
  exact hout

/-! ## The tools -/

namespace Tool

/-- The question that the search tool asks about a program. -/
def query (s : Settings) (p : Program) : SeedSearch :=
  { program := p, stepLimit := s.stepLimit, guarded := !s.unchecked }

/-- What the search tool prints: a seed if the search finds one, and otherwise nothing. -/
lemma stdout_invertSnapshot (s : Settings) (snapshot : Snapshot) :
    (invertSnapshot s snapshot).stdout =
      match (query s snapshot.program).findSeed.result with
      | .ok (some seed) =>
        "The least value of register A that makes the program output itself is " ++
          decimal seed.toNat ++ ".\n"
      | _ => "" := by
  unfold invertSnapshot query
  dsimp only
  generalize SeedSearch.findSeed _ = report
  rcases report.result with e | _ | seed
  · rfl
  · rfl
  · rfl

/-- A seed is printed exactly if it is what the search finds. -/
lemma stdout_invertSnapshot_iff {s : Settings} {snapshot : Snapshot} {seed : Word} :
    (invertSnapshot s snapshot).stdout =
      "The least value of register A that makes the program output itself is " ++
        decimal seed.toNat ++ ".\n" ↔
    (query s snapshot.program).findSeed.result = .ok (some seed) := by
  rw [stdout_invertSnapshot]
  rcases (query s snapshot.program).findSeed.result with e | _ | found
  · exact iff_of_false (Text.append_ne_empty (by decide)).symm nofun
  · exact iff_of_false (Text.append_ne_empty (by decide)).symm nofun
  · dsimp only
    rw [String.append_left_inj, String.append_right_inj, Text.decimal_inj, UInt64.toNat_inj]
    simp

/-- A run that succeeds is printed with what it emits. -/
lemma runSnapshot_of_outputOf {s : Settings} {p : Program} {seed : Word} {output : List UInt8}
    (h : p.outputOf s.stepLimit seed = .ok output) :
    runSnapshot s ⟨.ofSeed seed, p⟩ =
      { stdout := "After running given program, the computer outputs " ++
          Text.decimalList output ++ ".\n" } := by
  rcases hrun : p.run s.stepLimit (.start (.ofSeed seed)) with ⟨result, r⟩
  rw [Program.outputOf, hrun] at h
  cases result with
  | error e => cases h
  | ok u =>
    rw [← Except.ok.inj h]
    simp only [runSnapshot, Machine.run, Machine.start, Machine.setStepLimit, hrun]

/-- **What the search tool prints, the run tool confirms.** Let the search tool print a seed for
the file with some content, which then holds a snapshot. Take a file with the snapshot of the same
program in which register A holds the seed and the other registers zero, with or without a line
break at the end. For this file the run tool, under the same limit, ends with success and prints
the codes of the program.

**Proof sketch.** A seed is printed only if the search finds it (`stdout_invertSnapshot_iff`), and
then its output is the target, which is the tape. The run tool reads the seed and the program back
(`Snapshot.load_text`) and makes the same run. -/
theorem run_confirms_invert (s s' : Settings) (hlimit : s'.stepLimit = s.stepLimit)
    (content : ByteArray) (seed : Word)
    (h : (invert.answer s (.ok content)).stdout =
      "The least value of register A that makes the program output itself is " ++
        decimal seed.toNat ++ ".\n") :
    ∃ snapshot, Snapshot.load s.inputPath (.ok content) = .ok snapshot ∧
      ∀ ending ∈ ["", "\n"],
        run.answer s' (.ok (Snapshot.text ⟨.ofSeed seed, snapshot.program⟩ ++ ending).toUTF8) =
          { code := 0
            stdout := "After running given program, the computer outputs " ++
              snapshot.program.text ++ ".\n" } := by
  rcases hload : Snapshot.load s.inputPath (.ok content) with f | snapshot
  · rw [answer, hload] at h
    exact absurd h (Text.append_ne_empty (by decide)).symm
  · refine ⟨snapshot, rfl, fun ending hending => ?_⟩
    rw [answer, hload] at h
    have hfound := stdout_invertSnapshot_iff.mp h
    have houtput := SeedSearch.output_of_findSeed_eq_some hfound
    rw [answer, Snapshot.load_text _ _ hending]
    exact runSnapshot_of_outputOf (hlimit ▸ houtput)

/-- A program that emits the octal digits of its seed but the lowest. -/
def echoTape : Program := ⟨#[0, 3, 5, 4, 3, 0], rfl, by simp⟩

/-- Among registers with other contents the echo tape is found to have the seed 117440, and with
this seed it is run. -/
theorem run_confirms_invert_echoTape :
    let s : Settings := { inputPath := "input.txt", stepLimit := 100 }
    let s' : Settings := { inputPath := "found.txt", stepLimit := 100 }
    let content := (Snapshot.text ⟨⟨2024, 29, 9⟩, echoTape⟩ ++ "\n").toUTF8
    (invert.answer s (.ok content)).stdout =
      "The least value of register A that makes the program output itself is " ++
        decimal (117440 : Word).toNat ++ ".\n" ∧
    run.answer s' (.ok (Snapshot.text ⟨.ofSeed 117440, echoTape⟩ ++ "\n").toUTF8) =
      { stdout := "After running given program, the computer outputs " ++ echoTape.text ++
          ".\n" } := by
  intro s s' content
  have hload : Snapshot.load s.inputPath (.ok content) = .ok ⟨⟨2024, 29, 9⟩, echoTape⟩ :=
    Snapshot.load_text s.inputPath ⟨⟨2024, 29, 9⟩, echoTape⟩ (by decide)
  have hsearch : (query s echoTape).findSeed.result = .ok (some 117440) := by decide +kernel
  have hprint : (invert.answer s (.ok content)).stdout =
      "The least value of register A that makes the program output itself is " ++
        decimal (117440 : Word).toNat ++ ".\n" := by
    rw [answer, hload]
    exact stdout_invertSnapshot_iff.mpr hsearch
  obtain ⟨snapshot, hsnapshot, hrun⟩ := run_confirms_invert s s' rfl content 117440 hprint
  obtain rfl := Except.ok.inj (hload.symm.trans hsnapshot)
  exact ⟨hprint, hrun "\n" (by decide)⟩

end Tool

end OctalTape

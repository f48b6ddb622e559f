import FriBound.Proofs.Arguments
import FriBound.Proofs.Tables

/-!
# What a run leaves behind

The exit status, the output and the complaints of a run belong together. A run that shows something
ends with status zero; one that ends with status one shows nothing and has one complaint, which is
about its arguments. The parameters of `custom` are no reason to fail: they are evaluated whatever
they are, and complained about if they describe no instance. Two of the complaints that validation
knows of are never heard, for arguments always describe a single function and as many rounds as they
list.

## Main definitions

* `Answered` — a run has shown the table of some parameters
* `Answers` — what a run leaves behind

## Main results

* `answers` — this is what any run leaves behind
-/

namespace FriBound

open Text

/-! ### Validation -/

namespace Params

variable {α : Type} [Scalar α] {p : Params α}

/-- What validation reports is one of the violations. -/
theorem mem_violations_of_validate {why : Refusal α} (h : p.validate = .error (.invalid why)) :
    why ∈ p.violations := by
  rw [validate] at h
  split at h
  · cases h
    exact List.mem_of_mem_head? ‹_›
  · cases h

theorem validate_ne_noFunctions (h : p.numFunctions = 1) :
    p.validate ≠ .error (.invalid .noFunctions) := fun hvalidate => by
  have hmem := mem_violations_of_validate hvalidate
  simp [violations, h] at hmem

theorem validate_ne_numRounds (h : p.numRounds = p.arityBits.length) (count length : Nat) :
    p.validate ≠ .error (.invalid (.numRounds count length)) := fun hvalidate => by
  have hmem := mem_violations_of_validate hvalidate
  simp [violations, h] at hmem

end Params

namespace Command

/-! ### Complaints about arguments -/

theorem oneLine_numeralMessage (why : NumeralError) : OneLine (numeralMessage why) := by
  cases why <;> decide

theorem oneLine_literalMessage (why : Decimal.LiteralError) : OneLine (literalMessage why) := by
  cases why <;> decide

theorem Argument.oneLine_name (a : Argument) : OneLine a.name := by
  cases a <;> decide

/-- A complaint about one of the arguments. -/
theorem exists_parsing_eq (argument : Argument) {why : String} (h : OneLine why) :
    ∃ text, OneLine text ∧
      "Error: parsing " ++ argument.name ++ ": " ++ why ++ "\n" = "Error: " ++ text ++ "\n" := by
  refine ⟨"parsing " ++ argument.name ++ ": " ++ why, ?_, ?_⟩
  · exact .append (.append (.append (by decide) argument.oneLine_name) (by decide)) h
  · simp only [← String.append_assoc]
    rfl

/-- An error that is not about the option is told in one line. -/
theorem UsageError.exists_message_eq {e : UsageError} (h : ∀ option, e ≠ .unknownOption option) :
    ∃ text, OneLine text ∧ e.message = "Error: " ++ text ++ "\n" := by
  cases e with
  | unknownOption option => exact absurd rfl (h option)
  | argumentCount count =>
    refine ⟨"custom expects 6 arguments, got " ++ toString count, ?_, ?_⟩
    · exact .append (by decide) (oneLine_nat _)
    · have hstart : "Error: custom expects 6 arguments, got "
          = "Error: " ++ "custom expects 6 arguments, got " := rfl
      rw [← String.append_assoc, ← hstart]
      rfl
  | numeral argument why => exact exists_parsing_eq argument (oneLine_numeralMessage why)
  | literal argument why => exact exists_parsing_eq argument (oneLine_literalMessage why)

/-! ### Answers -/

theorem Describes.numFunctions {args : List String} {p : Params Binary64} (h : Describes args p) :
    p.numFunctions = 1 := by
  obtain ⟨_, _, _, _, _, _, -, h⟩ := h
  exact h.numFunctions

theorem Describes.numRounds {args : List String} {p : Params Binary64} (h : Describes args p) :
    p.numRounds = p.arityBits.length := by
  obtain ⟨_, _, _, _, _, _, -, h⟩ := h
  exact h.numRounds

/-- A run has shown the table of the parameters, and complained if they describe no instance. -/
structure Answered (p : Params Binary64) (o : Outcome) : Prop where
  exit : o.exit = 0
  /-- One table, with a row of five cells below its header. -/
  table : ∃ cells, cells.length = 5 ∧
    IsTable [["term_1", "term_2", "term_3", "bound", "bits"], cells] o.out
  /-- So there are five lines, and they are equally long. -/
  lines : ∃ width ls, o.out = Table.linesText ls ∧ ls.length = 5 ∧
    ∀ l ∈ ls, l.length = width ∧ OneLine l
  /-- There is a complaint if validation has one. -/
  silent_iff : o.err = "" ↔ p.validate = .ok ()
  /-- It is the one of validation, on one line. -/
  warning : ∀ e, p.validate = .error e →
    o.err = "Warning: " ++ e.message ++ "\n" ∧ OneLine e.message
  ne_noFunctions : p.validate ≠ .error (.invalid .noFunctions)
  ne_numRounds : ∀ count length, p.validate ≠ .error (.invalid (.numRounds count length))

/-- What a run leaves behind. -/
structure Answers (args : List String) : Prop where
  /-- Without an argument, and for the two tables with a name, nothing goes wrong. -/
  shown : args = [] ∨ (∃ rest, args = "reference" :: rest) ∨ (∃ rest, args = "sweep" :: rest) →
    (run args).exit = 0 ∧ (run args).err = ""
  /-- Another first argument is named, and the usage is told. -/
  unknown : ∀ option rest, args = option :: rest → option ∉ ["reference", "sweep", "custom"] →
    run args = ⟨1, "", "Unknown option: " ++ option
      ++ "\nUsage: soundness [reference|sweep|custom <rate_bits> "
      ++ "<codeword_size_bits> <m> <field_size_bits> <num_queries> <arity_bits,...>]\n"⟩
  /-- Arguments of `custom` that describe no parameters are an error, and nothing is shown. -/
  refused : ∀ rest, args = "custom" :: rest → (¬∃ p, Describes rest p) →
    ∃ text, OneLine text ∧ run args = ⟨1, "", "Error: " ++ text ++ "\n"⟩
  /-- Parameters are answered whatever they are. -/
  answered : ∀ rest p, args = "custom" :: rest → Describes rest p → Answered p (run args)

theorem exists_customTable_eq (p : Params Binary64) : ∃ cells, cells.length = 5 ∧
    customTable p = [["term_1", "term_2", "term_3", "bound", "bits"], cells] := by
  rw [customTable]
  cases p.terms with
  | ok t => exact ⟨_, rfl, rfl⟩
  | error e => exact ⟨_, rfl, rfl⟩

theorem warningText_eq_empty_iff {p : Params Binary64} :
    warningText p = "" ↔ p.validate = .ok () := by
  rw [warningText]
  cases p.validate with
  | ok u => simp
  | error e => simp [String.append_eq_empty_iff]

theorem answered_of_describes {args : List String} {p : Params Binary64} (h : Describes args p) :
    Answered p (run ("custom" :: args)) := by
  rw [run_of_ok (ofArgs_custom_eq_ok_iff.mpr (readParams_eq_ok_iff.mpr h)), Request.report]
  obtain ⟨cells, hcells, hrows⟩ := exists_customTable_eq p
  have htable := Table.isTable_draw (oneLine_cell p)
  rw [hrows] at htable ⊢
  exact {
    exit := rfl
    table := ⟨cells, hcells, htable⟩
    lines := htable.exists_lines
    silent_iff := warningText_eq_empty_iff
    warning := fun e he => ⟨by rw [warningText, he], e.oneLine_message⟩
    ne_noFunctions := Params.validate_ne_noFunctions h.numFunctions
    ne_numRounds := Params.validate_ne_numRounds h.numRounds }

theorem exists_error_of_not_describes {args : List String} (h : ¬∃ p, Describes args p) :
    ∃ e, Request.ofArgs ("custom" :: args) = .error e ∧ ∀ option, e ≠ .unknownOption option := by
  cases hargs : readParams args with
  | ok p => exact absurd ⟨p, readParams_eq_ok_iff.mp hargs⟩ h
  | error e =>
    refine ⟨e, ofArgs_custom_eq_error_iff.mpr hargs, ?_⟩
    rintro option rfl
    rcases readParams_error_cases hargs with he | ⟨argument, he⟩ <;> cases he

/-- **What any run leaves behind.** -/
theorem answers (args : List String) : Answers args := by
  refine ⟨?_, ?_, ?_, ?_⟩
  · rintro (rfl | ⟨rest, rfl⟩ | ⟨rest, rfl⟩)
    · exact ⟨rfl, rfl⟩
    · rw [run, Request.ofArgs, if_pos rfl]
      exact ⟨rfl, rfl⟩
    · rw [run, Request.ofArgs, if_neg (by decide), if_pos rfl]
      exact ⟨rfl, rfl⟩
  · rintro option rest rfl hoption
    simp only [List.mem_cons, List.not_mem_nil, or_false, not_or] at hoption
    obtain ⟨hreference, hsweep, hcustom⟩ := hoption
    refine run_of_error (e := .unknownOption option) ?_
    rw [Request.ofArgs, if_neg hreference, if_neg hsweep, if_neg hcustom]
  · rintro rest rfl hnone
    obtain ⟨e, he, hoption⟩ := exists_error_of_not_describes hnone
    obtain ⟨text, hline, htext⟩ := e.exists_message_eq hoption
    exact ⟨text, hline, htext ▸ run_of_error he⟩
  · rintro rest p rfl h
    exact answered_of_describes h

end Command

end FriBound

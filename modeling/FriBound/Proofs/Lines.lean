import FriBound.Command

/-!
# Texts of one line

Whatever the command prints about a value or an error stays on one line. So the rows of a table are
lines, and an error is one line on its stream.

The texts are put together from fixed ones, from digits and from the ways in which numbers are
written, so the lemmas follow the definitions of these texts.

## Main definitions

* `Text.OneLine` — no line ends in the text

## Main results

* `BoundError.oneLine_message` — every error
* `Command.oneLine_cell` — every cell of the table of `custom`
-/

namespace FriBound

namespace Text

variable {s t : String}

/-- No line ends in the text. -/
def OneLine (s : String) : Prop := '\n' ∉ s.toList

instance (s : String) : Decidable (OneLine s) := inferInstanceAs (Decidable ('\n' ∉ s.toList))

theorem OneLine.append (hs : OneLine s) (ht : OneLine t) : OneLine (s ++ t) := by
  simp only [OneLine, String.toList_append, List.mem_append, not_or]
  exact ⟨hs, ht⟩

theorem oneLine_ofList {cs : List Char} (h : ∀ c ∈ cs, c ≠ '\n') : OneLine (String.ofList cs) := by
  rw [OneLine, String.toList_ofList]
  exact fun hmem => h _ hmem rfl

theorem oneLine_replicate {c : Char} (hc : c ≠ '\n') (n : Nat) :
    OneLine (String.ofList (List.replicate n c)) :=
  oneLine_ofList fun _ hd => List.eq_of_mem_replicate hd ▸ hc

theorem oneLine_nat (n : Nat) : OneLine (toString n) := by
  refine oneLine_ofList fun c hc hline => ?_
  have hdigit := Nat.isDigit_of_mem_toDigits (by decide) (by decide) hc
  rw [hline] at hdigit
  exact absurd hdigit (by decide)

theorem oneLine_int (z : Int) : OneLine (toString z) := by
  cases z with
  | ofNat n => exact oneLine_nat n
  | negSucc n => exact .append (s := "-") (by decide) (oneLine_nat (n + 1))

end Text

open Text

/-! ### Numbers -/

namespace Decimal

variable {x : Binary64}

theorem oneLine_withPlaces (n k : Nat) : OneLine (withPlaces n k) := by
  rw [withPlaces]
  refine .append (oneLine_nat _) ?_
  split
  · decide
  · exact .append (by decide) (.append (oneLine_replicate (by decide) _) (oneLine_nat _))

theorem oneLine_withoutEndZeros (n k : Nat) : OneLine (withoutEndZeros n k) := by
  induction k generalizing n with
  | zero => exact oneLine_nat n
  | succ k ih =>
    rw [withoutEndZeros]
    split
    · exact ih _
    · exact oneLine_withPlaces n (k + 1)

theorem oneLine_positional (d : Decimal) : OneLine d.positional := by
  rw [positional]
  split
  · exact oneLine_nat _
  · exact oneLine_withoutEndZeros _ _

theorem oneLine_signedText {write : Magnitude → String} (h : ∀ x, OneLine (write x)) :
    OneLine (signedText write x) := by
  cases x with
  | nan => exact (by decide : OneLine "NaN")
  | inf neg =>
    show OneLine (if neg then "-inf" else "inf")
    cases neg <;> decide
  | fin neg x =>
    refine .append ?_ (h x)
    cases neg <;> decide

/-- The shortest digits take their sign the same way. -/
theorem display_eq (x : Binary64) : display x =
    signedText (fun x => if x.units = 0 then "0" else (shortest x).positional) x := by
  cases x <;> rfl

theorem oneLine_display (x : Binary64) : OneLine (display x) := by
  rw [display_eq]
  refine oneLine_signedText fun x => ?_
  split
  · decide
  · exact oneLine_positional _

theorem oneLine_fixed (k : Nat) (x : Binary64) : OneLine (fixed k x) :=
  oneLine_signedText fun _ => oneLine_withPlaces _ _

theorem oneLine_scientific (k : Nat) (x : Binary64) : OneLine (scientific k x) :=
  oneLine_signedText fun _ =>
    .append (.append (oneLine_withPlaces _ _) (by decide)) (oneLine_int _)

end Decimal

/-! ### Errors -/

theorem Refusal.oneLine_message (why : Refusal Binary64) : OneLine why.message := by
  cases why with
  | noFunctions => decide
  | rateBits bits => exact .append (by decide) (oneLine_int _)
  | codewordSizeBits bits => exact .append (by decide) (oneLine_int _)
  | proximity m => exact .append (by decide) (Decimal.oneLine_display m)
  | noFolding round => exact .append (.append (by decide) (oneLine_nat _)) (by decide)
  | numRounds count length =>
    exact .append (.append (.append (.append (by decide) (oneLine_nat _)) (by decide))
      (oneLine_nat _)) (by decide)
  | fieldSizeBits bits => exact .append (by decide) (oneLine_int _)
  | noQueries => decide
  | notFinite m => exact .append (by decide) (Decimal.oneLine_display m)
  | noLogarithm m => exact .append (by decide) (Decimal.oneLine_display m)
  | domainOverflow degreeBits rateBits =>
    exact .append (.append (.append (.append (by decide) (oneLine_nat _)) (by decide))
      (oneLine_nat _)) (by decide)
  | tooLarge exponent bits =>
    exact .append (.append (by cases exponent <;> decide) (by decide)) (oneLine_nat _)

/-- **No message about the bound has more than one line.** -/
theorem BoundError.oneLine_message (e : BoundError Binary64) : OneLine e.message := by
  cases e with
  | divisionByZero => decide
  | overflow what => cases what <;> decide
  | invalid why => exact .append (by decide) why.oneLine_message

namespace Command

theorem oneLine_boundCell (bound : Except (BoundError Binary64) Binary64) :
    OneLine (boundCell bound) := by
  cases bound with
  | ok x => exact Decimal.oneLine_scientific 3 x
  | error e => exact e.oneLine_message

theorem oneLine_bitsCell (bits : Except (BoundError Binary64) Binary64) :
    OneLine (bitsCell bits) := by
  cases bits with
  | ok x => exact Decimal.oneLine_fixed 2 x
  | error e => exact e.oneLine_message

theorem oneLine_cell (p : Params Binary64) :
    ∀ row ∈ customTable p, ∀ cell ∈ row, OneLine cell := by
  rw [customTable, List.forall_mem_cons, List.forall_mem_singleton]
  refine ⟨by decide, ?_⟩
  split
  · simp only [List.forall_mem_cons, List.not_mem_nil, false_implies, implies_true, and_true]
    exact ⟨Decimal.oneLine_scientific 6 _, Decimal.oneLine_scientific 6 _,
      Decimal.oneLine_scientific 6 _, oneLine_boundCell _, oneLine_bitsCell _⟩
  · simp only [List.forall_mem_cons, List.not_mem_nil, false_implies, implies_true, and_true]
    exact ⟨by decide, by decide, by decide, BoundError.oneLine_message _, oneLine_bitsCell _⟩

end Command

end FriBound

import FriBound.Proofs.Answers
import FriBound.Proofs.Guards
import FriBound.Proofs.Rendering

/-!
# What the cells say

The row that `custom` shows says what the library computes. It is written in one way if the terms
exist and in another if they do not, and then the error of the terms stands where the bound belongs.
It is the error of the bound as well, for the bound fails with its terms. Where the terms exist the
bound can still fail, but only when they are added up.

The numbers are those of the evaluation, rounded to the digits that a cell has room for. The terms
and the bound are finite; only the bits of security can be infinite.

## Main definitions

* `Cells` — the cells of the row
* `Cells.Tell` — they say what the library computes

## Main results

* `exists_cells_tell` — the row that `custom` shows does so
-/

namespace FriBound

open Text

/-! ### What is finite -/

section

variable {α : Type} [Scalar α] {p : Params α} {t : Terms α} {v : α}

theorem finite_eq_ok_iff {what : Quantity} {x y : α} :
    (finite what x : Except (BoundError α) α) = .ok y ↔ Scalar.isFinite x = true ∧ x = y := by
  rw [finite]
  split <;> simp_all

theorem finite_eq_error {what : Quantity} {x : α} {e : BoundError α}
    (h : finite what x = .error e) : e = .overflow what := by
  rw [finite] at h
  split at h
  · cases h
  · cases h
    rfl

namespace Params

open Scalar

theorem isFinite_of_terms (h : p.terms = .ok t) : isFinite t.proximity = true ∧
    isFinite t.folding = true ∧ isFinite t.query = true := by
  simp only [terms, termsAt, bind_eq_ok_iff, finite_eq_ok_iff] at h
  obtain ⟨_, -, _, -, _, -, _, -, _, -, _, ⟨hproximity, rfl⟩, _, ⟨hfolding, rfl⟩, _,
    ⟨hquery, rfl⟩, h⟩ := h
  cases h
  exact ⟨hproximity, hfolding, hquery⟩

theorem isFinite_of_bound (h : p.bound = .ok v) : isFinite v = true := by
  simp only [bound, bind_eq_ok_iff, finite_eq_ok_iff] at h
  obtain ⟨_, -, hfinite, rfl⟩ := h
  exact hfinite

/-- Where the terms exist, only their sum can fail. -/
theorem eq_overflow_total (h : p.terms = .ok t) {e : BoundError α} (he : p.bound = .error e) :
    e = .overflow .total := by
  rw [bound_of_terms_ok h] at he
  exact finite_eq_error he

/-- Bits of security are the opposite of a logarithm that is a number. -/
theorem exists_of_securityBits (h : p.securityBits = .ok v) :
    ∃ total : α, v = -total ∧ isNaN total = false := by
  simp only [securityBits, bind_eq_ok_iff] at h
  obtain ⟨total, htotal, h⟩ := h
  cases h
  refine ⟨total, rfl, ?_⟩
  rw [logBound] at htotal
  split at htotal
  · cases htotal
  · split at htotal
    · cases htotal
    · simp only at htotal
      split at htotal
      · cases htotal
      · cases htotal
        simp_all

end Params

end

namespace Command

open Decimal

variable {p : Params Binary64} {x : Binary64}

theorem ne_nan_of_securityBits (h : p.securityBits = .ok x) : x ≠ .nan := by
  obtain ⟨total, rfl, hnan⟩ := Params.exists_of_securityBits h
  cases total with
  | nan => cases hnan
  | inf neg => exact fun h => nomatch h
  | fin neg m => exact fun h => nomatch h

/-- A number is no dash, for it has an exponent. -/
theorem ne_dash_of_isScientific {k : Nat} {s : String} (h : IsScientific k x s) : s ≠ "-" := by
  obtain ⟨_, _, _, _, htext, -⟩ := h
  have hmem : 'e' ∈ s.toList := by simp [htext]
  rintro rfl
  exact absurd hmem (by decide)

/-! ### The row -/

/-- The cells of the row that `custom` shows. -/
structure Cells where
  proximity : String
  folding : String
  query : String
  bound : String
  bits : String

/-- The row below its header. -/
def Cells.table (c : Cells) : Text.Table :=
  [["term_1", "term_2", "term_3", "bound", "bits"],
    [c.proximity, c.folding, c.query, c.bound, c.bits]]

/-- There is a dash in place of each term. -/
def Cells.Dashes (c : Cells) : Prop := c.proximity = "-" ∧ c.folding = "-" ∧ c.query = "-"

/-- The cells say what the library computes. -/
structure Cells.Tell (c : Cells) (p : Params Binary64) : Prop where
  bound_ok : ∀ x, p.bound = .ok x → c.bound = scientific 3 x ∧ IsScientific 3 x c.bound
  bound_error : ∀ e, p.bound = .error e → c.bound = e.message
  bits_ok : ∀ x, p.securityBits = .ok x → c.bits = fixed 2 x ∧ IsFixed 2 x c.bits
  bits_error : ∀ e, p.securityBits = .error e → c.bits = e.message
  /-- The terms are shown if there are any. -/
  terms_ok : ∀ t, p.terms = .ok t →
    (c.proximity = scientific 6 t.proximity ∧ IsScientific 6 t.proximity c.proximity) ∧
    (c.folding = scientific 6 t.folding ∧ IsScientific 6 t.folding c.folding) ∧
    c.query = scientific 6 t.query ∧ IsScientific 6 t.query c.query
  dashes_iff : c.Dashes ↔ ∃ e, p.terms = .error e
  /-- An error beside terms is the one of their sum. -/
  overflow : ¬c.Dashes → ∀ e, p.bound = .error e →
    e = .overflow .total ∧ c.bound = "Numeric overflow while computing soundness error"

theorem bitsCell_of_ok (h : p.securityBits = .ok x) :
    bitsCell p.securityBits = fixed 2 x ∧ IsFixed 2 x (bitsCell p.securityBits) := by
  rw [h]
  exact ⟨rfl, isFixed_fixed (by decide) (by decide) (ne_nan_of_securityBits h)⟩

theorem bitsCell_of_error {e : BoundError Binary64} (h : p.securityBits = .error e) :
    bitsCell p.securityBits = e.message := by
  rw [h]
  rfl

theorem exists_cells (p : Params Binary64) :
    ∃ c : Cells, customTable p = c.table ∧ c.Tell p := by
  cases hterms : p.terms with
  | error e =>
    have hbound := Params.bound_of_terms_error hterms
    have hdashes : Cells.Dashes ⟨"-", "-", "-", e.message, bitsCell p.securityBits⟩ :=
      ⟨rfl, rfl, rfl⟩
    refine ⟨⟨"-", "-", "-", e.message, bitsCell p.securityBits⟩, ?_, ?_⟩
    · rw [customTable, hterms]
      rfl
    · exact {
        bound_ok := by simp [hbound]
        bound_error := by
          rw [hbound]
          rintro _ ⟨⟩
          rfl
        bits_ok := fun x => bitsCell_of_ok
        bits_error := fun e => bitsCell_of_error
        terms_ok := by simp [hterms]
        dashes_iff := iff_of_true hdashes ⟨e, hterms⟩
        overflow := fun h => absurd hdashes h }
  | ok t =>
    obtain ⟨hproximity, hfolding, hquery⟩ := Params.isFinite_of_terms hterms
    have hshown : ∀ x : Binary64, x.isFinite = true → IsScientific 6 x (termCell x) :=
      fun x => isScientific_scientific (by decide) (by decide)
    refine ⟨⟨termCell t.proximity, termCell t.folding, termCell t.query, boundCell p.bound,
      bitsCell p.securityBits⟩, ?_, ?_⟩
    · rw [customTable, hterms]
      rfl
    · exact {
        bound_ok := by
          intro x hx
          rw [hx]
          exact ⟨rfl, isScientific_scientific (by decide) (by decide) (Params.isFinite_of_bound hx)⟩
        bound_error := by
          intro e he
          rw [he]
          rfl
        bits_ok := fun x => bitsCell_of_ok
        bits_error := fun e => bitsCell_of_error
        terms_ok := by
          rw [hterms]
          rintro _ ⟨⟩
          exact ⟨⟨rfl, hshown _ hproximity⟩, ⟨rfl, hshown _ hfolding⟩, rfl, hshown _ hquery⟩
        dashes_iff := iff_of_false (fun h => ne_dash_of_isScientific (hshown _ hproximity) h.1)
          (by simp [hterms])
        overflow := by
          intro _ e he
          obtain rfl := Params.eq_overflow_total hterms he
          rw [he]
          exact ⟨rfl, rfl⟩ }

/-- Terms that are finite one by one can be too large together. -/
example :
    let p : Params Binary64 :=
      { referenceParams with
        rateBits := 0, codewordSizeBits := 0, m := .ofInt 1, arityBits := [1021], numRounds := 1,
        fieldSizeBits := 0, numQueries := 1750 }
    p.terms.toBool = true ∧ p.bound = .error (.overflow .total) := by
  decide +kernel

/-- **The row that `custom` shows says what the library computes.** -/
theorem exists_cells_tell {args : List String} {p : Params Binary64}
    (h : Request.ofArgs ("custom" :: args) = .ok (.custom p)) :
    ∃ c : Cells, (run ("custom" :: args)).out = c.table.draw ∧ IsTable c.table c.table.draw ∧
      c.Tell p := by
  obtain ⟨c, htable, htell⟩ := exists_cells p
  have hline := oneLine_cell p
  rw [htable] at hline
  refine ⟨c, ?_, Table.isTable_draw hline, htell⟩
  rw [run_of_ok h, ← htable]
  rfl

/-- The reference instance. -/
theorem exists_cells_tell_referenceParams :
    Request.ofArgs ["custom", "1", "20", "4", "128", "80", "2,2,2"]
        = .ok (.custom referenceParams) ∧
      ∃ c : Cells, c.Tell referenceParams ∧
        (run ["custom", "1", "20", "4", "128", "80", "2,2,2"]).out = c.table.draw := by
  have h : Request.ofArgs ["custom", "1", "20", "4", "128", "80", "2,2,2"]
      = .ok (.custom referenceParams) := by decide +kernel
  obtain ⟨c, hout, -, htell⟩ := exists_cells_tell h
  exact ⟨h, c, htell, hout⟩

end Command

end FriBound

import FriBound.Command
import FriBound.Proofs.Numerals
import Mathlib.Data.List.DropRight
import Mathlib.Data.List.Forall2

/-!
# The notation of a list of numbers

A list of numbers is one text, cut at its commas. A piece without any character does not count;
every other piece is a numeral with any white space around it, and white space alone is no numeral.
A numeral has no white space inside, so taking white space off both ends finds it wherever it
stands.

## Main definitions

* `Text.Entry` — a numeral with white space around it
* `Text.entries` — the pieces of a list that count

## Main results

* `Text.numeral_trim_iff` — what is a numeral without the white space at its ends
* `Command.readArities_eq_ok_iff` — the reader of lists
-/

namespace FriBound

namespace Text

variable {cs ds before after : List Char} {n : Nat}

/-- A numeral with any white space around it. -/
inductive Entry : List Char → Nat → Prop
  | intro {before text after : List Char} {n : Nat} : (∀ c ∈ before, isBlank c = true) →
      (∀ c ∈ after, isBlank c = true) → Numeral text n → Entry (before ++ text ++ after) n

/-- The pieces between commas, without the empty ones. -/
def entries (cs : List Char) : List (List Char) := (cs.splitOn ',').filter (· ≠ [])

/-! ### Pieces -/

theorem split_eq_splitOn (c : Char) (cs : List Char) : split c cs = cs.splitOn c := by
  induction cs with
  | nil => rfl
  | cons d cs ih =>
    rw [split, ih, List.splitOn, List.splitOn, List.splitOnP_cons_eq_if_modifyHead]
    by_cases h : d = c
    · simp [h]
    · rw [if_neg h, if_neg (by simpa using h)]
      cases hcs : List.splitOnP (· == c) cs with
      | nil => exact absurd hcs (List.splitOnP_ne_nil _ _)
      | cons piece pieces => rfl

theorem pieces_eq_entries (cs : List Char) : pieces ',' cs = entries cs := by
  rw [pieces, entries, split_eq_splitOn]
  refine List.filter_congr fun piece _ => ?_
  cases piece <;> rfl

/-! ### White space -/

theorem trim_eq (cs : List Char) : trim cs = (cs.dropWhile isBlank).rdropWhile isBlank := rfl

theorem exists_eq_trim (cs : List Char) : ∃ before after, cs = before ++ trim cs ++ after ∧
    (∀ c ∈ before, isBlank c = true) ∧ ∀ c ∈ after, isBlank c = true := by
  refine ⟨cs.takeWhile isBlank, (cs.dropWhile isBlank).rtakeWhile isBlank, ?_, ?_, ?_⟩
  · rw [trim_eq, List.append_assoc, List.rdropWhile_append_rtakeWhile,
      List.takeWhile_append_dropWhile]
  · exact fun c hc => List.mem_takeWhile_imp hc
  · exact fun c hc => List.mem_rtakeWhile_imp hc

/-- A text without white space is found wherever it stands between white space. -/
theorem trim_append (hbefore : ∀ c ∈ before, isBlank c = true)
    (hafter : ∀ c ∈ after, isBlank c = true) (hne : ds ≠ [])
    (hds : ∀ c ∈ ds, isBlank c = false) : trim (before ++ ds ++ after) = ds := by
  have hfront : (before ++ ds ++ after).dropWhile isBlank = ds ++ after := by
    obtain ⟨c, cs, rfl⟩ := List.exists_cons_of_ne_nil hne
    rw [List.append_assoc, List.dropWhile_append_of_pos hbefore, List.cons_append,
      List.dropWhile_cons_of_neg (by simp [hds c List.mem_cons_self])]
  have hback : (ds ++ after).rdropWhile isBlank = ds.rdropWhile isBlank := by
    rw [List.rdropWhile, List.reverse_append, List.dropWhile_append_of_pos, List.rdropWhile]
    exact fun c hc => hafter c (List.mem_reverse.mp hc)
  rw [trim_eq, hfront, hback, List.rdropWhile_eq_self_iff]
  intro hl
  simp [hds _ (List.getLast_mem hl)]

theorem isBlank_of_isDigit {c : Char} (h : c.isDigit = true) : isBlank c = false := by
  have hc : 48 ≤ c.toNat ∧ c.toNat ≤ 57 := by
    simp only [Char.isDigit, Bool.and_eq_true, decide_eq_true_eq] at h
    exact ⟨h.1, h.2⟩
  simp only [isBlank, blankRanges, List.any_cons, List.any_nil]
  grind

end Text

theorem Numeral.ne_nil {cs : List Char} {n : Nat} (h : Numeral cs n) : cs ≠ [] := by
  rintro rfl
  exact not_numeral_nil h

theorem Numeral.isBlank_eq_false {cs : List Char} {n : Nat} (h : Numeral cs n) :
    ∀ c ∈ cs, Text.isBlank c = false := by
  cases h with
  | bare h => exact fun c hc => Text.isBlank_of_isDigit (h.isDigit c hc)
  | plus h =>
    rw [List.forall_mem_cons]
    exact ⟨by decide, fun c hc => Text.isBlank_of_isDigit (h.isDigit c hc)⟩

namespace Text

variable {cs : List Char} {n : Nat}

/-- **A numeral without the white space at its ends.** -/
theorem numeral_trim_iff : Numeral (trim cs) n ↔ Entry cs n := by
  constructor
  · intro h
    obtain ⟨before, after, hcs, hbefore, hafter⟩ := exists_eq_trim cs
    rw [hcs]
    exact .intro hbefore hafter h
  · intro h
    cases h with
    | intro hbefore hafter h => rwa [trim_append hbefore hafter h.ne_nil h.isBlank_eq_false]

theorem not_entry_of_blank (h : ∀ c ∈ cs, isBlank c = true) : ¬Entry cs n := by
  rintro ⟨-, -, hn⟩
  obtain ⟨c, text, rfl⟩ := List.exists_cons_of_ne_nil hn.ne_nil
  have hc := hn.isBlank_eq_false c List.mem_cons_self
  rw [h c (by simp)] at hc
  cases hc

end Text

/-! ### Readers and their errors -/

section

variable {ε ε' α β : Type}

theorem bind_eq_ok_iff {x : Except ε α} {f : α → Except ε β} {b : β} :
    (x >>= f) = .ok b ↔ ∃ a, x = .ok a ∧ f a = .ok b := by
  cases x with
  | error e =>
    constructor
    · intro h
      cases h
    · rintro ⟨_, ⟨⟩, _⟩
  | ok a =>
    constructor
    · exact fun h => ⟨a, rfl, h⟩
    · rintro ⟨_, ⟨⟩, h⟩
      exact h

theorem map_eq_ok_iff {x : Except ε α} {f : α → β} {b : β} :
    x.map f = .ok b ↔ ∃ a, x = .ok a ∧ f a = b := by
  cases x <;> simp [Except.map]

theorem map_eq_error_iff {x : Except ε α} {f : α → β} {e : ε} :
    x.map f = .error e ↔ x = .error e := by
  cases x <;> simp [Except.map]

theorem mapError_eq_ok_iff {x : Except ε α} {f : ε → ε'} {a : α} :
    x.mapError f = .ok a ↔ x = .ok a := by
  cases x <;> simp [Except.mapError]

theorem mapError_eq_error_iff {x : Except ε α} {f : ε → ε'} {e : ε'} :
    x.mapError f = .error e ↔ ∃ why, x = .error why ∧ f why = e := by
  cases x <;> simp [Except.mapError]

variable {f : α → Except ε β} {xs : List α}

/-- A list is read if each of its members is. -/
theorem mapM_eq_ok_iff {ys : List β} :
    xs.mapM f = .ok ys ↔ List.Forall₂ (fun x y => f x = .ok y) xs ys := by
  induction xs generalizing ys with
  | nil =>
    rw [List.mapM_nil, List.forall₂_nil_left_iff]
    exact ⟨fun h => by cases h; rfl, fun h => by rw [h]; rfl⟩
  | cons x xs ih =>
    rw [List.mapM_cons, List.forall₂_cons_left_iff, bind_eq_ok_iff]
    constructor
    · rintro ⟨y, hy, h⟩
      obtain ⟨ys', hys, h⟩ := bind_eq_ok_iff.mp h
      cases h
      exact ⟨y, ys', hy, ih.mp hys, rfl⟩
    · rintro ⟨y, ys', hy, hys, rfl⟩
      exact ⟨y, hy, bind_eq_ok_iff.mpr ⟨ys', ih.mpr hys, rfl⟩⟩

/-- An error of a list is one of a member. -/
theorem exists_eq_error_of_mapM {e : ε} (h : xs.mapM f = .error e) : ∃ x ∈ xs, f x = .error e := by
  induction xs with
  | nil => cases h
  | cons x xs ih =>
    rw [List.mapM_cons] at h
    cases hx : f x with
    | error e' =>
      rw [hx] at h
      cases h
      exact ⟨x, List.mem_cons_self, hx⟩
    | ok y =>
      cases hxs : xs.mapM f with
      | error e' =>
        rw [hx, hxs] at h
        cases h
        obtain ⟨x', hx', he⟩ := ih hxs
        exact ⟨x', List.mem_cons_of_mem x hx', he⟩
      | ok ys =>
        rw [hx, hxs] at h
        cases h

end

/-- Each member is related to something if the list is, member by member. -/
theorem exists_forall₂_iff {α β : Type} {R : α → β → Prop} {xs : List α} :
    (∃ ys, List.Forall₂ R xs ys) ↔ ∀ x ∈ xs, ∃ y, R x y := by
  induction xs with
  | nil => simp
  | cons x xs ih =>
    rw [List.forall_mem_cons, ← ih]
    simp only [List.forall₂_cons_left_iff]
    constructor
    · rintro ⟨_, y, ys, hy, hys, -⟩
      exact ⟨⟨y, hy⟩, ys, hys⟩
    · rintro ⟨⟨y, hy⟩, ys, hys⟩
      exact ⟨_, y, ys, hy, hys, rfl⟩

namespace Command

theorem readNumeral_eq_ok_iff {argument : Argument} {range : WordRange} {cs : List Char} {z : Int} :
    readNumeral argument range cs = .ok z ↔ range.read cs = .ok z := mapError_eq_ok_iff

/-- The reader of a piece of a list. -/
theorem readEntry_eq_ok_iff {piece : List Char} {a : UInt64} :
    ((readNumeral .arityBits .uint64 (Text.trim piece)).map fun n => UInt64.ofNat n.toNat) = .ok a ↔
      Text.Entry piece a.toNat := by
  rw [← Text.numeral_trim_iff, map_eq_ok_iff]
  simp only [readNumeral_eq_ok_iff, WordRange.read_uint64_eq_ok_iff]
  constructor
  · rintro ⟨_, ⟨n, hn, rfl, hlt⟩, rfl⟩
    rwa [Int.toNat_natCast, UInt64.toNat_ofNat_of_lt' hlt]
  · intro h
    exact ⟨_, ⟨_, h, rfl, a.toNat_lt⟩, by simp⟩

/-- **The reader of lists.** -/
theorem readArities_eq_ok_iff {cs : List Char} {as : List UInt64} :
    readArities cs = .ok as ↔
      List.Forall₂ (fun piece a => Text.Entry piece a.toNat) (Text.entries cs) as := by
  rw [readArities, mapM_eq_ok_iff, Text.pieces_eq_entries]
  simp only [readEntry_eq_ok_iff]

theorem exists_readArities_iff {cs : List Char} : (∃ as, readArities cs = .ok as) ↔
    ∀ piece ∈ Text.entries cs, ∃ n, Text.Entry piece n ∧ n < 2 ^ 64 := by
  simp only [readArities_eq_ok_iff, exists_forall₂_iff]
  refine forall₂_congr fun piece _ => ?_
  constructor
  · rintro ⟨a, ha⟩
    exact ⟨_, ha, a.toNat_lt⟩
  · rintro ⟨n, hn, hlt⟩
    exact ⟨.ofNat n, by rwa [UInt64.toNat_ofNat_of_lt' hlt]⟩

end Command

end FriBound

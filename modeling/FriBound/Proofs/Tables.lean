import FriBound.Proofs.Lines
import FriBound.Text.Table
import Mathlib.Algebra.Ring.Nat
import Mathlib.Data.List.GetD

/-!
# How a table looks

A table is drawn so that its borders meet. Every second line is a border, the lines between show the
rows, all lines are equally long, and the bars of a row stand under the pluses of the borders. This
rests on the widths: no cell is longer than the width of its column, so filling up brings every cell
to that width exactly. It also rests on the cells being of one line each.

## Main definitions

* `Text.Table.Framed` — borders and rows in turns, from top to bottom
* `Text.IsTable` — the text is one table, with these rows

## Main results

* `Text.Table.isTable_draw` — a drawn table is one
* `Text.IsTable.exists_lines` — the lines of a table are equally long
-/

namespace FriBound.Text

namespace Table

/-! ### The look of a table -/

/-- So many of the same character. -/
abbrev fill (n : Nat) (c : Char) : String := String.ofList (List.replicate n c)

/-- The line between two rows, with a plus at each end of a column. -/
def border (ws : List Nat) : String :=
  String.join (ws.map fun w => "+" ++ fill (w + 2) '-') ++ "+"

/-- The fields of a row side by side, with a bar at each end of a field. -/
def fieldsText (fields : List String) : String :=
  String.join (fields.map fun field => "| " ++ field ++ " ") ++ "|"

/-- The line shows the cells of the row, one in each field, filled up to the width of its column. -/
structure IsRow (ws : List Nat) (row fields : List String) : Prop where
  widths : fields.map String.length = ws
  oneLine : ∀ field ∈ fields, OneLine field
  cells : ∀ i, ∃ n, fields.getD i "" = row.getD i "" ++ fill n ' '

/-- Borders and rows in turns. -/
inductive Framed (ws : List Nat) : Table → List String → Prop
  | bottom : Framed ws [] [border ws]
  | row {row fields : List String} {t : Table} {ls : List String} :
      IsRow ws row fields → Framed ws t ls →
      Framed ws (row :: t) (border ws :: fieldsText fields :: ls)

/-- Lines one below the other. -/
def linesText (ls : List String) : String := String.join (ls.map fun l => l ++ "\n")

end Table

/-- The text is one table, with the rows of `t`. -/
def IsTable (t : Table) (s : String) : Prop :=
  ∃ ws ls, Table.Framed ws t ls ∧ s = Table.linesText ls

namespace Table

variable {t : Table} {ws : List Nat} {row fields ls : List String} {text : String}

/-! ### The lines -/

theorem length_border (ws : List Nat) : (border ws).length = (ws.map (· + 3)).sum + 1 := by
  rw [border, String.length_append, String.length_join, List.map_map]
  refine congrArg₂ _ (congrArg List.sum (List.map_congr_left fun w _ => ?_)) rfl
  simp only [Function.comp_apply, String.length_append, String.length_ofList, List.length_replicate]
  exact Nat.add_comm 1 (w + 2)

theorem IsRow.length_fieldsText (h : IsRow ws row fields) :
    (fieldsText fields).length = (ws.map (· + 3)).sum + 1 := by
  rw [fieldsText, String.length_append, String.length_join, List.map_map, ← h.widths, List.map_map]
  refine congrArg₂ _ (congrArg List.sum (List.map_congr_left fun field _ => ?_)) rfl
  simp only [Function.comp_apply, String.length_append]
  exact congrArg (· + 1) (Nat.add_comm 2 field.length)

theorem oneLine_join {ss : List String} (h : ∀ s ∈ ss, OneLine s) : OneLine (String.join ss) := by
  induction ss with
  | nil => decide
  | cons s ss ih =>
    rw [List.forall_mem_cons] at h
    rw [String.join_cons]
    exact h.1.append (ih h.2)

theorem oneLine_border (ws : List Nat) : OneLine (border ws) := by
  refine .append (oneLine_join ?_) (by decide)
  rw [List.forall_mem_map]
  exact fun w _ => .append (by decide) (oneLine_replicate (by decide) _)

theorem IsRow.oneLine_fieldsText (h : IsRow ws row fields) : OneLine (fieldsText fields) := by
  refine .append (oneLine_join ?_) (by decide)
  rw [List.forall_mem_map]
  exact fun field hfield => .append (.append (by decide) (h.oneLine field hfield)) (by decide)

/-- **The lines of a table are equally long**, and no line ends inside of one. -/
theorem Framed.length_eq (h : Framed ws t ls) :
    ∀ l ∈ ls, l.length = (ws.map (· + 3)).sum + 1 ∧ OneLine l := by
  induction h with
  | bottom => exact List.forall_mem_singleton.mpr ⟨length_border ws, oneLine_border ws⟩
  | row hrow _ ih =>
    simp only [List.forall_mem_cons]
    exact ⟨⟨length_border ws, oneLine_border ws⟩,
      ⟨hrow.length_fieldsText, hrow.oneLine_fieldsText⟩, ih⟩

theorem Framed.length_lines (h : Framed ws t ls) : ls.length = 2 * t.length + 1 := by
  induction h with
  | bottom => rfl
  | row _ _ ih =>
    simp only [List.length_cons, ih]
    omega

/-! ### The widths of the columns -/

theorem getD_widen (as bs : List Nat) (i : Nat) :
    (widen as bs).getD i 0 = max (as.getD i 0) (bs.getD i 0) := by
  induction as, bs using widen.induct generalizing i with
  | case1 ns => simp [widen]
  | case2 ns hns => simp [widen]
  | case3 a as b bs ih =>
    cases i with
    | zero => rfl
    | succ i => exact ih i

theorem le_foldl_widen (t : Table) (ws : List Nat) (i : Nat) :
    ws.getD i 0 ≤ (t.foldl (fun ws row => widen ws (row.map String.length)) ws).getD i 0 := by
  induction t generalizing ws with
  | nil => exact Nat.le_refl _
  | cons row t ih =>
    refine Nat.le_trans ?_ (ih _)
    rw [getD_widen]
    exact Nat.le_max_left _ _

theorem length_le_foldl_widen (h : row ∈ t) (ws : List Nat) (i : Nat) :
    (row.getD i "").length ≤
      (t.foldl (fun ws row => widen ws (row.map String.length)) ws).getD i 0 := by
  induction t generalizing ws with
  | nil => nomatch h
  | cons first t ih =>
    rcases List.mem_cons.mp h with rfl | h
    · refine Nat.le_trans ?_ (le_foldl_widen t _ i)
      rw [getD_widen, ← List.getD_map row "" String.length]
      exact Nat.le_max_right _ _
    · exact ih h _

/-- No cell is longer than the width of its column. -/
theorem length_le_widths (h : row ∈ t) (i : Nat) : (row.getD i "").length ≤ t.widths.getD i 0 :=
  length_le_foldl_widen h [] i

/-! ### Drawing -/

theorem length_cell {w : Nat} (h : text.length ≤ w) : (cell w text).length = w := by
  rw [cell, String.length_append, String.length_ofList, List.length_replicate]
  omega

/-- The fields of a row. -/
def fieldsOf (ws : List Nat) (row : List String) : List String :=
  ws.mapIdx fun i w => cell w (row.getD i "")

theorem ruler_eq (ws : List Nat) : ruler ws = border ws ++ "\n" := by
  rw [border, String.append_assoc]
  rfl

theorem line_eq (ws : List Nat) (row : List String) :
    line ws row = fieldsText (fieldsOf ws row) ++ "\n" := by
  have hfields : (fieldsOf ws row).map (fun field => "| " ++ field ++ " ")
      = ws.mapIdx fun i w => "| " ++ cell w (row.getD i "") ++ " " :=
    List.ext_getElem (by simp [fieldsOf]) (by simp [fieldsOf])
  rw [fieldsText, hfields, String.append_assoc]
  rfl

theorem oneLine_getD (h : ∀ text ∈ row, OneLine text) (i : Nat) : OneLine (row.getD i "") := by
  rcases Nat.lt_or_ge i row.length with hi | hi
  · rw [List.getD_eq_getElem _ _ hi]
    exact h _ (List.getElem_mem hi)
  · rw [List.getD_eq_default _ _ hi]
    decide

theorem isRow_fieldsOf (hwidth : ∀ i, (row.getD i "").length ≤ ws.getD i 0)
    (hrow : ∀ text ∈ row, OneLine text) : IsRow ws row (fieldsOf ws row) where
  widths := by
    refine List.ext_getElem (by simp [fieldsOf]) fun i _ hi => ?_
    have hcell := hwidth i
    rw [List.getD_eq_getElem _ _ hi] at hcell
    simp only [fieldsOf, List.getElem_map, List.getElem_mapIdx]
    exact length_cell hcell
  oneLine := by
    intro field hfield
    obtain ⟨i, hi, rfl⟩ := List.mem_mapIdx.mp hfield
    exact .append (oneLine_getD hrow i) (oneLine_replicate (by decide) _)
  cells := by
    intro i
    rcases Nat.lt_or_ge i ws.length with hi | hi
    · refine ⟨ws[i] - (row.getD i "").length, ?_⟩
      rw [List.getD_eq_getElem _ _ (by simpa [fieldsOf] using hi)]
      simp only [fieldsOf, List.getElem_mapIdx]
      rfl
    · -- Beyond the last column the row has no cell either.
      have hcell := hwidth i
      rw [List.getD_eq_default _ _ hi, Nat.le_zero, String.length_eq_zero_iff] at hcell
      refine ⟨0, ?_⟩
      rw [List.getD_eq_default _ _ (by simpa [fieldsOf] using hi), hcell]
      rfl

/-- The border above a row goes with it, and the last one stays. -/
theorem exists_framed (hwidth : ∀ row ∈ t, ∀ i, (row.getD i "").length ≤ ws.getD i 0)
    (hrow : ∀ row ∈ t, ∀ text ∈ row, OneLine text) : ∃ ls, Framed ws t ls ∧
      ruler ws ++ String.join (t.map fun row => line ws row ++ ruler ws) = linesText ls := by
  induction t with
  | nil => exact ⟨_, .bottom, by simp [linesText, ruler_eq]⟩
  | cons row t ih =>
    rw [List.forall_mem_cons] at hwidth hrow
    obtain ⟨ls, hframed, htext⟩ := ih hwidth.2 hrow.2
    refine ⟨_, .row (isRow_fieldsOf hwidth.1 hrow.1) hframed, ?_⟩
    rw [linesText] at htext ⊢
    rw [List.map_cons, List.map_cons, List.map_cons, String.join_cons, String.join_cons,
      String.join_cons, ← htext, ← line_eq, ← ruler_eq, String.append_assoc]

/-- **A drawn table is one table**, if its cells are of one line each. -/
theorem isTable_draw (h : ∀ row ∈ t, ∀ text ∈ row, OneLine text) : IsTable t t.draw := by
  obtain ⟨ls, hframed, hdraw⟩ := exists_framed (fun row hrow => length_le_widths hrow) h
  exact ⟨t.widths, ls, hframed, hdraw⟩

end Table

/-- The lines of a table are two for each row and one more. -/
theorem IsTable.exists_lines {t : Table} {s : String} (h : IsTable t s) :
    ∃ width ls, s = Table.linesText ls ∧ ls.length = 2 * t.length + 1 ∧
      ∀ l ∈ ls, l.length = width ∧ OneLine l := by
  obtain ⟨ws, ls, hframed, hs⟩ := h
  exact ⟨_, ls, hs, hframed.length_lines, hframed.length_eq⟩

end FriBound.Text

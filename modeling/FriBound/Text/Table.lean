/-!
# Tables

A table is a list of rows of cells. It is drawn with a border around every cell; each column is as
wide as its widest cell, and cells stand on the left.
-/

namespace FriBound.Text

/-- The rows of a table, from top to bottom. -/
abbrev Table := List (List String)

namespace Table

/-- The larger of the widths in each column. -/
def widen : List Nat → List Nat → List Nat
  | [], ns => ns
  | ns, [] => ns
  | a :: as, b :: bs => max a b :: widen as bs

/-- The widths of the columns. A row may be shorter than others. -/
def widths (t : Table) : List Nat :=
  t.foldl (fun ws row => widen ws (row.map String.length)) []

/-- A cell filled up on the right to a width. -/
def cell (width : Nat) (text : String) : String :=
  text ++ String.ofList (List.replicate (width - text.length) ' ')

/-- The line between two rows. -/
def ruler (ws : List Nat) : String :=
  String.join (ws.map fun w => "+" ++ String.ofList (List.replicate (w + 2) '-')) ++ "+\n"

/-- One row; where it is short its last columns are empty. -/
def line (ws : List Nat) (row : List String) : String :=
  String.join (ws.mapIdx fun i w => "| " ++ cell w (row.getD i "") ++ " ") ++ "|\n"

/-- The drawn table. -/
def draw (t : Table) : String :=
  let ws := t.widths
  ruler ws ++ String.join (t.map fun row => line ws row ++ ruler ws)

end Table

end FriBound.Text

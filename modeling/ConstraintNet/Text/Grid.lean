/-!
# Boxed grids

Rows of cells between lines.  Each column is as wide as its widest cell; cells
stand on the left with a blank on either side.
-/

namespace ConstraintNet.Text

/-- The width of each column: the length of its longest cell. -/
def columnWidths (rows : List (List String)) : List Nat :=
  rows.foldl (fun widths row =>
    (widths ++ List.replicate (row.length - widths.length) 0).zipWith max
      (row.map String.length ++
        List.replicate (widths.length - row.length) 0)) []

/-- The line between rows. -/
def gridLine (widths : List Nat) : String :=
  "+" ++ String.join (widths.map fun w => "".pushn '-' (w + 2) ++ "+") ++ "\n"

/-- A row of cells. -/
def gridRow (widths : List Nat) (row : List String) : String :=
  "|" ++ String.join ((widths.zip row).map fun (w, cell) =>
    " " ++ cell ++ "".pushn ' ' (w - cell.length + 1) ++ "|") ++ "\n"

/-- The grid of rows of equally many cells, with a line before, between and
after them. -/
def grid (rows : List (List String)) : String :=
  let widths := columnWidths rows
  gridLine widths ++ String.join
    (rows.map fun row => gridRow widths row ++ gridLine widths)

end ConstraintNet.Text

/-!
# Grids of text

A header and rows of cells, framed by box-drawing characters.  In the layout `Grid.lines`, of a
terminal that is wide enough, a column is as wide as its widest cell, with a blank on both sides,
and its cells stand at one of its edges.
-/

namespace LeastSquares.Report

inductive Align where
  | left
  | right
  deriving Repr, DecidableEq

structure Grid where
  header : List String
  align : List Align
  rows : List (List String)
  deriving Repr

namespace Grid

structure Rule where
  first : String
  line : Char
  crossing : String
  last : String

def top : Rule := ⟨"┌", '─', "┬", "┐"⟩

def belowHeader : Rule := ⟨"╞", '═', "╪", "╡"⟩

def betweenRows : Rule := ⟨"├", '╌', "┼", "┤"⟩

def bottom : Rule := ⟨"└", '─', "┴", "┘"⟩

/-- The width of the widest cell of each column. -/
def widths (g : Grid) : List Nat :=
  g.rows.foldl (fun widths row => List.zipWith (fun w cell => max w cell.length) widths row)
    (g.header.map String.length)

def Rule.draw (r : Rule) (widths : List Nat) : String :=
  let segments := widths.map fun w => String.ofList (List.replicate (w + 2) r.line)
  r.first ++ r.crossing.intercalate segments ++ r.last

def cell (align : Align) (width : Nat) (text : String) : String :=
  let padding := String.ofList (List.replicate (width - text.length) ' ')
  match align with
  | .left => " " ++ text ++ padding ++ " "
  | .right => " " ++ padding ++ text ++ " "

def line (align : List Align) (widths : List Nat) (row : List String) : String :=
  let cells := List.zipWith (fun (edge, width) text => cell edge width text) (align.zip widths) row
  "│" ++ "┆".intercalate cells ++ "│"

def lines (g : Grid) : List String :=
  let widths := g.widths
  let row := line g.align widths
  let body := (g.rows.map row).intersperse (betweenRows.draw widths)
  [top.draw widths, row g.header, belowHeader.draw widths] ++ body ++ [bottom.draw widths]

end Grid

end LeastSquares.Report

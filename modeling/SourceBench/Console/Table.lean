import SourceBench.Console.Cell
import SourceBench.Console.Markup

/-!
# Tables and panels

A table has a heavy box around its head and a light one around its rows.  A column is as wide as its widest cell.  Cells
and titles may have markup.
-/
namespace SourceBench.Console

structure Column where
  header : String
  align : Align := .left
deriving DecidableEq, Repr

structure Table where
  title : Option (List Char) := none
  columns : List Column
  rows : List (List (List Char))
deriving Repr

/-- The characters of one rule of a box: left end, line, crossing, right end. -/
structure BoxRule where
  left : Char
  line : Char
  cross : Char
  right : Char

def BoxRule.draw (b : BoxRule) (widths : List Nat) : List Char :=
  b.left :: (Text.join [b.cross] (widths.map fun w => List.replicate (w + 2) b.line) ++ [b.right])

def drawCells (wall : Char) (cs : List (List Char)) : List Char :=
  cs.foldl (fun acc c => acc ++ ' ' :: c ++ [' ', wall]) [wall]

def cellLines (cs : List Char) : List (List Char) := Text.splitOn '\n' cs

def drawRow (wall : Char) (layout : List (Align × Nat)) (row : List (List Char)) : List (List Char) :=
  let blocks := row.map cellLines
  let height := (blocks.map List.length).foldl max 1
  (List.range height).map fun i =>
    drawCells wall ((layout.zip blocks).map fun ((a, w), ls) => a.fit w ((ls[i]?).getD []))

def columnWidths (columns : List Column) (rows : List (List (List Char))) : List Nat :=
  columns.zipIdx.map fun (c, i) =>
    (rows.flatMap fun r => (cellLines ((r[i]?).getD [])).map cells).foldl max (cells c.header.toList)

def Table.lines? (t : Table) : Option (List (List Char)) := do
  let rows ← t.rows.mapM fun r => r.mapM Markup.plain
  let widths := columnWidths t.columns rows
  let layout := (t.columns.map (·.align)).zip widths
  let total := widths.foldr (fun w n => w + 3 + n) 1
  let title ← match t.title with
    | some cs => (Markup.plain cs).map fun cs => (wrap total cs).map (Align.center.fit total)
    | none => some []
  return title
    ++ [BoxRule.draw ⟨'┏', '━', '┳', '┓'⟩ widths]
    ++ drawRow '┃' layout (t.columns.map (·.header.toList))
    ++ [BoxRule.draw ⟨'┡', '━', '╇', '┩'⟩ widths]
    ++ rows.flatMap (drawRow '│' layout)
    ++ [BoxRule.draw ⟨'└', '─', '┴', '┘'⟩ widths]

/-- A box around one line of text, with a title in its upper edge. -/
def panel (title content : List Char) : List (List Char) :=
  let title := ' ' :: title ++ [' ']
  let width := max (cells content + 2) (cells title + 2)
  let free := width - 2 - cells title
  let line (n : Nat) : List Char := List.replicate n '─'
  ['╭' :: line (free / 2 + 1) ++ title ++ line (free - free / 2 + 1) ++ ['╮'],
    drawCells '│' [Align.left.fit (width - 2) content],
    '╰' :: line width ++ ['╯']]

end SourceBench.Console

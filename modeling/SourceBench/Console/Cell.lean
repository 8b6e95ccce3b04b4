import SourceBench.Console.CellTable
import SourceBench.Text.Lines
import SourceBench.Text.Stretch

/-!
# Cells

A screen is a grid of cells.  A character takes none, one or two of them.  Texts are padded by cells, and a text that is
too wide is broken after a word, or within a word that is too wide by itself.
-/
namespace SourceBench.Console

def charCells (c : Char) : Nat :=
  let n := c.toNat
  if 32 ≤ n && n < 127 then 1
  else if Text.inStretches narrowStretches n then 0
  else if Text.inStretches wideStretches n then 2
  else 1

def cells (cs : List Char) : Nat := cs.foldr (fun c n => charCells c + n) 0

def blanks (n : Nat) : List Char := List.replicate n ' '

inductive Align where
  | left | center | right
deriving DecidableEq, Repr

/-- A text in a number of cells.  What is left over in the middle goes to the right. -/
def Align.fit (a : Align) (width : Nat) (cs : List Char) : List Char :=
  match a with
  | .left => cs ++ blanks (width - cells cs)
  | .center =>
    let cs := Text.trimRight cs
    let free := width - cells cs
    blanks (free / 2) ++ cs ++ blanks (free - free / 2)
  | .right =>
    let cs := Text.trimRight cs
    blanks (width - cells cs) ++ cs

/-! ## Breaking -/

/-- Cuts the next word off, with the white space around it; none when only white space is left. -/
def nextWord (cs : List Char) : Option (List Char × List Char) :=
  let lead := cs.takeWhile Text.isSpace
  let rest := cs.dropWhile Text.isSpace
  let word := rest.takeWhile fun c => !Text.isSpace c
  if word.isEmpty then none
  else
    let rest := rest.dropWhile fun c => !Text.isSpace c
    some (lead ++ word ++ rest.takeWhile Text.isSpace, rest.dropWhile Text.isSpace)

/-- Words with the white space around them.  The number bounds how many. -/
def wordsOf : Nat → List Char → List (List Char)
  | 0, _ => []
  | n + 1, cs => match nextWord cs with
    | none => []
    | some (word, rest) => word :: wordsOf n rest

/-- Cuts a text into parts that each fit, from `line`, the part begun already, on. -/
def chop (width : Nat) (line : List Char) : List Char → List (List Char)
  | [] => [line]
  | c :: r => if width < cells line + charCells c then line :: chop width [c] r else chop width (line ++ [c]) r

structure Wrapped where
  full : List (List Char)
  last : List Char

/-- Starts a line, unless the last one is still empty. -/
def Wrapped.break (w : Wrapped) : Wrapped := if w.last.isEmpty then w else ⟨w.full ++ [w.last], []⟩

/-- Puts a word on the last line, or on one or more of its own. -/
def Wrapped.add (width : Nat) (w : Wrapped) (word : List Char) : Wrapped :=
  let need := cells (Text.trimRight word)
  if cells w.last + need ≤ width then ⟨w.full, w.last ++ word⟩
  else if width < need then
    let parts := chop width [] word
    ⟨w.break.full ++ parts.dropLast, parts.getLast?.getD []⟩
  else ⟨w.break.full, word⟩

def wrapLine (width : Nat) (cs : List Char) : List (List Char) :=
  let w := (wordsOf cs.length cs).foldl (Wrapped.add width) ⟨[], []⟩
  w.full ++ [w.last]

def wrap (width : Nat) (cs : List Char) : List (List Char) := (Text.splitOn '\n' cs).flatMap (wrapLine width)

end SourceBench.Console

import SourceBench.Text.Blank

/-!
# Lines

Text taken apart at its line boundaries, and put together again.
-/
namespace SourceBench.Text

def isLineBreak (c : Char) : Bool :=
  let n := c.toNat
  (10 ≤ n && n ≤ 13) || (0x1C ≤ n && n ≤ 0x1E) || n == 0x85 || n == 0x2028 || n == 0x2029

/-- The rest of a line begun with `line` (backwards), and the lines after it. -/
def splitLinesFrom (line : List Char) : List Char → List (List Char)
  | [] => if line.isEmpty then [] else [line.reverse]
  | '\r' :: '\n' :: r => line.reverse :: splitLinesFrom [] r
  | c :: r => if isLineBreak c then line.reverse :: splitLinesFrom [] r else splitLinesFrom (c :: line) r

/-- The lines of a text without their ends.  A carriage return and a line feed end one line together. -/
def splitLines (cs : List Char) : List (List Char) := splitLinesFrom [] cs

/-- The rest of a field begun with `field` (backwards), and the fields after it. -/
def splitOnFrom (mark : Char) (field : List Char) : List Char → List (List Char)
  | [] => [field.reverse]
  | c :: r => if c == mark then field.reverse :: splitOnFrom mark [] r else splitOnFrom mark (c :: field) r

/-- The fields between the occurrences of a character; always at least one. -/
def splitOn (mark : Char) (cs : List Char) : List (List Char) := splitOnFrom mark [] cs

def join (mark : List Char) : List (List Char) → List Char
  | [] => []
  | [x] => x
  | x :: y :: r => x ++ mark ++ join mark (y :: r)

def joinLines (ls : List (List Char)) : List Char := join ['\n'] ls

def dropTrailingEmpty (ls : List (List Char)) : List (List Char) :=
  (ls.reverse.dropWhile List.isEmpty).reverse

end SourceBench.Text

import SourceBench.Text.Lines

/-!
# Parameter lists

A parameter list is taken apart at the commas that no bracket encloses.  The `>` of an arrow closes no bracket.
-/
namespace SourceBench.Parameters

def isOpening (c : Char) : Bool := c == '(' || c == '<' || c == '\x7b' || c == '['

def isClosing (c : Char) : Bool := c == ')' || c == '>' || c == '\x7d' || c == ']'

/-- How many brackets are open after one more character.  `previous` stands before it in the same part. -/
def depthAfter (depth : Nat) (previous : Option Char) (c : Char) : Nat :=
  if isOpening c then depth + 1
  else if c == '>' && previous == some '=' then depth
  else if isClosing c then depth - 1
  else depth

/-- The rest of a part begun with `part` (backwards) inside `depth` brackets, and the parts after it. -/
def splitFrom (depth : Nat) (part : List Char) : List Char → List (List Char)
  | [] => [Text.trim part.reverse]
  | c :: r =>
    let depth := depthAfter depth part.head? c
    if c == ',' && depth == 0 then Text.trim part.reverse :: splitFrom 0 [] r else splitFrom depth (c :: part) r

def split (cs : List Char) : List (List Char) := (splitFrom 0 [] cs).filter (!·.isEmpty)

def withType (p : List Char) : List Char :=
  if p.contains ':' || p.contains '=' then p else p ++ ": unknown".toList

def render (cs : List Char) : List Char := Text.join ", ".toList ((split cs).map withType)

end SourceBench.Parameters

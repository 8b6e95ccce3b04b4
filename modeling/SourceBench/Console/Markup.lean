import SourceBench.Text.Blank
import SourceBench.Text.Letter
import SourceBench.Text.Search

/-!
# Markup

Tags in square brackets style the text between them.  A screen without colours drops them, so that only the plain text
stays.  A tag begins with a small letter, a number sign, a slash or an at sign; other brackets are text.  A backslash
before a tag makes it text.  A closing tag has to close an open one.
-/
namespace SourceBench.Markup

inductive Piece where
  | text (cs : List Char)
  | tag (name : List Char)
deriving DecidableEq, Repr

def beginsTag (c : Char) : Bool := ('a' ≤ c && c ≤ 'z') || c == '#' || c == '/' || c == '@'

def readTag : List Char → Option (List Char × List Char)
  | [] => none
  | c :: r =>
    if !beginsTag c then none
    else match r.dropWhile fun c => c != ']' && c != '[' with
      | ']' :: rest => some (c :: r.takeWhile fun c => c != ']' && c != '[', rest)
      | _ => none

def textPiece (cs : List Char) : List Piece := if cs.isEmpty then [] else [.text cs]

def slashes (n : Nat) : List Char := List.replicate n '\\'

/-- The pieces of a text, after `plain` and `k` backslashes.  Two backslashes before a tag stand for one.  The number
bounds the length of the text. -/
def piecesFrom : Nat → List Char → Nat → List Char → List Piece
  | 0, plain, k, cs => textPiece (plain ++ slashes k ++ cs)
  | _ + 1, plain, k, [] => textPiece (plain ++ slashes k)
  | n + 1, plain, k, '\\' :: r => piecesFrom n plain (k + 1) r
  | n + 1, plain, k, '[' :: r => match readTag r with
    | some (name, rest) =>
      let piece := if k % 2 == 1 then Piece.text ('[' :: name ++ [']']) else .tag name
      textPiece plain ++ textPiece (slashes (k / 2)) ++ piece :: piecesFrom n [] 0 rest
    | none => piecesFrom n (plain ++ slashes k ++ ['[']) 0 r
  | n + 1, plain, k, c :: r => piecesFrom n (plain ++ slashes k ++ [c]) 0 r

def pieces (cs : List Char) : List Piece := piecesFrom cs.length [] 0 cs

/-- Controls that a screen does not show. -/
def isDropped (c : Char) : Bool := [7, 8, 11, 12, 13].contains c.toNat

def shown (cs : List Char) : List Char := (Text.replaceAll ['\\', '['] ['['] cs).filter fun c => !isDropped c

def aliases : List (String × String) :=
  [("d", "dim"), ("b", "bold"), ("i", "italic"), ("u", "underline"), ("r", "reverse"), ("c", "conceal"),
    ("s", "strike"), ("uu", "underline2"), ("o", "overline")]

def styleName (cs : List Char) : List Char :=
  let name := String.ofList (Text.lower (Text.trim cs))
  (((aliases.find? (·.1 == name)).map (·.2)).getD name).toList

def tagName (cs : List Char) : List Char := cs.takeWhile (· != '=')

/-- Closes the innermost open tag of a name; one without a name closes the innermost. -/
def close (name : List Char) : List (List Char) → Option (List (List Char))
  | [] => none
  | t :: ts => if name.isEmpty || t == name then some ts else (close name ts).map (t :: ·)

def showPieces : List (List Char) → List Piece → Option (List Char)
  | _, [] => some []
  | around, .text cs :: ps => (showPieces around ps).map (shown cs ++ ·)
  | around, .tag t :: ps => match tagName t with
    | '/' :: name =>
      let name := Text.trim name
      match close (if name.isEmpty then [] else styleName name) around with
      | some around => showPieces around ps
      | none => none
    | name => showPieces (styleName name :: around) ps

/-- The plain text of a text with tags, none when a closing tag has nothing to close. -/
def plain (cs : List Char) : Option (List Char) := showPieces [] (pieces cs)

end SourceBench.Markup

import SourceBench.Text.Lines

/-!
# Margins

Moving the lines of a text to the right, and taking off the margin that they share.
-/
namespace SourceBench.Text

def indentWith (pad : List Char) (cs : List Char) : List Char :=
  joinLines ((splitOn '\n' cs).map fun l => if (trim l).isEmpty then [] else pad ++ l)

def indent (width : Int) (cs : List Char) : List Char := indentWith (List.replicate width.toNat ' ') cs

def isTabOrBlank (c : Char) : Bool := c == ' ' || c == '\t'

def sharedStart : List Char → List Char → List Char
  | a :: r, b :: s => if a == b then a :: sharedStart r s else []
  | _, _ => []

/-- Lines of blanks and tabs alone become empty. -/
def clearBlankLines (ls : List (List Char)) : List (List Char) :=
  ls.map fun l => if l.all isTabOrBlank then [] else l

def margin (ls : List (List Char)) : List Char :=
  match (ls.filter (!·.isEmpty)).map (·.takeWhile isTabOrBlank) with
  | [] => []
  | m :: ms => ms.foldl sharedStart m

def dedent (cs : List Char) : List Char :=
  let ls := clearBlankLines (splitOn '\n' cs)
  let m := margin ls
  joinLines (ls.map fun l => l.drop m.length)

end SourceBench.Text

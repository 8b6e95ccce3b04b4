/-!
# Search

Finding a text inside another, and putting a third in its place.
-/
namespace SourceBench.Text

def occurs (part : List Char) : List Char → Bool
  | [] => part.isEmpty
  | c :: r => part.isPrefixOf (c :: r) || occurs part r

/-- Every occurrence of the non-empty text `part`, from left to right, replaced by `new`.  The number counts the
characters of an occurrence that are still to be passed over. -/
def replaceFrom (part new : List Char) : Nat → List Char → List Char
  | _, [] => []
  | n + 1, _ :: r => replaceFrom part new n r
  | 0, c :: r =>
    if part.isPrefixOf (c :: r) then new ++ replaceFrom part new (part.length - 1) r
    else c :: replaceFrom part new 0 r

def replaceAll (part new cs : List Char) : List Char := replaceFrom part new 0 cs

end SourceBench.Text

import SourceBench.Text.Lines

/-!
# Licence headers
-/
namespace SourceBench.Snippet

/-- The source begins with a comment, white space aside. -/
def opensWithComment (source : List Char) : Bool :=
  match Text.trimLeft source with
  | '/' :: '*' :: _ => true
  | '/' :: '/' :: _ => true
  | _ => false

def headerComment (header : List Char) : List Char :=
  let lines := (Text.splitOn '\n' header).map fun l =>
    if (Text.trim l).isEmpty then [' ', '*'] else ' ' :: '*' :: ' ' :: l
  Text.joinLines (["/**".toList] ++ lines ++ [" */".toList])

def addHeader (source header : List Char) : List Char :=
  if opensWithComment source then source else headerComment header ++ '\n' :: '\n' :: source

end SourceBench.Snippet

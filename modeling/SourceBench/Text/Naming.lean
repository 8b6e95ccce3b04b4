import SourceBench.Text.Blank
import SourceBench.Text.Letter

/-!
# Naming conventions

Identifiers in the usual written forms, and regular English plurals.
-/
namespace SourceBench.Text

/-- Hyphens, underscores and white space divide words. -/
def isDivider (c : Char) : Bool := c == '-' || c == '_' || isSpace c

/-- Joins words: dividers vanish, and the character after them becomes a capital.  `fresh`: a divider stands before. -/
def joinWords (fresh : Bool) : List Char → List Char
  | [] => []
  | c :: r =>
    if isDivider c then joinWords true r
    else (if fresh then upperChar c else [c]) ++ joinWords false r

def mapFirst (f : List Char → List Char) : List Char → List Char
  | [] => []
  | c :: r => f [c] ++ r

/-- `user-profile` becomes `UserProfile`. -/
def pascalCase (cs : List Char) : List Char := mapFirst upper (joinWords false (trim cs))

/-- `user-profile` becomes `userProfile`. -/
def camelCase (cs : List Char) : List Char := mapFirst lower (pascalCase cs)

def isSmall (c : Char) : Bool := ('a' ≤ c && c ≤ 'z') || ('0' ≤ c && c ≤ '9')

def isBig (c : Char) : Bool := 'A' ≤ c && c ≤ 'Z'

/-- Puts a mark between a small letter and a capital after it. -/
def markCapitals (mark : Char) : List Char → List Char
  | [] => []
  | [c] => [c]
  | c :: d :: r => if isSmall c && isBig d then c :: mark :: markCapitals mark (d :: r)
      else c :: markCapitals mark (d :: r)

/-- Each run of characters of a class becomes one mark.  `open_`: a run has begun. -/
def squeeze (p : Char → Bool) (mark : Char) (open_ : Bool) : List Char → List Char
  | [] => []
  | c :: r =>
    if p c then (if open_ then squeeze p mark true r else mark :: squeeze p mark true r)
    else c :: squeeze p mark false r

/-- `UserProfile` becomes `user-profile`. -/
def kebabCase (cs : List Char) : List Char :=
  lower (squeeze (fun c => isSpace c || c == '_') '-' false (markCapitals '-' (trim cs)))

/-- `UserProfile` becomes `user_profile`. -/
def snakeCase (cs : List Char) : List Char :=
  lower (squeeze (fun c => isSpace c || c == '-') '_' false (markCapitals '_' (trim cs)))

/-- `UserProfile` becomes `USER_PROFILE`. -/
def constantCase (cs : List Char) : List Char := upper (snakeCase cs)

def endsIn (cs : List Char) (tail : String) : Bool := tail.toList.isSuffixOf cs

/-- Vowels in either case, with and without a dot. -/
def isVowel (c : Char) : Bool := "aeiouAEIOUİı".toList.contains c

def plural (cs : List Char) : List Char :=
  if endsIn cs "s" || endsIn cs "x" || endsIn cs "z" || endsIn cs "sh" || endsIn cs "ch" then cs ++ "es".toList
  else if endsIn cs "y" && !(cs.dropLast.getLast?.any isVowel) then cs.dropLast ++ "ies".toList
  else cs ++ ['s']

end SourceBench.Text

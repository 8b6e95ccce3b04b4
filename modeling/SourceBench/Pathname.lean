import SourceBench.Text.Lines

/-!
# Path names

A path name is a root and the names along the way.  Repeated slashes, single dots and slashes at the end say nothing and
are dropped; two dots stay.  Exactly two slashes at the front are a root of their own.
-/
namespace SourceBench

inductive Root where
  | here | slash | twoSlashes
deriving DecidableEq, Repr

def Root.text : Root → String
  | here => ""
  | slash => "/"
  | twoSlashes => "//"

structure Pathname where
  root : Root
  parts : List String
deriving DecidableEq, Repr

namespace Pathname

def rootOf : List Char → Root
  | '/' :: '/' :: '/' :: _ => .slash
  | '/' :: '/' :: _ => .twoSlashes
  | '/' :: _ => .slash
  | _ => .here

/-- The names in a text, empty ones and single dots left out. -/
def partsOf (cs : List Char) : List String :=
  ((Text.splitOn '/' cs).filter fun p => !p.isEmpty && p != ['.']).map String.ofList

def ofString (s : String) : Pathname := ⟨rootOf s.toList, partsOf s.toList⟩

/-- The text of a path name; a single dot where there is nothing to say. -/
def text (p : Pathname) : String :=
  match p.root, p.parts with
  | .here, [] => "."
  | r, ps => r.text ++ "/".intercalate ps

def join (p q : Pathname) : Pathname :=
  match q.root with
  | .here => ⟨p.root, p.parts ++ q.parts⟩
  | _ => q

def child (p : Pathname) (name : String) : Pathname := ⟨p.root, p.parts ++ [name]⟩

def parent (p : Pathname) : Pathname := ⟨p.root, p.parts.dropLast⟩

def name (p : Pathname) : String := p.parts.getLast?.getD ""

/-- The end of a name from its last dot on; none where the dot is at either end. -/
def suffixOf (name : String) : String :=
  let cs := name.toList
  let tail := (cs.reverse.takeWhile (· != '.')).reverse
  if tail.isEmpty || cs.length ≤ tail.length + 1 then "" else String.ofList ('.' :: tail)

def suffix (p : Pathname) : String := suffixOf p.name

end Pathname
end SourceBench

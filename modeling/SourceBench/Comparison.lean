import SourceBench.Review

/-!
# Comparison of two versions

Two versions of a source are compared by the kinds and names of their top-level declarations, and by how many lines each
of them goes on for.
-/
namespace SourceBench

structure Comparison where
  added : List String
  removed : List String
  modified : List String
deriving DecidableEq, Repr

namespace Comparison

/-- The top-level declarations of a source with their lengths; of those that share kind and name, the first. -/
def spans (o : Outline) : List (String × Int) :=
  o.tree.rootDecls.foldl
    (fun found d => if found.any (·.1 == d.identifier) then found else found ++ [(d.identifier, d.lineSpan)]) []

def lengthOf (table : List (String × Int)) (key : String) : Option Int := (table.find? (·.1 == key)).map (·.2)

def differs (tolerance : Int) (a b : Int) : Bool := tolerance < ((a - b).natAbs : Int)

def ofSpans (tolerance : Int) (old new : List (String × Int)) : Comparison where
  added := (new.map (·.1)).filter fun k => (lengthOf old k).isNone
  removed := (old.map (·.1)).filter fun k => (lengthOf new k).isNone
  modified := (old.filter fun (k, n) => (lengthOf new k).any (differs tolerance n)).map (·.1)

def ofSources [Syntax.Recovery] (t : Thresholds) (old new : List Char) : Comparison :=
  ofSpans t.diffTolerance (spans (Outline.ofSource .typescript "a.ts" old))
    (spans (Outline.ofSource .typescript "b.ts" new))

def isEmpty (c : Comparison) : Bool := c.added.isEmpty && c.removed.isEmpty && c.modified.isEmpty

def toValue (c : Comparison) : Value :=
  .object [("added", .list (c.added.map .str)), ("removed", .list (c.removed.map .str)),
    ("modified", .list (c.modified.map .str))]

end Comparison
end SourceBench

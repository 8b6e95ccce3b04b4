import SourceBench.Syntax.Grammar.Statements

/-!
# Sources that break the grammar

A source that breaks the grammar has a tree all the same, and `Recovery` says which.  All that is read from sources is
defined for any such choice; the program's own one, `Recovery.closing`, adds the braces that are missing at the end.
-/
namespace SourceBench.Syntax

/-- A choice of trees for the sources that break the grammar. -/
class Recovery where
  tree : Dialect → List Char → Tree

def treeOf [Recovery] (dialect : Dialect) (source : List Char) : Tree :=
  (parse dialect source).getD (Recovery.tree dialect source)

theorem treeOf_of_parse [Recovery] {dialect : Dialect} {source : List Char} {root : Tree}
    (h : parse dialect source = some root) : treeOf dialect source = root := by
  rw [treeOf, h, Option.getD_some]

/-! ## Missing braces -/

def Pos.clip (stop p : Pos) : Pos := ⟨min p.byte stop.byte, min p.row stop.row⟩

mutual
/-- The tree without what is behind a place: all that stands there has no width. -/
def Tree.clip (stop : Pos) : Tree → Tree
  | leaf r k s t => leaf r k ⟨s.start.clip stop, s.stop.clip stop⟩ t
  | node r k s cs => node r k ⟨s.start.clip stop, s.stop.clip stop⟩ (clipAll stop cs)
def Tree.clipAll (stop : Pos) : List Tree → List Tree
  | [] => []
  | c :: cs => Tree.clip stop c :: clipAll stop cs
end

namespace Recovery

/-- Nothing is made of a source that breaks the grammar. -/
@[reducible]
def bare : Recovery where
  tree _ _ := .node .plain .program ⟨.origin, .origin⟩ []

/-- A source that lacks braces at its end is read as if they stood behind its last token, where they have no width.
Nothing is made of any other source that breaks the grammar. -/
instance closing : Recovery where
  tree dialect source :=
    let braces (n : Nat) : List Char := '\n' :: List.replicate (n + 1) '\x7d'
    let last := (Cursor.ofSource source).skip (source.reverse.dropWhile isBlank).length
    match (List.range (source.count '\x7b')).findSome? fun n => parse dialect (source ++ braces n) with
    | some t => t.clip last.pos
    | none => bare.tree dialect source

end Recovery
end SourceBench.Syntax

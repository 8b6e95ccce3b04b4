import SourceBench.Syntax.Kind

/-!
# Syntax trees

A `Tree` is a leaf with its text or a node with its children in source order.  Both carry the span of source that they
cover, in bytes of the UTF-8 text and in rows.  Blank space between leaves is in no tree; comments are leaves.
-/
namespace SourceBench.Syntax

/-- A place in a source: how many bytes and how many line breaks stand before it. -/
structure Pos where
  byte : Nat
  row : Nat
deriving DecidableEq, Repr

def Pos.origin : Pos := ⟨0, 0⟩

/-- The place after one more character.  Only a line feed starts a row. -/
def Pos.after (p : Pos) (c : Char) : Pos :=
  ⟨p.byte + c.utf8Size, if c = '\n' then p.row + 1 else p.row⟩

structure Span where
  start : Pos
  stop : Pos
deriving DecidableEq, Repr

def dropBytes (n : Nat) : List Char → List Char
  | [] => []
  | c :: r => if n = 0 then c :: r else dropBytes (n - c.utf8Size) r

def takeBytes (n : Nat) : List Char → List Char
  | [] => []
  | c :: r => if n = 0 then [] else c :: takeBytes (n - c.utf8Size) r

def sliceBytes (source : List Char) (start stop : Nat) : List Char :=
  takeBytes (stop - start) (dropBytes start source)

def slice (source : List Char) (s : Span) : List Char := sliceBytes source s.start.byte s.stop.byte

/-- A syntax tree: a leaf with its text, or a node with its children in source order. -/
inductive Tree where
  | leaf (role : Role) (kind : Kind) (span : Span) (text : List Char)
  | node (role : Role) (kind : Kind) (span : Span) (children : List Tree)
deriving Repr

namespace Tree

def role : Tree → Role
  | leaf r _ _ _ => r
  | node r _ _ _ => r

def kind : Tree → Kind
  | leaf _ k _ _ => k
  | node _ k _ _ => k

def span : Tree → Span
  | leaf _ _ s _ => s
  | node _ _ s _ => s

def start (t : Tree) : Nat := t.span.start.byte

def stop (t : Tree) : Nat := t.span.stop.byte

def startRow (t : Tree) : Nat := t.span.start.row

def stopRow (t : Tree) : Nat := t.span.stop.row

def children : Tree → List Tree
  | leaf _ _ _ _ => []
  | node _ _ _ cs => cs

def withRole (r : Role) : Tree → Tree
  | leaf _ k s t => leaf r k s t
  | node _ k s cs => node r k s cs

def isNamed (t : Tree) : Bool := t.kind != .token

def namedChildren (t : Tree) : List Tree := t.children.filter isNamed

def child? (t : Tree) (r : Role) : Option Tree := t.children.find? (·.role == r)

def isToken (s : String) : Tree → Bool
  | leaf _ .token _ t => t == s.toList
  | _ => false

def hasToken (t : Tree) (s : String) : Bool := t.children.any (isToken s)

mutual
/-- The tree and all trees below it, each before its children. -/
def nodes : Tree → List Tree
  | leaf r k s t => [leaf r k s t]
  | node r k s cs => node r k s cs :: nodesOf cs
def nodesOf : List Tree → List Tree
  | [] => []
  | c :: cs => nodes c ++ nodesOf cs
end

theorem nodesOf_append : ∀ ts us : List Tree, nodesOf (ts ++ us) = nodesOf ts ++ nodesOf us
  | [], _ => rfl
  | t :: ts, us => by rw [List.cons_append, nodesOf, nodesOf_append ts us, nodesOf, List.append_assoc]

/-- Hands out the tree on top of a stack and puts its children there, until the stack is empty. -/
def unstack : List Tree → List Tree
  | [] => []
  | t :: stack => t :: unstack (t.children ++ stack)
termination_by stack => (nodesOf stack).length
decreasing_by cases t <;> simp [children, nodesOf, nodes, nodesOf_append]

mutual
def leaves : Tree → List Tree
  | leaf r k s t => [leaf r k s t]
  | node _ _ _ cs => leavesOf cs
def leavesOf : List Tree → List Tree
  | [] => []
  | c :: cs => leaves c ++ leavesOf cs
end

end Tree

end SourceBench.Syntax

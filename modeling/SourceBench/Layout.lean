import SourceBench.Syntax.Grammar.Statements
import SourceBench.Text.Lines

/-!
# Layout

Prints a source again from its tokens alone: two columns of indentation per open block, one statement or member to a
line, fixed spacing, and at most one empty line between statements.  Strings, templates, regular expressions and
comments are tokens as they stand.  A source that breaks the grammar only loses the white space at its line ends.
-/
namespace SourceBench.Layout

open Syntax

/-! ## Tokens in their place -/

def isAtomic : Kind → Bool
  | .string | .templateString | .templateLiteralType | .regex | .comment => true
  | _ => false

/-- Braces that always hold one member to a line. -/
def isBlockKind : Kind → Bool
  | .statementBlock | .classBody | .interfaceBody | .enumBody | .switchBody => true
  | _ => false

/-- Braces that stay on one line when they were written on one. -/
def isFlexKind : Kind → Bool
  | .object | .objectPattern | .objectType | .namedImports | .exportClause => true
  | _ => false

def hasBlock (t : Tree) : Bool := t.nodes.any (isBlockKind ·.kind)

/-- The tree's members stand on lines of their own. -/
def isBlock (t : Tree) : Bool :=
  isBlockKind t.kind || (isFlexKind t.kind && (t.startRow != t.stopRow || t.children.any hasBlock))

/-- The child is a statement of a `case` and not its value. -/
def isCaseBody (parent child : Tree) : Bool :=
  (parent.kind == .switchCase || parent.kind == .switchDefault) && child.isNamed &&
    match parent.child? .value with
    | none => true
    | some v => v.start != child.start || v.stop != child.stop

def isBrace (t : Tree) : Bool := t.isToken "\x7b" || t.isToken "\x7d"

/-- A token with the trees around it, innermost first. -/
structure Placed where
  tree : Tree
  around : List Tree
  text : List Char

mutual
def placed (source : List Char) (around : List Tree) : Tree → List Placed
  | .leaf r k s t => [⟨.leaf r k s t, around, t⟩]
  | .node r k s cs =>
    if isAtomic k then [⟨.node r k s cs, around, Syntax.slice source s⟩]
    else placedOf source (.node r k s cs :: around) cs
def placedOf (source : List Char) (around : List Tree) : List Tree → List Placed
  | [] => []
  | c :: cs => placed source around c ++ placedOf source around cs
end

namespace Placed

def parentKind (t : Placed) : Option Kind := t.around.head?.map (·.kind)

def parentSpan (t : Placed) : Option Span := t.around.head?.map (·.span)

def isToken (t : Placed) (s : String) : Bool := t.tree.isToken s

def isAny (t : Placed) (ss : List String) : Bool := ss.any t.isToken

def startsAt (start : Nat) (child : Tree) : List Tree → Bool
  | [] => false
  | parent :: rest =>
    child.start == start &&
      (parent.kind == .program || (!isBrace child && isBlock parent) || isCaseBody parent child
        || startsAt start parent rest)

def startsStatement (t : Placed) : Bool :=
  !t.isAny [";", ","] && startsAt t.tree.start t.tree t.around

def openAround (child : Tree) : List Tree → Nat
  | [] => 0
  | parent :: rest =>
    (if isBlock parent then (if isBrace child then 0 else 1) else if isCaseBody parent child then 1 else 0)
      + openAround parent rest

def depth (t : Placed) : Nat := openAround t.tree t.around

end Placed

/-! ## Spacing -/

/-- Tokens after which an opening parenthesis begins a call. -/
def isCallee (t : Placed) : Bool :=
  match t.tree.kind with
  | .identifier | .propertyIdentifier | .privatePropertyIdentifier | .typeIdentifier | .thisWord | .superWord => true
  | .token => t.isAny ["this", "super", "import"]
  | _ => false

def inGeneric (t : Placed) : Bool :=
  t.parentKind == some .typeArguments || t.parentKind == some .typeParameters

def spaceBetween (a b : Placed) : Bool :=
  let within (t : Placed) (k : Kind) : Bool := t.parentKind == some k
  if a.isAny ["(", "[", ".", "?.", "...", "@"] then false
  else if b.isAny [")", "]", ",", ";", ".", "?."] then false
  else if a.isToken "\x7b" && b.isToken "\x7d" && a.parentKind == b.parentKind then false
  else if b.isToken "(" && (isCallee a || a.isAny [")", "]"] || (a.isToken ">" && inGeneric a)) then false
  else if b.isToken "[" && (within b .subscriptExpression || within b .arrayType || within b .lookupType) then false
  else if b.isToken "<" && inGeneric b then !isCallee a
  else if b.isToken ">" && inGeneric b then false
  else if a.isToken "<" && inGeneric a then false
  else if b.isAny [":", "?"] && !(within b .ternaryExpression || within b .conditionalType) then false
  else if b.isToken "!" && !within b .unaryExpression then false
  else if a.isAny ["!", "-", "+", "~"] && within a .unaryExpression then
    a.isAny ["-", "+"] && a.text.isPrefixOf b.text
  else if b.isAny ["++", "--"] && within b .updateExpression
      && b.parentSpan.map (·.stop.byte) == some b.tree.stop then false
  else if a.isAny ["++", "--"] && within a .updateExpression
      && a.parentSpan.map (·.start.byte) == some a.tree.start then false
  else if b.tree.kind == .templateString && within b .callExpression then false
  else true

/-! ## Lines -/

def indentation (depth : Nat) : List Char := List.replicate (2 * depth) ' '

/-- A comment with its inner lines moved to the indentation. -/
def commentText (text : List Char) (depth : Nat) : List Char :=
  if !text.contains '\n' || !"/*".toList.isPrefixOf text then text
  else
    match Text.splitOn '\n' text with
    | [] => []
    | first :: rest =>
      Text.joinLines (first :: rest.map fun l =>
        let s := Text.trim l
        indentation depth ++ (if s.head? == some '*' then ' ' :: s else s))

/-- Lines printed so far (last first), the line being printed with its indentation, whether it must end, and the token
printed last. -/
structure Page where
  lines : List (List Char)
  current : List Char
  depth : Nat
  breakPending : Bool
  last : Option Placed

def Page.empty : Page := ⟨[], [], 0, false, none⟩

def Page.flush (g : Page) : Page :=
  if g.current.isEmpty then g
  else { g with lines := Text.trimRight (indentation g.depth ++ g.current) :: g.lines, current := [] }

/-- The token closes a block that does not close right after it opened. -/
def closesBlock (last : Option Placed) (t : Placed) : Bool :=
  t.isToken "\x7d" && t.around.head?.any isBlock &&
    !(last.any fun a => a.isToken "\x7b" && a.parentKind == t.parentKind && a.parentSpan == t.parentSpan)

def Page.place (g : Page) (t : Placed) : Page :=
  let isComment := t.tree.kind == .comment
  let starts := t.startsStatement
  let g :=
    if !g.current.isEmpty && (g.breakPending || starts || closesBlock g.last t || isComment) then
      let g := g.flush
      if (starts || isComment) && g.last.any (fun a => !a.isToken "\x7b" && a.tree.stopRow + 2 ≤ t.tree.startRow) then
        { g with lines := [] :: g.lines }
      else g
    else g
  let g :=
    if g.current.isEmpty then
      let d := t.depth
      { g with depth := d, current := if isComment then commentText t.text d else t.text }
    else
      { g with current := g.current ++ (if g.last.any (spaceBetween · t) then [' '] else []) ++ t.text }
  { g with breakPending := isComment, last := some t }

/-- Prints a token: a comment stays on the row of the token before it. -/
def Page.print (g : Page) (t : Placed) : Page :=
  if t.tree.kind == .comment && g.last.any (fun a => a.tree.stopRow == t.tree.startRow) then
    { g with
      current := g.current ++ ' ' :: commentText t.text g.depth
      breakPending := g.breakPending || "//".toList.isPrefixOf t.text
      last := some t }
  else g.place t

/-- The text of lines, each with its end; empty lines at the end are left out. -/
def closeLines (ls : List (List Char)) : List Char :=
  match Text.dropTrailingEmpty ls with
  | [] => []
  | l :: r => Text.joinLines (l :: r) ++ ['\n']

def lines (ts : List Placed) : List (List Char) := (ts.foldl Page.print .empty).flush.lines.reverse

def print (source : List Char) (t : Tree) : List Char := closeLines (lines (placed source [] t))

def trimLines (source : List Char) : List Char := closeLines ((Text.splitLines source).map Text.trimRight)

/-- A source in the fixed layout, or trimmed when it breaks the grammar. -/
def format (source : List Char) : List Char :=
  match parse .typescript source with
  | some t => print source t
  | none => trimLines source

end SourceBench.Layout

import SourceBench.Syntax.Lexeme

/-!
# Grammar rules and their reading

A `Rule` says how a piece of source is read: ordered choice, sequence, repetition, nodes and roles to build, and operand
chains for what would be left recursion.  `Rule.run` reads a rule against a grammar, which names one rule per `Symbol`.

Comments need no mention in a grammar.  They are read before the token that follows them, and a node hands those in
front of its first token to its parent, so a comment stands in the innermost node that has tokens on both sides of it.

A statement may close without `;`.  Where that can happen the context is `closable`, and an operand chain stops at such
a close even if a longer reading exists.
-/
namespace SourceBench.Syntax

inductive Dialect where
  | typescript | tsx
deriving DecidableEq, Repr

inductive Symbol where
  | statement | declaration | block | decorator
  | expressions | expression | operand | suffixed | primary | maker | arrow | destructuring | string | template
  | objectMember | propertyName | callSignature | parameters | arguments | classBody | classHeritage
  | type | typeArguments | typeParameters | typeAscription | returnType | objectType | typeQueryTarget
  | markup
deriving DecidableEq, Repr

structure Context where
  dialect : Dialect
  /-- A missing `;` may close what is being read. -/
  closable : Bool
  /-- The type being read ends an operand, so a binary operator may follow it. -/
  operandTail : Bool
  /-- Only links of at least this level extend an operand. -/
  level : Nat
  /-- Arrow functions have no return type here. -/
  plainArrow : Bool
deriving Repr

def Context.start (d : Dialect) : Context := ⟨d, false, false, 0, false⟩

inductive Shift where
  /-- Inside brackets: nothing is left of the surroundings. -/
  | bracketed
  /-- Inside a statement or member that a missing `;` may close. -/
  | closable
  /-- Inside a part that more of the same statement must follow. -/
  | unfinished
  | level (n : Nat)
  | plainArrow
  | operandTail
deriving Repr

def Context.shift (c : Context) : Shift → Context
  | .bracketed => .start c.dialect
  | .closable => { Context.start c.dialect with closable := true }
  | .unfinished => { c with closable := false }
  | .level n => { c with level := n }
  | .plainArrow => { c with plainArrow := true }
  | .operandTail => { c with operandTail := true }

/-- One way to extend an operand: the kind of the larger node, the role of the operand in it, the level, the kinds of
operand it takes (any, if there are none) and what follows the operand. -/
structure Link (ρ : Type) where
  kind : Kind
  role : Role
  level : Nat
  only : List Kind
  rule : ρ
deriving Repr

inductive Rule where
  /-- Punctuation, unless one of the characters `stops` follows it. -/
  | punct (text : String) (stops : String)
  /-- Punctuation that nothing may separate from the token before it. -/
  | glued (text : String)
  | word (text : String)
  /-- A leaf of a lexeme class. -/
  | lexeme (kind : Kind) (class_ : Lexeme)
  /-- A leaf of a lexeme class that nothing may separate from the token before it. -/
  | piece (kind : Kind) (class_ : Lexeme)
  | ref (symbol : Symbol)
  | seq (rules : List Rule)
  /-- The first alternative that can be read. -/
  | alt (rules : List Rule)
  | opt (rule : Rule)
  /-- As often as it can be read. -/
  | many (rule : Rule)
  | node (kind : Kind) (rule : Rule)
  | role (role : Role) (rule : Rule)
  /-- The rule can be read here; nothing is passed over. -/
  | ahead (rule : Rule)
  /-- The rule cannot be read here. -/
  | notAhead (rule : Rule)
  | under (shift : Shift) (rule : Rule)
  /-- An operand and its extensions.  After a type the chain counts as an operand only at an operand's tail. -/
  | chain (isType : Bool) (base : Rule) (links : List (Link Rule))
  /-- A `;`, or the close that a missing one makes. -/
  | close
  /-- The close that a missing `;` makes, if there is one. -/
  | optClose
  /-- No missing `;` closes the statement here. -/
  | steady
  /-- A missing `;` closes the statement here. -/
  | closing
  /-- What stands before is an operand. -/
  | operandEnd
  | only (dialect : Dialect) (rule : Rule)
  /-- Only where arrow functions may have a return type. -/
  | typedArrow
  /-- The last tree read is of one of the kinds. -/
  | among (kinds : List Kind) (rule : Rule)
  | stop

structure State where
  cursor : Cursor
  ended : Bool

/-- What reading gives: the trees read and the state behind them. -/
abbrev Reading := Option (List Tree × State)

def State.token (s : State) (kind : Kind) (length : List Char → Nat) : Reading :=
  let (comments, c) := s.cursor.trivia
  match length c.rest with
  | 0 => none
  | k + 1 =>
    let (t, d) := c.leaf kind (k + 1)
    some (comments ++ [t], ⟨d, false⟩)

def State.piece (s : State) (kind : Kind) (length : List Char → Nat) : Reading :=
  match length s.cursor.rest with
  | 0 => none
  | k + 1 =>
    let (t, d) := s.cursor.leaf kind (k + 1)
    some ([t], ⟨d, false⟩)

/-- Length of the punctuation `text` at the front, zero when it is not there or one of `stops` follows. -/
def punctLength (text stops : String) (cs : List Char) : Nat :=
  let t := text.toList
  if t.isPrefixOf cs && !((cs.drop t.length).head?.any stops.toList.contains) then t.length else 0

/-- A node over the given trees.  Comments in front stay outside. -/
def wrap (kind : Kind) (at_ : Pos) (items : List Tree) : List Tree :=
  let lead := items.takeWhile (·.kind == .comment)
  let inner := items.dropWhile (·.kind == .comment)
  let start := (inner.head?.map (·.span.start)).getD at_
  let stop := (inner.getLast?.map (·.span.stop)).getD at_
  lead ++ [.node .plain kind ⟨start, stop⟩ inner]

def assign (r : Role) (items : List Tree) : List Tree :=
  items.map fun t => if t.kind == .comment then t else t.withRole r

def inOrder (read : Rule → State → Reading) : List Rule → State → Reading
  | [], s => some ([], s)
  | r :: rs, s =>
    match read r s with
    | none => none
    | some (ts, s') =>
      match inOrder read rs s' with
      | none => none
      | some (us, s'') => some (ts ++ us, s'')

def firstOf (read : Rule → State → Reading) : List Rule → State → Reading
  | [], _ => none
  | r :: rs, s =>
    match read r s with
    | none => firstOf read rs s
    | some x => some x

def repeatedly (read : State → Reading) : Nat → State → List Tree × State
  | 0, s => ([], s)
  | n + 1, s =>
    match read s with
    | none => ([], s)
    | some (ts, s') =>
      if s.cursor.pos.byte < s'.cursor.pos.byte then
        let (us, s'') := repeatedly read n s'
        (ts ++ us, s'')
      else ([], s)

def firstLink (read : Rule → State → Reading) (level : Nat) : List (Link Rule) → List Tree → State → Reading
  | [], _, _ => none
  | l :: ls, acc, s =>
    if l.level < level || (!l.only.isEmpty && !(acc.getLast?.any (l.only.contains ·.kind))) then
      firstLink read level ls acc s
    else
      match read l.rule s with
      | none => firstLink read level ls acc s
      | some (ts, s') => some (wrap l.kind s.cursor.pos (assign l.role acc ++ ts), s')

/-- Extends an operand as often as a link can be read and no close comes before it. -/
def extend (read : Rule → State → Reading) (c : Context) (isType : Bool) (links : List (Link Rule)) :
    Nat → List Tree → State → List Tree × State
  | 0, acc, s => (acc, s)
  | n + 1, acc, s =>
    let s := { s with ended := if isType then c.operandTail else true }
    if c.closable && (s.cursor.close? s.ended).isSome then (acc, s)
    else
      match firstLink read c.level links acc s with
      | none => (acc, s)
      | some (acc', s') => extend read c isType links n acc' s'

/-- Reads a rule.  The first number bounds the depth of rules in rules and the length of repetitions. -/
def Rule.run (grammar : Symbol → Rule) : Nat → Context → Rule → State → Reading
  | 0, _, _, _ => none
  | n + 1, c, rule, s =>
    match rule with
    | punct text stops => s.token .token (punctLength text stops)
    | glued text => s.piece .token (punctLength text "")
    | word text => s.token .token (keywordLength text)
    | lexeme k l => s.token k l.length
    | piece k l => s.piece k l.length
    | ref x => run grammar n c (grammar x) s
    | seq rs => inOrder (run grammar n c) rs s
    | alt rs => firstOf (run grammar n c) rs s
    | opt r => match run grammar n c r s with
      | none => some ([], s)
      | some x => some x
    | many r => some (repeatedly (run grammar n c r) n s)
    | node k r => match run grammar n c r s with
      | none => none
      | some (ts, s') => some (wrap k s.cursor.pos ts, s')
    | role f r => match run grammar n c r s with
      | none => none
      | some (ts, s') => some (assign f ts, s')
    | ahead r => match run grammar n c r s with
      | none => none
      | some _ => some ([], s)
    | notAhead r => match run grammar n c r s with
      | none => some ([], s)
      | some _ => none
    | under x r => run grammar n (c.shift x) r s
    | chain isType base links => match run grammar n c base s with
      | none => none
      | some (ts, s') => some (extend (run grammar n c) c isType links n ts s')
    | close => match s.cursor.close? s.ended with
      | some (ts, d) => some (ts, ⟨d, false⟩)
      | none => s.token .token (punctLength ";" "")
    | optClose => match s.cursor.close? s.ended with
      | some (ts, d) => some (ts, ⟨d, false⟩)
      | none => some ([], s)
    | steady => if c.closable && (s.cursor.close? s.ended).isSome then none else some ([], s)
    | closing => if c.closable && (s.cursor.close? s.ended).isSome then some ([], s) else none
    | operandEnd => some ([], { s with ended := true })
    | only d r => if c.dialect = d then run grammar n c r s else none
    | typedArrow => if c.plainArrow then none else some ([], s)
    | among ks r => match run grammar n c r s with
      | none => none
      | some (ts, s') => if ts.getLast?.any (ks.contains ·.kind) then some (ts, s') else none
    | stop => match s.cursor.trivia with
      | (comments, ⟨[], p⟩) => some (comments, ⟨⟨[], p⟩, false⟩)
      | _ => none

end SourceBench.Syntax

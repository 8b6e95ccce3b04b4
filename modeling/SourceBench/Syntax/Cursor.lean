import SourceBench.Syntax.Tree

/-!
# Reading characters

A `Cursor` is the unread part of a source with the place where it begins.  This module says what is blank, what is a
comment, which characters make a word, and when a line end closes a statement that has no `;`.
-/
namespace SourceBench.Syntax

structure Cursor where
  rest : List Char
  pos : Pos
deriving DecidableEq, Repr

namespace Cursor

def ofSource (source : List Char) : Cursor := ⟨source, .origin⟩

def skip : Nat → Cursor → Cursor
  | 0, c => c
  | _ + 1, ⟨[], p⟩ => ⟨[], p⟩
  | n + 1, ⟨a :: r, p⟩ => skip n ⟨r, p.after a⟩

/-- A leaf of the next `n` characters, and the cursor behind it. -/
def leaf (kind : Kind) (n : Nat) (c : Cursor) : Tree × Cursor :=
  let d := c.skip n
  (.leaf .plain kind ⟨c.pos, d.pos⟩ (c.rest.take n), d)

end Cursor

/-! ## Character classes -/

/-- Blank space between tokens: Unicode white space, the zero width space, the word joiner and the byte order mark. -/
def isBlank (c : Char) : Bool :=
  let n := c.toNat
  (9 ≤ n && n ≤ 13) || n == 32 || n == 0x85 || n == 0xA0 || n == 0x1680 || (0x2000 ≤ n && n ≤ 0x200B)
    || n == 0x2028 || n == 0x2029 || n == 0x202F || n == 0x205F || n == 0x2060 || n == 0x3000 || n == 0xFEFF

/-- Blank space that the search for a closing line end passes over: no no-break spaces among it. -/
def isOpenBlank (c : Char) : Bool :=
  let n := c.toNat
  (9 ≤ n && n ≤ 13) || n == 32 || n == 0x1680 || (0x2000 ≤ n && n ≤ 0x2006) || (0x2008 ≤ n && n ≤ 0x200A)
    || n == 0x2028 || n == 0x2029 || n == 0x205F || n == 0x3000

/-- A line comment ends before these. -/
def isLineEnd (c : Char) : Bool := c == '\n' || c == '\r' || c.toNat == 0x2028 || c.toNat == 0x2029

def isDigit (c : Char) : Bool := '0' ≤ c && c ≤ '9'

def isHexDigit (c : Char) : Bool := isDigit c || ('a' ≤ c && c ≤ 'f') || ('A' ≤ c && c ≤ 'F')

def isLatin (c : Char) : Bool := ('a' ≤ c && c ≤ 'z') || ('A' ≤ c && c ≤ 'Z')

/-- Characters that may continue a word: all but controls, blanks and punctuation. -/
def isWordChar (c : Char) : Bool :=
  32 ≤ c.toNat && !isBlank c && !(":;`\"'@#.,|^&<=>+-*/\\%?!~()[]\x7b\x7d".toList.contains c)

def isWordStart (c : Char) : Bool := isWordChar c && !isDigit c

/-- Letters, as the search for a closing line end sees them. -/
def isLetter (c : Char) : Bool := isLatin c || (128 ≤ c.toNat && isWordChar c)

/-! ## Comments -/

/-- Length of the text up to and with `*/`; zero when it is missing. -/
def closeLength : Nat → List Char → Nat
  | n, '*' :: '/' :: _ => n + 2
  | n, _ :: r => closeLength (n + 1) r
  | _, [] => 0

/-- Length of the comment that begins here; zero when there is none. -/
def commentLength : List Char → Nat
  | '/' :: '/' :: r => 2 + (r.takeWhile (! isLineEnd ·)).length
  | '/' :: '*' :: r => closeLength 2 r
  | _ => 0

def Cursor.skipBlank (c : Cursor) : Cursor := c.skip (c.rest.takeWhile isBlank).length

/-- The comments before the next token, and the cursor at that token.  `n` bounds the number of comments. -/
def trivia : Nat → Cursor → List Tree × Cursor
  | 0, c => ([], c.skipBlank)
  | n + 1, c =>
    let d := c.skipBlank
    match commentLength d.rest with
    | 0 => ([], d)
    | k + 1 =>
      let (t, e) := d.leaf .comment (k + 1)
      let (ts, f) := trivia n e
      (t :: ts, f)

def Cursor.trivia (c : Cursor) : List Tree × Cursor := Syntax.trivia c.rest.length c

/-! ## Statements closed by a line end -/

def dropLine (cs : List Char) : List Char :=
  cs.dropWhile fun c => !(c == '\n' || c.toNat == 0x2028 || c.toNat == 0x2029)

/-- Drops text up to and with `*/`, or all of it. -/
def dropClose : List Char → List Char
  | '*' :: '/' :: r => r
  | _ :: r => dropClose r
  | [] => []

/-- The text after blanks and comments, or `none` at a slash that opens no comment.  `n` bounds the comments. -/
def afterComments : Nat → List Char → Option (List Char)
  | 0, _ => none
  | n + 1, cs =>
    match cs.dropWhile isOpenBlank with
    | '/' :: '/' :: r => afterComments n (dropLine r)
    | '/' :: '*' :: r => afterComments n (dropClose r)
    | '/' :: _ => none
    | r => some r

/-- A statement may close before this text on a new row.  `operand`: a binary operator could continue what stands
before, so an opening bracket does as well. -/
def closesBefore (operand : Bool) : List Char → Bool
  | [] => true
  | '+' :: r => r.head? == some '+'
  | '-' :: r => r.head? == some '-'
  | '!' :: r => r.head? != some '='
  | 'i' :: 'n' :: r =>
    match r.head? with
    | none => false
    | some c =>
      if !isLetter c then false
      else if "stanceof".toList.isPrefixOf r then (r.drop 8).head?.any isLetter
      else true
  | c :: _ =>
    if "`,.;*%>=<?^|&/:".toList.contains c then false
    else if c == '(' || c == '[' then !operand
    else true

/-- The statement that ends here needs no `;`: the source ends, a brace closes, or a row ends and what follows cannot
continue it. -/
def closesHere (operand : Bool) : List Char → Bool
  | [] => true
  | '\x7d' :: r => if (r.dropWhile isOpenBlank).head? == some ':' then operand else true
  | '\n' :: r =>
    match afterComments (r.length + 1) r with
    | none => false
    | some s => closesBefore operand s
  | c :: r => if isOpenBlank c then closesHere operand r else false

/-- The comments that still belong to a statement closed without `;`, and the cursor where it closes; `none` when it
does not close. -/
def pendingClose (operand : Bool) : Nat → Cursor → Option (List Tree × Cursor)
  | 0, _ => none
  | n + 1, c =>
    if closesHere operand c.rest then some ([], c)
    else
      let d := c.skipBlank
      match commentLength d.rest with
      | 0 => none
      | k + 1 =>
        let (t, e) := d.leaf .comment (k + 1)
        (pendingClose operand n e).map fun (ts, f) => (t :: ts, f)

/-- The close that a missing `;` makes at this cursor, if there is one. -/
def Cursor.close? (c : Cursor) (operand : Bool) : Option (List Tree × Cursor) :=
  pendingClose operand (c.rest.length + 1) c

end SourceBench.Syntax

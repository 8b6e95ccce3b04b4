import SourceBench.Syntax.Cursor

/-!
# Lexemes

The classes of leaves that grammar rules ask for: words, numbers, the pieces of strings, templates and regular
expressions, markup text.  `Lexeme.length` is the number of characters that a class takes from the front of a text, zero
for no match.  A class always takes as much as it can.
-/
namespace SourceBench.Syntax

/-- Words that are never a name. -/
def keywords : List String :=
  ["break", "case", "catch", "class", "const", "continue", "debugger", "default", "delete", "do", "else", "enum",
   "export", "extends", "false", "finally", "for", "function", "if", "import", "in", "instanceof", "new", "null",
   "return", "super", "switch", "this", "throw", "true", "try", "typeof", "var", "void", "while", "with", "yield",
   "await"]

/-- Words with a meaning of their own that may also stand as a name. -/
def looseWords : List String :=
  ["declare", "namespace", "type", "public", "private", "protected", "override", "readonly", "module", "any", "number",
   "boolean", "string", "symbol", "export", "object", "new", "get", "set", "async", "static", "let"]

/-- Length of a `\u` escape inside a word. -/
def wordEscapeLength : List Char → Nat
  | '\\' :: 'u' :: '\x7b' :: r =>
    let n := (r.takeWhile isHexDigit).length
    if n != 0 && (r.drop n).head? == some '\x7d' then n + 4 else 0
  | '\\' :: 'u' :: r => if (r.take 4).length == 4 && (r.take 4).all isHexDigit then 6 else 0
  | _ => 0

/-- Length of the word characters and escapes at the front.  `n` bounds the number of pieces. -/
def wordTailLength : Nat → List Char → Nat
  | 0, _ => 0
  | _, [] => 0
  | n + 1, c :: r =>
    if isWordChar c then 1 + wordTailLength n r
    else match wordEscapeLength (c :: r) with
      | 0 => 0
      | k + 1 => k + 1 + wordTailLength n ((c :: r).drop (k + 1))

def wordLength : List Char → Nat
  | [] => 0
  | c :: r =>
    if isWordStart c || wordEscapeLength (c :: r) != 0 then wordTailLength (r.length + 1) (c :: r) else 0

/-- Length of a run of digits, single underscores between them. -/
def digitsLength (digit : Char → Bool) : List Char → Nat
  | [] => 0
  | [c] => if digit c then 1 else 0
  | c :: d :: r =>
    if !digit c then 0
    else if d == '_' && r.head?.any digit then
      2 + digitsLength digit r
    else 1 + digitsLength digit (d :: r)

def exponentLength : List Char → Nat
  | c :: r =>
    if c == 'e' || c == 'E' then
      let sign := if r.head? == some '+' || r.head? == some '-' then 1 else 0
      match digitsLength isDigit (r.drop sign) with
      | 0 => 0
      | n + 1 => 1 + sign + (n + 1)
    else 0
  | [] => 0

/-- Length of digits in a base, with the mark of a big integer if it is there. -/
def markedDigitsLength (digit : Char → Bool) (cs : List Char) : Nat :=
  match digitsLength digit cs with
  | 0 => 0
  | n + 1 => if (cs.drop (n + 1)).head? == some 'n' then n + 2 else n + 1

/-- Length of a number without a base mark. -/
def decimalLength (cs : List Char) : Nat :=
  let whole := digitsLength isDigit cs
  let r := cs.drop whole
  match r with
  | 'n' :: _ => if whole == 0 then 0 else whole + 1
  | '.' :: s =>
    let part := digitsLength isDigit s
    if whole == 0 && part == 0 then 0
    else whole + 1 + part + exponentLength (s.drop part)
  | _ => if whole == 0 then 0 else whole + exponentLength r

def numberLength (cs : List Char) : Nat :=
  let based (digit : Char → Bool) (r : List Char) : Nat :=
    match markedDigitsLength digit r with
    | 0 => decimalLength cs
    | n + 1 => n + 3
  match cs with
  | '0' :: 'x' :: r => based isHexDigit r
  | '0' :: 'X' :: r => based isHexDigit r
  | '0' :: 'b' :: r => based (fun c => c == '0' || c == '1') r
  | '0' :: 'B' :: r => based (fun c => c == '0' || c == '1') r
  | '0' :: 'o' :: r => based (fun c => '0' ≤ c && c ≤ '7') r
  | '0' :: 'O' :: r => based (fun c => '0' ≤ c && c ≤ '7') r
  | _ => decimalLength cs

def escapeLength : List Char → Nat
  | '\\' :: '\r' :: '\n' :: _ => 3
  | '\\' :: 'x' :: r => if (r.take 2).length == 2 && (r.take 2).all isHexDigit then 4 else 0
  | '\\' :: 'u' :: r => wordEscapeLength ('\\' :: 'u' :: r)
  | '\\' :: c :: r =>
    if '0' ≤ c && c ≤ '7' then 1 + (((c :: r).take 3).takeWhile fun d => '0' ≤ d && d ≤ '7').length else 2
  | _ => 0

/-- Length of template text up to the next escape, substitution or closing mark. -/
def templateLength : List Char → Nat
  | [] => 0
  | '`' :: _ => 0
  | '\\' :: _ => 0
  | '$' :: '\x7b' :: _ => 0
  | _ :: r => 1 + templateLength r

/-- Length of a bracketed class in a regular expression, without its opening bracket; zero when it is not closed. -/
def regexClassLength : Nat → List Char → Nat
  | _, [] => 0
  | n, ']' :: _ => n + 1
  | _, '\n' :: _ => 0
  | n, '\\' :: c :: r => if c == '\n' then 0 else regexClassLength (n + 2) r
  | n, _ :: r => regexClassLength (n + 1) r

/-- Length of the pattern of a regular expression.  `n` bounds the number of pieces. -/
def regexLength : Nat → List Char → Nat
  | 0, _ => 0
  | _, [] => 0
  | n + 1, c :: r =>
    if c == '/' || c == '\n' then 0
    else if c == '\\' then
      match r with
      | d :: s => if d == '\n' then 0 else 2 + regexLength n s
      | [] => 0
    else if c == '[' then
      match regexClassLength 0 r with
      | 0 => 0
      | k + 1 => k + 2 + regexLength n (r.drop (k + 1))
    else 1 + regexLength n r

/-- Length of markup text; zero when it is only row ends and the blanks that follow them.  `seen`: there was other text.
`fresh`: only blanks since the last row end. -/
def markupLength (seen fresh : Bool) (n : Nat) : List Char → Nat
  | [] => if seen then n else 0
  | c :: r =>
    if "<>&\x7b\x7d".toList.contains c then (if seen then n else 0)
    else if c == '\n' then markupLength seen true (n + 1) r
    else
      let fresh' := fresh && isOpenBlank c
      markupLength (seen || !fresh') fresh' (n + 1) r

/-- Length of a character reference such as `&amp;`. -/
def referenceLength : List Char → Nat
  | '&' :: '#' :: r =>
    let n := match r with
      | 'x' :: s => 1 + (s.takeWhile isHexDigit).length
      | 'X' :: s => 1 + (s.takeWhile isHexDigit).length
      | _ => (r.takeWhile isDigit).length
    if n != 0 && (r.drop n).head? == some ';' then n + 3 else 0
  | '&' :: r =>
    let n := (r.takeWhile isLatin).length
    if n != 0 && (r.drop n).head? == some ';' then n + 2 else 0
  | _ => 0

/-- Length of a tag or attribute name: a word that may hold hyphens. -/
def tagLength (cs : List Char) : Nat :=
  match wordLength cs with
  | 0 => 0
  | _ + 1 => (cs.takeWhile fun c => isWordChar c || c == '-').length

/-- Length of the keyword `text` at the front, zero when the word there is another. -/
def keywordLength (text : String) (cs : List Char) : Nat :=
  let t := text.toList
  if t.isPrefixOf cs && wordLength cs == t.length then t.length else 0

/-- The classes of leaves: fixed words that count as named, and leaves whose text is not fixed. -/
inductive Lexeme where
  | exactly (text : String)
  | name | anyWord | looseWord | privateName | number
  | singleQuoted | doubleQuoted | quoteless (quote : Char) | escape | templateText
  | regexPattern | regexFlags | hashBang
  | markupText | reference | tag
deriving DecidableEq, Repr

/-- How many characters of the text the class takes; zero when the text does not begin with such a leaf. -/
def Lexeme.length (cs : List Char) : Lexeme → Nat
  | exactly text => keywordLength text cs
  | name =>
    let n := wordLength cs
    if (keywords.map String.toList).contains (cs.take n) then 0 else n
  | anyWord => wordLength cs
  | looseWord =>
    let n := wordLength cs
    if (looseWords.map String.toList).contains (cs.take n) then n else 0
  | privateName =>
    match cs with
    | '#' :: r => match wordLength r with
      | 0 => 0
      | n + 1 => n + 2
    | _ => 0
  | number => numberLength cs
  | singleQuoted => (cs.takeWhile fun c => !(c == '\'' || c == '\\' || c == '\r' || c == '\n')).length
  | doubleQuoted => (cs.takeWhile fun c => !(c == '"' || c == '\\' || c == '\r' || c == '\n')).length
  | quoteless q => (cs.takeWhile (· != q)).length
  | escape => escapeLength cs
  | templateText => templateLength cs
  | regexPattern => regexLength (cs.length + 1) cs
  | regexFlags => (cs.takeWhile fun c => 'a' ≤ c && c ≤ 'z').length
  | hashBang => match cs with
    | '#' :: '!' :: r => 2 + (r.takeWhile (· != '\n')).length
    | _ => 0
  | markupText => markupLength false false 0 cs
  | reference => referenceLength cs
  | tag => tagLength cs

end SourceBench.Syntax

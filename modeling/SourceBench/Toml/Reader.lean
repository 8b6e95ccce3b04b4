import SourceBench.Value

/-!
# Reading TOML

Tables, dotted tables, strings, whole numbers, floats, truth values, arrays and inline tables.  A key or a table that is
defined twice, and an array of items of different types, make a text invalid.
-/
namespace SourceBench.Toml

/-! ## Blank space -/

def isBlank (c : Char) : Bool := c == ' ' || c == '\t'

def dropComment : List Char → List Char
  | '#' :: r => r.dropWhile (· != '\n')
  | cs => cs

def skipLine (cs : List Char) : List Char := dropComment (cs.dropWhile isBlank)

/-- Drops blanks, line ends and comments.  The number bounds how many lines. -/
def skipLines : Nat → List Char → List Char
  | 0, cs => cs
  | n + 1, cs => match skipLine cs with
    | '\n' :: r => skipLines n r
    | r => r

def skipAll (cs : List Char) : List Char := skipLines (cs.length + 1) cs

/-! ## Strings -/

def hexValue (c : Char) : Option Nat :=
  if '0' ≤ c && c ≤ '9' then some (c.toNat - 48)
  else if 'a' ≤ c && c ≤ 'f' then some (c.toNat - 87)
  else if 'A' ≤ c && c ≤ 'F' then some (c.toNat - 55)
  else none

def hexNumber (ds : List Char) : Option Nat :=
  ds.foldl (fun acc c => match acc, hexValue c with
    | some n, some d => some (16 * n + d)
    | _, _ => none) (some 0)

def numberedChar (width : Nat) (cs : List Char) : Option (Char × List Char) :=
  if cs.length < width then none
  else match hexNumber (cs.take width) with
    | some n => if n < 0x110000 && !(0xD800 ≤ n && n < 0xE000) then some (Char.ofNat n, cs.drop width) else none
    | none => none

def escapedChar : List Char → Option (Char × List Char)
  | '0' :: r => some (Char.ofNat 0, r)
  | 'b' :: r => some (Char.ofNat 8, r)
  | 't' :: r => some ('\t', r)
  | 'n' :: r => some ('\n', r)
  | 'f' :: r => some (Char.ofNat 12, r)
  | 'r' :: r => some ('\r', r)
  | '"' :: r => some ('"', r)
  | '\\' :: r => some ('\\', r)
  | 'u' :: r => numberedChar 4 r
  | 'U' :: r => numberedChar 8 r
  | _ => none

def basicString : Nat → List Char → List Char → Option (List Char × List Char)
  | 0, _, _ => none
  | n + 1, acc, cs => match cs with
    | '"' :: r => some (acc.reverse, r)
    | '\\' :: r => match escapedChar r with
      | some (c, s) => basicString n (c :: acc) s
      | none => none
    | '\n' :: _ => none
    | c :: r => basicString n (c :: acc) r
    | [] => none

def literalString : List Char → List Char → Option (List Char × List Char)
  | _, [] => none
  | _, '\n' :: _ => none
  | acc, '\'' :: r => some (acc.reverse, r)
  | acc, c :: r => literalString (c :: acc) r

def longString : Nat → List Char → List Char → Option (List Char × List Char)
  | 0, _, _ => none
  | n + 1, acc, cs => match cs with
    | '"' :: '"' :: '"' :: r => some (acc.reverse, r)
    | '\\' :: '\n' :: r => longString n acc (r.dropWhile fun c => isBlank c || c == '\n')
    | '\\' :: r => match escapedChar r with
      | some (c, s) => longString n (c :: acc) s
      | none => none
    | c :: r => longString n (c :: acc) r
    | [] => none

def longLiteral : List Char → List Char → Option (List Char × List Char)
  | _, [] => none
  | acc, '\'' :: '\'' :: '\'' :: r => some (acc.reverse, r)
  | acc, c :: r => longLiteral (c :: acc) r

def dropFirstBreak : List Char → List Char
  | '\n' :: r => r
  | cs => cs

def readString : List Char → Option (List Char × List Char)
  | '"' :: '"' :: '"' :: r => longString (r.length + 1) [] (dropFirstBreak r)
  | '\'' :: '\'' :: '\'' :: r => longLiteral [] (dropFirstBreak r)
  | '"' :: r => basicString (r.length + 1) [] r
  | '\'' :: r => literalString [] r
  | _ => none

/-! ## Numbers -/

def isDigit (c : Char) : Bool := '0' ≤ c && c ≤ '9'

def natOf (ds : List Char) : Nat := ds.foldl (fun n c => 10 * n + (c.toNat - 48)) 0

/-- Two underscores stand side by side. -/
def hasDoubleMark : List Char → Bool
  | '_' :: '_' :: _ => true
  | _ :: r => hasDoubleMark r
  | [] => false

/-- Underscores stand between digits, and a number of several digits does not begin with zero. -/
def isNeat (word : List Char) : Bool :=
  let body := match word with
    | '+' :: r => r
    | '-' :: r => r
    | r => r
  let leadingZero := match body with
    | '0' :: c :: _ => !(c == '.' || c == 'x' || c == 'o' || c == 'b' || c == 'e' || c == 'E')
    | _ => false
  !body.isEmpty && body.head? != some '_' && body.getLast? != some '_' && !hasDoubleMark body && !leadingZero

def basedNumber (base : Nat) (ds : List Char) : Option Nat :=
  if ds.isEmpty then none
  else ds.foldl (fun acc c => match acc, hexValue c with
    | some n, some d => if d < base then some (base * n + d) else none
    | _, _ => none) (some 0)

def wholeNumber : List Char → Option Nat
  | '0' :: 'x' :: ds => basedNumber 16 ds
  | '0' :: 'o' :: ds => basedNumber 8 ds
  | '0' :: 'b' :: ds => basedNumber 2 ds
  | ds => if ds.isEmpty || !ds.all isDigit then none else some (natOf ds)

/-- The exponent of a float: nothing, or a mark, a sign and digits. -/
def exponentOf : List Char → Option Int
  | [] => some 0
  | c :: r =>
    if c == 'e' || c == 'E' then
      let (negative, ds) := match r with
        | '-' :: s => (true, s)
        | '+' :: s => (false, s)
        | s => (false, s)
      if ds.isEmpty || !ds.all isDigit then none
      else some (if negative then -(natOf ds : Int) else natOf ds)
    else none

def floatNumber (negative : Bool) (cs : List Char) : Option Binary64 :=
  let whole := cs.takeWhile isDigit
  let rest := cs.drop whole.length
  let (fraction, tail, pointed) := match rest with
    | '.' :: r => (r.takeWhile isDigit, r.dropWhile isDigit, true)
    | r => ([], r, false)
  if whole.isEmpty || (pointed && fraction.isEmpty) then none
  else match exponentOf tail with
    | some x => some (.ofDecimal negative (natOf (whole ++ fraction)) (x - fraction.length))
    | none => none

def readWord (word : List Char) : Option Value :=
  if word == "true".toList then some (.bool true)
  else if word == "false".toList then some (.bool false)
  else if !isNeat word then none
  else
    let (negative, body) := match word with
      | '-' :: r => (true, r)
      | '+' :: r => (false, r)
      | r => (false, r)
    let body := body.filter (· != '_')
    if body == "inf".toList then some (.float (.infinite negative))
    else if body == "nan".toList then some (.float .nan)
    else match wholeNumber body with
      | some n => some (.int (if negative then -(n : Int) else n))
      | none => (floatNumber negative body).map .float

def isWordChar (c : Char) : Bool := c.isAlphanum || c == '_' || c == '.' || c == '+' || c == '-'

/-! ## Keys -/

def isKeyChar (c : Char) : Bool := c.isAlphanum || c == '_' || c == '-' || 128 ≤ c.toNat

def readKey (cs : List Char) : Option (String × List Char) :=
  match cs with
  | '"' :: _ => (readString cs).map fun (k, r) => (String.ofList k, r)
  | '\'' :: _ => (readString cs).map fun (k, r) => (String.ofList k, r)
  | cs => match cs.takeWhile isKeyChar with
    | [] => none
    | k => some (String.ofList k, cs.dropWhile isKeyChar)

def readPath : Nat → List Char → Option (List String × List Char)
  | 0, _ => none
  | n + 1, cs => match readKey (cs.dropWhile isBlank) with
    | none => none
    | some (k, r) => match r.dropWhile isBlank with
      | '.' :: s => (readPath n s).map fun (ks, t) => (k :: ks, t)
      | s => some ([k], s)

/-! ## Values -/

def typeMark : Value → Nat
  | .null => 0
  | .bool _ => 1
  | .int _ => 2
  | .float _ => 3
  | .str _ => 4
  | .list _ => 5
  | .object _ => 6

def ofOneType : List Value → Bool
  | [] => true
  | v :: vs => vs.all fun w => typeMark w == typeMark v

def define (fs : Fields) (path : List String) (v : Value) : Option Fields :=
  match path with
  | [] => none
  | [k] => match Fields.get? fs k with
    | some _ => none
    | none => some (Fields.set fs k v)
  | k :: ks => match Fields.get? fs k with
    | some (.object inner) => (define inner ks v).map fun fs' => Fields.set fs k (.object fs')
    | some _ => none
    | none => (define [] ks v).map fun fs' => Fields.set fs k (.object fs')

def readItems (read : List Char → Option (Value × List Char)) :
    Nat → List Value → List Char → Option (List Value × List Char)
  | 0, _, _ => none
  | n + 1, acc, cs => match skipAll cs with
    | ']' :: r => some (acc.reverse, r)
    | r => match read r with
      | none => none
      | some (v, s) => match skipAll s with
        | ',' :: t => readItems read n (v :: acc) t
        | ']' :: t => some ((v :: acc).reverse, t)
        | _ => none

def readFields (read : List Char → Option (Value × List Char)) :
    Nat → Fields → List Char → Option (Fields × List Char)
  | 0, _, _ => none
  | n + 1, acc, cs => match readPath (cs.length + 1) cs with
    | none => none
    | some (path, r) => match r with
      | '=' :: s => match read (s.dropWhile isBlank) with
        | none => none
        | some (v, t) => match define acc path v with
          | none => none
          | some acc => match t.dropWhile isBlank with
            | ',' :: u => readFields read n acc u
            | '\x7d' :: u => some (acc, u)
            | _ => none
      | _ => none

/-- A value, and what follows.  The number bounds the nesting. -/
def readValue : Nat → List Char → Option (Value × List Char)
  | 0, _ => none
  | n + 1, cs => match cs with
    | '"' :: _ => (readString cs).map fun (s, r) => (.str (String.ofList s), r)
    | '\'' :: _ => (readString cs).map fun (s, r) => (.str (String.ofList s), r)
    | '[' :: r => match readItems (readValue n) (r.length + 1) [] r with
      | some (vs, s) => if ofOneType vs then some (.list vs, s) else none
      | none => none
    | '\x7b' :: r => match r.dropWhile isBlank with
      | '\x7d' :: s => some (.object [], s)
      | s => (readFields (readValue n) (s.length + 1) [] s).map fun (fs, t) => (.object fs, t)
    | cs => match cs.takeWhile isWordChar with
      | [] => none
      | word => (readWord word).map fun v => (v, cs.dropWhile isWordChar)

/-! ## Documents -/

/-- What has been read of a document: its tables, the path of the one that is open, and the tables that were only named
on the way to others. -/
structure Draft where
  fields : Fields := []
  current : List String := []
  implied : List (List String) := []

def openTable (implied : List (List String)) (path : List String) (fs : Fields) :
    List String → Option (Fields × List (List String))
  | [] => none
  | [k] => match Fields.get? fs k with
    | none => some (Fields.set fs k (.object []), implied)
    | some (.object _) =>
      if implied.contains (path ++ [k]) then some (fs, implied.filter (· != path ++ [k])) else none
    | some _ => none
  | k :: ks => match Fields.get? fs k with
    | some (.object inner) =>
      (openTable implied (path ++ [k]) inner ks).map fun (fs', i) => (Fields.set fs k (.object fs'), i)
    | some _ => none
    | none =>
      (openTable ((path ++ [k]) :: implied) (path ++ [k]) [] ks).map fun (fs', i) => (Fields.set fs k (.object fs'), i)

def defineIn (fs : Fields) (table key : List String) (v : Value) : Option Fields :=
  match table with
  | [] => define fs key v
  | k :: ks => match Fields.get? fs k with
    | some (.object inner) => (defineIn inner ks key v).map fun fs' => Fields.set fs k (.object fs')
    | _ => none

def lineEnds (cs : List Char) : Option (List Char) :=
  match skipLine cs with
  | [] => some []
  | '\n' :: r => some r
  | _ => none

def readEntry (d : Draft) (cs : List Char) : Option (Draft × List Char) :=
  match cs with
  | '[' :: r => match readPath (r.length + 1) r with
    | some (path, ']' :: s) => match openTable d.implied [] d.fields path, lineEnds s with
      | some (fs, i), some t => some (⟨fs, path, i⟩, t)
      | _, _ => none
    | _ => none
  | cs => match readPath (cs.length + 1) cs with
    | some (path, '=' :: r) => match readValue (r.length + 1) (r.dropWhile isBlank) with
      | some (v, s) => match defineIn d.fields d.current path v, lineEnds s with
        | some fs, some t => some (⟨fs, d.current, d.implied⟩, t)
        | _, _ => none
      | none => none
    | _ => none

def readLines : Nat → Draft → List Char → Option Fields
  | 0, _, _ => none
  | n + 1, d, cs => match skipAll cs with
    | [] => some d.fields
    | r => match readEntry d r with
      | some (d, s) => readLines n d s
      | none => none

/-- The tables of a text, `none` when it is not TOML. -/
def parse (cs : List Char) : Option Fields := readLines (cs.length + 1) {} cs

end SourceBench.Toml

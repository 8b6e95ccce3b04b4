import SourceBench.Value

/-!
# JSON

Reading and writing values as JSON.  A number with a point or an exponent is a float, any other an integer of any size.
-/
namespace SourceBench.Json

/-! ## Writing -/

def hex4 (n : Nat) : List Char :=
  let ds := Nat.toDigits 16 n
  List.replicate (4 - ds.length) '0' ++ ds

def escapeUnit (n : Nat) : List Char := '\\' :: 'u' :: hex4 n

/-- A character inside a string; all but printable ASCII is escaped, in UTF-16 units. -/
def encodeChar (c : Char) : List Char :=
  let n := c.toNat
  if c == '"' then ['\\', '"'] else if c == '\\' then ['\\', '\\'] else if c == '\n' then ['\\', 'n']
  else if c == '\r' then ['\\', 'r'] else if c == '\t' then ['\\', 't'] else if n == 8 then ['\\', 'b']
  else if n == 12 then ['\\', 'f']
  else if 32 ≤ n && n < 127 then [c]
  else if n < 0x10000 then escapeUnit n
  else escapeUnit (0xD800 + (n - 0x10000) / 0x400) ++ escapeUnit (0xDC00 + (n - 0x10000) % 0x400)

def quote (s : List Char) : List Char := '"' :: (s.flatMap encodeChar ++ ['"'])

def floatText : Binary64 → List Char
  | .nan => "NaN".toList
  | .infinite negative => (if negative then "-Infinity" else "Infinity").toList
  | x => x.text

/-- How lists and objects are laid out: on one line, or with every item on a line of its own. -/
inductive Style where
  | oneLine
  | indented (step : Nat)
deriving DecidableEq, Repr

def Style.lineBreak (depth : Nat) : Style → List Char
  | oneLine => []
  | indented k => '\n' :: List.replicate (k * depth) ' '

def Style.comma (depth : Nat) : Style → List Char
  | oneLine => [',', ' ']
  | indented k => ',' :: '\n' :: List.replicate (k * depth) ' '

mutual
/-- A value as JSON, inside `depth` lists and objects. -/
def write (style : Style) (depth : Nat) : Value → List Char
  | .null => "null".toList
  | .bool b => (if b then "true" else "false").toList
  | .int n => (toString n).toList
  | .float x => floatText x
  | .str s => quote s.toList
  | .list [] => ['[', ']']
  | .list (v :: vs) =>
    '[' :: (style.lineBreak (depth + 1) ++ write style (depth + 1) v ++ writeItems style (depth + 1) vs
      ++ style.lineBreak depth ++ [']'])
  | .object [] => ['\x7b', '\x7d']
  | .object ((k, v) :: fs) =>
    '\x7b' :: (style.lineBreak (depth + 1) ++ quote k.toList ++ ':' :: ' ' :: (write style (depth + 1) v
      ++ writeFields style (depth + 1) fs ++ style.lineBreak depth ++ ['\x7d']))
def writeItems (style : Style) (depth : Nat) : List Value → List Char
  | [] => []
  | v :: vs => style.comma depth ++ write style depth v ++ writeItems style depth vs
def writeFields (style : Style) (depth : Nat) : List (String × Value) → List Char
  | [] => []
  | (k, v) :: fs =>
    style.comma depth ++ quote k.toList ++ ':' :: ' ' :: (write style depth v ++ writeFields style depth fs)
end

def render (style : Style) (v : Value) : String := String.ofList (write style 0 v)

/-! ## Reading -/

def isBlank (c : Char) : Bool := c == ' ' || c == '\n' || c == '\r' || c == '\t'

def skip (cs : List Char) : List Char := cs.dropWhile isBlank

def hexValue (c : Char) : Option Nat :=
  if '0' ≤ c && c ≤ '9' then some (c.toNat - 48)
  else if 'a' ≤ c && c ≤ 'f' then some (c.toNat - 87)
  else if 'A' ≤ c && c ≤ 'F' then some (c.toNat - 55)
  else none

def readUnit : List Char → Option (Nat × List Char)
  | a :: b :: c :: d :: r =>
    match hexValue a, hexValue b, hexValue c, hexValue d with
    | some w, some x, some y, some z => some (((w * 16 + x) * 16 + y) * 16 + z, r)
    | _, _, _, _ => none
  | _ => none

/-- The character of a `\u` escape, of two when they pair up, and what follows. -/
def readEscape (r : List Char) : Option (Char × List Char) :=
  match readUnit r with
  | none => none
  | some (u, s) =>
    if 0xD800 ≤ u && u < 0xDC00 then
      match s with
      | '\\' :: 'u' :: t =>
        match readUnit t with
        | some (v, t') =>
          if 0xDC00 ≤ v && v < 0xE000 then
            some (Char.ofNat (0x10000 + (u - 0xD800) * 0x400 + (v - 0xDC00)), t')
          else some (Char.ofNat u, s)
        | none => none
      | _ => some (Char.ofNat u, s)
    else some (Char.ofNat u, s)

/-- The rest of a string after its opening quote, and what follows.  `n` bounds the number of characters. -/
def readString : Nat → List Char → List Char → Option (List Char × List Char)
  | 0, _, _ => none
  | n + 1, acc, cs =>
    match cs with
    | '"' :: r => some (acc.reverse, r)
    | '\\' :: 'u' :: r => match readEscape r with
      | some (c, s) => readString n (c :: acc) s
      | none => none
    | '\\' :: '"' :: r => readString n ('"' :: acc) r
    | '\\' :: '\\' :: r => readString n ('\\' :: acc) r
    | '\\' :: '/' :: r => readString n ('/' :: acc) r
    | '\\' :: 'b' :: r => readString n (Char.ofNat 8 :: acc) r
    | '\\' :: 'f' :: r => readString n (Char.ofNat 12 :: acc) r
    | '\\' :: 'n' :: r => readString n ('\n' :: acc) r
    | '\\' :: 'r' :: r => readString n ('\r' :: acc) r
    | '\\' :: 't' :: r => readString n ('\t' :: acc) r
    | '\\' :: _ => none
    | c :: r => if c.toNat < 32 then none else readString n (c :: acc) r
    | [] => none

def isDigit (c : Char) : Bool := '0' ≤ c && c ≤ '9'

def natOf (ds : List Char) : Nat := ds.foldl (fun n c => 10 * n + (c.toNat - 48)) 0

def readFraction : List Char → List Char × List Char
  | '.' :: r => match r.takeWhile isDigit with
    | [] => ([], '.' :: r)
    | ds => (ds, r.dropWhile isDigit)
  | r => ([], r)

def readExponent (cs : List Char) : Option Int × List Char :=
  match cs with
  | c :: r =>
    if c == 'e' || c == 'E' then
      let (negative, s) := match r with
        | '-' :: s => (true, s)
        | '+' :: s => (false, s)
        | s => (false, s)
      match s.takeWhile isDigit with
      | [] => (none, cs)
      | ds => (some (if negative then -(natOf ds : Int) else natOf ds), s.dropWhile isDigit)
    else (none, cs)
  | [] => (none, [])

def readNumber (negative : Bool) (cs : List Char) : Option (Value × List Char) :=
  let whole := match cs with
    | '0' :: _ => ['0']
    | _ => cs.takeWhile isDigit
  if whole.isEmpty then none
  else
    let (fraction, r) := readFraction (cs.drop whole.length)
    let (exponent, s) := readExponent r
    if fraction.isEmpty && exponent.isNone then
      let n := natOf whole
      some (.int (if negative then -(n : Int) else n), s)
    else
      some (.float (.ofDecimal negative (natOf (whole ++ fraction)) (exponent.getD 0 - fraction.length)), s)

def readItems (read : List Char → Option (Value × List Char)) :
    Nat → List Value → List Char → Option (List Value × List Char)
  | 0, _, _ => none
  | n + 1, acc, cs =>
    match skip cs with
    | ']' :: r => some (acc.reverse, r)
    | ',' :: r => match read (skip r) with
      | some (v, s) => readItems read n (v :: acc) s
      | none => none
    | _ => none

def readField (read : List Char → Option (Value × List Char)) (cs : List Char) :
    Option ((String × Value) × List Char) :=
  match cs with
  | '"' :: r => match readString (r.length + 1) [] r with
    | some (k, s) => match skip s with
      | ':' :: t => match read (skip t) with
        | some (v, u) => some ((String.ofList k, v), u)
        | none => none
      | _ => none
    | none => none
  | _ => none

def readFields (read : List Char → Option (Value × List Char)) :
    Nat → Fields → List Char → Option (Fields × List Char)
  | 0, _, _ => none
  | n + 1, acc, cs =>
    match skip cs with
    | '\x7d' :: r => some (acc, r)
    | ',' :: r => match readField read (skip r) with
      | some ((k, v), s) => readFields read n (Fields.set acc k v) s
      | none => none
    | _ => none

def readValue : Nat → List Char → Option (Value × List Char)
  | 0, _ => none
  | n + 1, cs =>
    match cs with
    | 'n' :: 'u' :: 'l' :: 'l' :: r => some (.null, r)
    | 't' :: 'r' :: 'u' :: 'e' :: r => some (.bool true, r)
    | 'f' :: 'a' :: 'l' :: 's' :: 'e' :: r => some (.bool false, r)
    | 'N' :: 'a' :: 'N' :: r => some (.float .nan, r)
    | 'I' :: 'n' :: 'f' :: 'i' :: 'n' :: 'i' :: 't' :: 'y' :: r => some (.float (.infinite false), r)
    | '-' :: 'I' :: 'n' :: 'f' :: 'i' :: 'n' :: 'i' :: 't' :: 'y' :: r => some (.float (.infinite true), r)
    | '"' :: r => match readString (r.length + 1) [] r with
      | some (s, t) => some (.str (String.ofList s), t)
      | none => none
    | '[' :: r => match skip r with
      | ']' :: s => some (.list [], s)
      | s => match readValue n s with
        | some (v, t) => match readItems (readValue n) (t.length + 1) [v] t with
          | some (vs, u) => some (.list vs, u)
          | none => none
        | none => none
    | '\x7b' :: r => match skip r with
      | '\x7d' :: s => some (.object [], s)
      | s => match readField (readValue n) s with
        | some (f, t) => match readFields (readValue n) (t.length + 1) [f] t with
          | some (fs, u) => some (.object fs, u)
          | none => none
        | none => none
    | '-' :: r => readNumber true r
    | r => readNumber false r

/-- The value of a JSON text, `none` when it is not JSON. -/
def parse (text : String) : Option Value :=
  let cs := text.toList
  match readValue (cs.length + 1) (skip cs) with
  | some (v, r) => if (skip r).isEmpty then some v else none
  | none => none

end SourceBench.Json

import SourceBench.Value.Display

/-!
# Writing TOML

Values that are no tables come first, then each table under its name.  Tables inside tables follow after all tables of
the level above.  A table that holds nothing but tables has no heading of its own.
-/
namespace SourceBench.Toml

/-- A character inside double quotes; what cannot be printed is written by its number. -/
def quoteChar (c : Char) : List Char :=
  let n := c.toNat
  if c == '"' then ['\\', '"']
  else if c == '\\' then ['\\', '\\']
  else if c == '\n' then ['\\', 'n']
  else if c == '\r' then ['\\', 'r']
  else if c == '\t' then ['\\', 't']
  else if Text.isPrintable c then [c]
  else if n < 0x10000 then '\\' :: 'u' :: Text.hexDigits 4 n
  else '\\' :: 'U' :: Text.hexDigits 8 n

def quote (s : String) : List Char := '"' :: (s.toList.flatMap quoteChar ++ ['"'])

def isBareKey (k : String) : Bool := !k.isEmpty && k.toList.all fun c => c.isAlphanum || c == '_' || c == '-'

def keyText (k : String) : List Char := if isBareKey k then k.toList else quote k

/-- An exponent without a leading zero. -/
def floatText (x : Binary64) : List Char :=
  let rec trimZero : List Char → List Char
    | 'e' :: s :: '0' :: r => 'e' :: s :: r
    | c :: r => c :: trimZero r
    | [] => []
  trimZero x.text

mutual
def valueText : Value → List Char
  | .bool b => (if b then "true" else "false").toList
  | .int n => (toString n).toList
  | .float x => floatText x
  | .str s => quote s
  | .list vs => '[' :: (itemsText vs ++ [']'])
  | v => v.literal
def itemsText : List Value → List Char
  | [] => []
  | v :: vs => ' ' :: (valueText v ++ ',' :: itemsText vs)
end

def plainLines (fs : Fields) : List Char :=
  fs.flatMap fun (k, v) => match v with
    | .object _ => []
    | .null => []
    | v => keyText k ++ " = ".toList ++ valueText v ++ ['\n']

def tablesIn (path : List Char) (fs : Fields) : List (List Char × Fields) :=
  fs.filterMap fun (k, v) => match v with
    | .object inner => some ((if path.isEmpty then keyText k else path ++ '.' :: keyText k), inner)
    | _ => none

def tableText (first : Bool) (table : List Char × Fields) : List Char :=
  let body := plainLines table.2
  if body.isEmpty && !(tablesIn table.1 table.2).isEmpty then []
  else (if first then [] else ['\n']) ++ '[' :: (table.1 ++ ']' :: '\n' :: body)

/-- Tables of one level and of those below.  The number bounds the depth; `text` has been written before. -/
def levelsText : Nat → List Char → List (List Char × Fields) → List Char
  | 0, text, _ => text
  | n + 1, text, tables =>
    if tables.isEmpty then text
    else
      let text := tables.foldl (fun acc t => acc ++ tableText acc.isEmpty t) text
      levelsText n text (tables.flatMap fun t => tablesIn t.1 t.2)

mutual
def depth : Value → Nat
  | .object fs => depthOf fs + 1
  | _ => 0
def depthOf : List (String × Value) → Nat
  | [] => 0
  | (_, v) :: fs => max (depth v) (depthOf fs)
end

def render (fs : Fields) : List Char := levelsText (depthOf fs + 1) (plainLines fs) (tablesIn [] fs)

end SourceBench.Toml

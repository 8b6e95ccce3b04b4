import SourceBench.Value.Display

/-!
# Typed names

Names with their types, written as `name:type` or, when they may be left out, as `name?:type`, with commas between them;
or given one by one as texts or objects.
-/
namespace SourceBench

structure TypedName where
  name : Value
  type : Value
  isOptional : Bool
deriving Repr

inductive TypedNameError where
  | incomplete (item : Value)
  | notList
deriving Repr

def TypedNameError.message : TypedNameError → String
  | incomplete v => "Expected 'name:type', got " ++ String.ofList v.literal
  | notList => "a list of typed names was expected"

namespace TypedName

def dropMarks (cs : List Char) : List Char := (cs.reverse.dropWhile (· == '?')).reverse

def ofText (cs : List Char) : TypedName :=
  let name := Text.trim (cs.takeWhile (· != ':'))
  let type := Text.trim ((cs.dropWhile (· != ':')).drop 1)
  { name := .str (String.ofList (dropMarks name)), type := .str (String.ofList type)
    isOptional := name.getLast? == some '?' }

def ofItem : Value → TypedName
  | .object fs =>
    { name := (Fields.get? fs "name").getD .null, type := (Fields.get? fs "type").getD .null
      isOptional := ((Fields.get? fs "optional").getD (.bool false)).truthy }
  | v => ofText v.plain.toList

/-- The typed name that an item is; both its name and its type must count as true. -/
def read (item : Value) : Except TypedNameError TypedName :=
  let t := ofItem item
  if t.name.truthy && t.type.truthy then .ok t else .error (.incomplete item)

def commaParts (cs : List Char) : List (List Char) := (Text.splitOn ',' cs).filter fun p => !(Text.trim p).isEmpty

def readAll (v : Value) : Except TypedNameError (List TypedName) :=
  match v with
  | .null => .ok []
  | .str s => (commaParts s.toList).mapM fun p => read (.str (String.ofList p))
  | v => match v.elements? with
    | some vs => vs.mapM read
    | none => .error .notList

def toValue (t : TypedName) : Value := .object [("name", t.name), ("type", t.type), ("optional", .bool t.isOptional)]

end TypedName
end SourceBench

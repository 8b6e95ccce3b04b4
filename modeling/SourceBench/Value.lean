import SourceBench.Number.Shortest

/-!
# Values

The dynamic values that requests, settings and stored records are made of.  Fields of an object keep the order in which
they first appeared.
-/
namespace SourceBench

inductive Value where
  | null
  | bool (b : Bool)
  | int (n : Int)
  | float (x : Binary64)
  | str (s : String)
  | list (items : List Value)
  | object (fields : List (String × Value))
deriving Repr

abbrev Fields := List (String × Value)

namespace Fields

def get? (fs : Fields) (key : String) : Option Value := (fs.find? (·.1 == key)).map (·.2)

/-- Sets a field: in its place if it is there, else behind the others. -/
def set (fs : Fields) (key : String) (v : Value) : Fields :=
  if fs.any (·.1 == key) then fs.map fun f => if f.1 == key then (key, v) else f else fs ++ [(key, v)]

end Fields

namespace Value

/-- The value counts as true in a condition. -/
def truthy : Value → Bool
  | null => false
  | bool b => b
  | int n => n != 0
  | float x => !x.isZero
  | str s => !s.isEmpty
  | list xs => !xs.isEmpty
  | object fs => !fs.isEmpty

def field? (v : Value) (key : String) : Option Value :=
  match v with
  | object fs => Fields.get? fs key
  | _ => none

def ofOption : Option String → Value
  | none => null
  | some s => str s

def nat (n : Nat) : Value := int n

end Value
end SourceBench

import SourceBench.Text.Lines
import SourceBench.Text.Quoted
import SourceBench.Value

/-!
# Values as text

`Value.literal` writes a value so that its kind can be seen: strings in quotes, lists in brackets, objects in braces.
`Value.plain` is the same but for a string, which stands for itself.
-/
namespace SourceBench.Value

mutual
def literal : Value → List Char
  | null => "None".toList
  | bool b => (if b then "True" else "False").toList
  | int n => (toString n).toList
  | float x => x.text
  | str s => Text.quoted s.toList
  | list [] => ['[', ']']
  | list (v :: vs) => '[' :: (literal v ++ literalItems vs)
  | object [] => ['\x7b', '\x7d']
  | object ((k, v) :: fs) => '\x7b' :: (Text.quoted k.toList ++ ':' :: ' ' :: (literal v ++ literalFields fs))
def literalItems : List Value → List Char
  | [] => [']']
  | v :: vs => ',' :: ' ' :: (literal v ++ literalItems vs)
def literalFields : List (String × Value) → List Char
  | [] => ['\x7d']
  | (k, v) :: fs => ',' :: ' ' :: (Text.quoted k.toList ++ ':' :: ' ' :: (literal v ++ literalFields fs))
end

def plain : Value → String
  | str s => s
  | v => String.ofList (literal v)

/-- What a loop over a value goes through: the items of a list, the characters of a string, the keys of an object. -/
def elements? : Value → Option (List Value)
  | list vs => some vs
  | str s => some (s.toList.map fun c => str (String.singleton c))
  | object fs => some (fs.map fun f => str f.1)
  | _ => none

/-! ## Sameness -/

/-- A number as an exact fraction; truth values are zero and one. -/
def ratio? : Value → Option (Int × Nat)
  | bool b => some (if b then 1 else 0, 1)
  | int n => some (n, 1)
  | float (.finite negative m q) =>
    let n : Int := if negative then -(m : Int) else m
    some (if q < 0 then (n, Nat.pow 2 q.natAbs) else (n * Nat.pow 2 q.natAbs, 1))
  | _ => none

mutual
/-- Two values are the same: numbers by their value, lists item by item, objects field by field in any order. -/
def same : Value → Value → Bool
  | null, null => true
  | str s, str t => s == t
  | list vs, list ws => sameItems vs ws
  | object fs, object gs => fs.length == gs.length && sameFields fs gs
  | float (.infinite a), float (.infinite b) => a == b
  | v, w => match ratio? v, ratio? w with
    | some (a, b), some (c, d) => a * d == c * b
    | _, _ => false
def sameItems : List Value → List Value → Bool
  | [], [] => true
  | v :: vs, w :: ws => same v w && sameItems vs ws
  | _, _ => false
def sameFields : List (String × Value) → List (String × Value) → Bool
  | [], _ => true
  | (k, v) :: fs, gs => (match (gs.find? (·.1 == k)) with
      | some (_, w) => same v w
      | none => false) && sameFields fs gs
end

def isAmong (v : Value) (vs : List Value) : Bool := vs.any (same v)

end SourceBench.Value

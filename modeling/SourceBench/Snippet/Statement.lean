import SourceBench.Value.Display

/-!
# Import and export statements

Statements as records and their texts.  A name list of up to three names stands on one line, a longer one has a line for
each name.
-/
namespace SourceBench

def maxInlineNames : Nat := 3

def indentStep : List Char := [' ', ' ']

def nameList (names : List String) : List Char :=
  if names.length ≤ maxInlineNames then
    "\x7b ".toList ++ Text.join ", ".toList (names.map (·.toList)) ++ " \x7d".toList
  else "\x7b\n".toList ++ names.flatMap (fun n => indentStep ++ n.toList ++ ",\n".toList) ++ ['\x7d']

structure ImportStatement where
  source : String
  names : List String := []
  defaultName : Option String := none
  namespaceName : Option String := none
  isTypeOnly : Bool := false
deriving DecidableEq, Repr

namespace ImportStatement

/-- What an import binds: a default with the names, else a namespace, else the names, else nothing. -/
def bindings (s : ImportStatement) : Option (List Char) :=
  match s.defaultName, s.namespaceName with
  | some d, _ => some (d.toList ++ if s.names.isEmpty then [] else ", ".toList ++ nameList s.names)
  | none, some n => some ("* as ".toList ++ n.toList)
  | none, none => if s.names.isEmpty then none else some (nameList s.names)

def render (s : ImportStatement) : List Char :=
  match s.bindings with
  | some b =>
    (if s.isTypeOnly then "import type ".toList else "import ".toList) ++ b ++ " from '".toList ++ s.source.toList
      ++ "';".toList
  | none => "import '".toList ++ s.source.toList ++ "';".toList

end ImportStatement

structure ExportStatement where
  names : List String := []
  defaultName : Option String := none
  source : Option String := none
  isTypeOnly : Bool := false
deriving DecidableEq, Repr

namespace ExportStatement

def clause (s : ExportStatement) : List Char :=
  if !s.names.isEmpty then nameList s.names
  else if s.source.isSome then ['*'] else ['\x7b', '\x7d']

def render (s : ExportStatement) : List Char :=
  match s.defaultName with
  | some d => "export default ".toList ++ d.toList ++ [';']
  | none =>
    (if s.isTypeOnly then "export type ".toList else "export ".toList) ++ s.clause ++ (match s.source with
      | some m => " from '".toList ++ m.toList ++ "';".toList
      | none => [';'])

end ExportStatement

/-! ## From values

Names must be texts where they are put on one line; each line of a longer list shows any value. -/

/-- A value is not of the type that its use asks for. -/
inductive WrongType where
  | wrongType
deriving DecidableEq, Repr

def textOnly : Value → Except WrongType String
  | .str s => .ok s
  | _ => .error .wrongType

def writtenNames (vs : List Value) : Except WrongType (List String) :=
  if vs.length ≤ maxInlineNames then vs.mapM textOnly else .ok (vs.map (·.plain))

/-- The names in a value; what does not count as true stands for none. -/
def namesIn (v : Value) : Except WrongType (List Value) :=
  if !v.truthy then .ok []
  else match v.elements? with
    | some vs => .ok vs
    | none => .error .wrongType

def shownIfTrue (v : Value) : Option String := if v.truthy then some v.plain else none

def ImportStatement.ofValues (source names default namespace_ typeOnly : Value) :
    Except WrongType ImportStatement := do
  let vs ← namesIn names
  if default.truthy then
    let d ← textOnly default
    let ns ← writtenNames vs
    return { source := source.plain, names := ns, defaultName := some d, isTypeOnly := typeOnly.truthy }
  else if namespace_.truthy then
    return { source := source.plain, namespaceName := some namespace_.plain, isTypeOnly := typeOnly.truthy }
  else
    let ns ← writtenNames vs
    return { source := source.plain, names := ns, isTypeOnly := typeOnly.truthy }

def ExportStatement.ofValues (names default source typeOnly : Value) : Except WrongType ExportStatement := do
  if default.truthy then
    return { defaultName := some default.plain }
  else
    let vs ← namesIn names
    let ns ← writtenNames vs
    return { names := ns, source := shownIfTrue source, isTypeOnly := typeOnly.truthy }

end SourceBench

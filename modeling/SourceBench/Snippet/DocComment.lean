import SourceBench.Value.Display

/-!
# Doc comments

A doc comment as a record, the text of it, and how the record is read from a value.
-/
namespace SourceBench

/-- What a doc comment says.  Parts that are absent give no lines. -/
structure DocComment where
  description : String
  /-- Names and descriptions of parameters. -/
  params : List (String × String) := []
  returns : Option String := none
  example? : Option String := none
  deprecated : Option String := none
  since : Option String := none
deriving DecidableEq, Repr

namespace DocComment

def paramLines (params : List (String × String)) : List (List Char) :=
  if params.isEmpty then []
  else " *".toList :: params.map fun (name, text) => Text.trimRight (" * @param " ++ name ++ " - " ++ text).toList

def exampleLines (code : String) : List (List Char) :=
  [" *".toList, " * @example".toList, " * ```typescript".toList]
    ++ (Text.splitOn '\n' code.toList).map (fun l => Text.trimRight (" * ".toList ++ l)) ++ [" * ```".toList]

def optional (part : Option String) (lines : String → List (List Char)) : List (List Char) :=
  match part with
  | some s => lines s
  | none => []

def lines (d : DocComment) : List (List Char) :=
  ["/**".toList, (" * " ++ d.description).toList] ++ paramLines d.params
    ++ optional d.returns (fun s => [Text.trimRight (" * @returns " ++ s).toList])
    ++ optional d.example? exampleLines
    ++ optional d.deprecated (fun s => [(" * @deprecated " ++ s).toList])
    ++ optional d.since (fun s => [(" * @since " ++ s).toList])
    ++ [" */".toList]

def render (d : DocComment) : List Char := Text.joinLines d.lines

def brief (description : String) : List Char := render { description }

/-! ## From a value -/

inductive ReadError where
  | noName
  /-- Parameters are no list of objects. -/
  | badParams
  /-- The result is no object, or the example no text. -/
  | badPart
deriving DecidableEq, Repr

def readParam : Value → Except ReadError (String × String)
  | .object fs => match Fields.get? fs "name" with
    | some n => .ok (n.plain, ((Fields.get? fs "description").getD (.str "")).plain)
    | none => .error .noName
  | _ => .error .badParams

def readParams (v : Value) : Except ReadError (List (String × String)) :=
  if !v.truthy then .ok []
  else match v.elements? with
    | some vs => vs.mapM readParam
    | none => .error .badParams

def readReturns (v : Value) : Except ReadError (Option String) :=
  if !v.truthy then .ok none
  else match v with
    | .object fs => .ok (some ((Fields.get? fs "description").getD (.str "")).plain)
    | _ => .error .badPart

def readExample (v : Value) : Except ReadError (Option String) :=
  if !v.truthy then .ok none
  else match v with
    | .str s => .ok (some s)
    | _ => .error .badPart

def readPart (v : Value) : Option String := if v.truthy then some v.plain else none

def ofFields (fs : Fields) : Except ReadError DocComment := do
  let part (key : String) : Value := (Fields.get? fs key).getD .null
  let params ← readParams (part "params")
  let returns ← readReturns (part "returns")
  let code ← readExample (part "example")
  return { description := (part "description").plain, params, returns, example? := code
           deprecated := readPart (part "deprecated"), since := readPart (part "since") }

end DocComment
end SourceBench

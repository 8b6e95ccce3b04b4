import SourceBench.Edit.Operation

/-!
# Operations from values

An operation is written as an object with a `type`.  The keys of its fields are in snake case or in camel case; where
both are there, camel case wins.  A field that is null counts as absent.
-/
namespace SourceBench

inductive WireError where
  | notObject (v : Value)
  | notOperation (v : Value)
  | noTag
  /-- The tag is a list or an object, which cannot be looked up. -/
  | badTag
  | missing (kind : OperationKind) (fields : List String)
  | notText (kind : OperationKind) (field : String)
  | notList (kind : OperationKind) (field : String)
deriving Repr

namespace WireError

def typeName : Value → String
  | .null => "NoneType"
  | .bool _ => "bool"
  | .int _ => "int"
  | .float _ => "float"
  | .str _ => "str"
  | .list _ => "list"
  | .object _ => "dict"

def nameSeries : List String → String
  | [] => ""
  | [a] => "'" ++ a ++ "'"
  | [a, b] => "'" ++ a ++ "' and '" ++ b ++ "'"
  | [a, b, c] => "'" ++ a ++ "', '" ++ b ++ "', and '" ++ c ++ "'"
  | a :: r => "'" ++ a ++ "', " ++ nameSeries r

def message : WireError → String
  | notObject v => "Operation must be a mapping, got " ++ typeName v
  | notOperation v => "Not a transform operation: " ++ String.ofList v.literal
  | noTag => "Operation is missing required field 'type'"
  | badTag => "the type of an operation must be plain"
  | missing k names =>
    let noun := if names.length == 1 then "argument" else "arguments"
    s!"Malformed '{k.tag}' operation: {k.recordName}.__init__() missing {names.length} required positional {noun}: "
      ++ nameSeries names
  | notText k f => s!"'{k.tag}' operation requires field '{f}'"
  | notList k f => s!"'{k.tag}' field '{f}' must be a list"

end WireError

namespace Wire

/-- The words of a name in snake case, each after the first with a capital. -/
def camelFrom (afterMark : Bool) : List Char → List Char
  | [] => []
  | '_' :: r => camelFrom true r
  | c :: r => (if afterMark then c.toUpper else c) :: camelFrom false r

def camelKey (key : String) : String := String.ofList (camelFrom false key.toList)

def present (data : Fields) (key : String) : Option Value :=
  match Fields.get? data key with
  | some .null => none
  | v => v

def chosen (data : Fields) (field : String) : Option Value :=
  (present data (camelKey field)).orElse fun _ => present data field

def textField (kind : OperationKind) (data : Fields) (field : String) (default : String := "") :
    Except WireError String :=
  match chosen data field with
  | none => .ok default
  | some (.str s) => .ok s
  | some _ => .error (.notText kind field)

def listField (kind : OperationKind) (data : Fields) (field : String) : Except WireError (List Value) :=
  match chosen data field with
  | none => .ok []
  | some (.list vs) => .ok vs
  | some _ => .error (.notList kind field)

def anyField (data : Fields) (field : String) (default : Value := .null) : Value :=
  (chosen data field).getD default

/-- The fields of a known operation, read in their order. -/
def decodeFields (kind : OperationKind) (data : Fields) : Except WireError Operation := do
  match kind with
  | .addImport =>
    let source ← textField kind data "module_specifier"
    let names ← listField kind data "named_imports"
    return .addImport ⟨source, names, anyField data "default_import", anyField data "namespace_import",
      anyField data "is_type_only" (.bool false)⟩
  | .removeImport =>
    let source ← textField kind data "module_specifier"
    let names ← listField kind data "named_imports"
    return .removeImport ⟨source, names⟩
  | .addExport =>
    let name ← textField kind data "name"
    return .addExport ⟨name, anyField data "is_default" (.bool false), anyField data "declaration"⟩
  | .addProperty =>
    let owner ← textField kind data "target_class"
    let name ← textField kind data "property_name"
    let type ← textField kind data "property_type"
    return .addProperty ⟨owner, name, type, anyField data "initializer", anyField data "is_readonly" (.bool false)⟩
  | .addMethod =>
    let owner ← textField kind data "target_class"
    let name ← textField kind data "method_name"
    let parameters ← textField kind data "parameters"
    let returnType ← textField kind data "return_type" "void"
    let body ← textField kind data "body"
    return .addMethod ⟨owner, name, parameters, returnType, body⟩
  | .rename =>
    let old ← textField kind data "old_name"
    let new ← textField kind data "new_name"
    return .rename ⟨old, new, anyField data "scope" (.str "file"), anyField data "target_class"⟩
  | .wrap =>
    let function ← textField kind data "target_function"
    let template ← textField kind data "wrapper_template"
    return .wrap ⟨function, template⟩

def decodeKnown (kind : OperationKind) (data : Fields) : Except WireError Operation :=
  match kind.required.filter fun f => (chosen data f).isNone with
  | [] => decodeFields kind data
  | names => .error (.missing kind names)

def decodeObject (data : Fields) : Except WireError Operation :=
  match (Fields.get? data "type").getD .null with
  | .str s => if s.isEmpty then .error .noTag else match OperationKind.ofTag? s with
    | some k => decodeKnown k data
    | none => .ok (.unknown s data)
  | .list vs => .error (if vs.isEmpty then .noTag else .badTag)
  | .object fs => .error (if fs.isEmpty then .noTag else .badTag)
  | v => if v.truthy then .ok (.unknown v.plain data) else .error .noTag

def decode (v : Value) : Except WireError Operation :=
  match v with
  | .object data => decodeObject data
  | v => .error (.notObject v)

def decodeItem (v : Value) : Except WireError Operation :=
  match v with
  | .object data => decodeObject data
  | v => .error (.notOperation v)

end Wire
end SourceBench

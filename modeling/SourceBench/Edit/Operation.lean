import SourceBench.Value.Display

/-!
# Operations

The changes that can be asked for.  Flags and optional texts keep the value that was given for them: any value may stand
for a flag, and counts by its truth.
-/
namespace SourceBench

inductive OperationKind where
  | addImport | removeImport | addExport | addProperty | addMethod | rename | wrap
deriving DecidableEq, Repr

namespace OperationKind

def tag : OperationKind → String
  | addImport => "add-import"
  | removeImport => "remove-import"
  | addExport => "add-export"
  | addProperty => "add-property"
  | addMethod => "add-method"
  | rename => "rename"
  | wrap => "wrap"

def recordName : OperationKind → String
  | addImport => "AddImport"
  | removeImport => "RemoveImport"
  | addExport => "AddExport"
  | addProperty => "AddProperty"
  | addMethod => "AddMethod"
  | rename => "Rename"
  | wrap => "Wrap"

def all : List OperationKind := [addImport, removeImport, addExport, addProperty, addMethod, rename, wrap]

def ofTag? (s : String) : Option OperationKind := all.find? (·.tag == s)

def required : OperationKind → List String
  | addImport | removeImport => ["module_specifier"]
  | addExport => ["name"]
  | addProperty => ["target_class", "property_name", "property_type"]
  | addMethod => ["target_class", "method_name"]
  | rename => ["old_name", "new_name"]
  | wrap => ["target_function", "wrapper_template"]

end OperationKind

structure AddImport where
  source : String
  names : List Value
  defaultName : Value
  namespaceName : Value
  isTypeOnly : Value
deriving Repr

structure RemoveImport where
  source : String
  names : List Value
deriving Repr

structure AddExport where
  name : String
  isDefault : Value
  declaration : Value
deriving Repr

structure AddProperty where
  owner : String
  name : String
  type : String
  initializer : Value
  isReadonly : Value
deriving Repr

structure AddMethod where
  owner : String
  name : String
  parameters : String
  returnType : String
  body : String
deriving Repr

structure Rename where
  old : String
  new : String
  scope : Value
  owner : Value
deriving Repr

structure Wrap where
  function : String
  template : String
deriving Repr

inductive Operation where
  | addImport (op : AddImport)
  | removeImport (op : RemoveImport)
  | addExport (op : AddExport)
  | addProperty (op : AddProperty)
  | addMethod (op : AddMethod)
  | rename (op : Rename)
  | wrap (op : Wrap)
  /-- An operation whose tag is not known, with all that was said of it. -/
  | unknown (tag : String) (payload : Fields)
deriving Repr

namespace Operation

def kind? : Operation → Option OperationKind
  | addImport _ => some .addImport
  | removeImport _ => some .removeImport
  | addExport _ => some .addExport
  | addProperty _ => some .addProperty
  | addMethod _ => some .addMethod
  | rename _ => some .rename
  | wrap _ => some .wrap
  | unknown _ _ => none

def tag : Operation → String
  | unknown t _ => t
  | op => (op.kind?.map (·.tag)).getD ""

def fields : Operation → Fields
  | addImport o => [("module_specifier", .str o.source), ("named_imports", .list o.names),
      ("default_import", o.defaultName), ("namespace_import", o.namespaceName), ("is_type_only", o.isTypeOnly)]
  | removeImport o => [("module_specifier", .str o.source), ("named_imports", .list o.names)]
  | addExport o => [("name", .str o.name), ("is_default", o.isDefault), ("declaration", o.declaration)]
  | addProperty o => [("target_class", .str o.owner), ("property_name", .str o.name), ("property_type", .str o.type),
      ("initializer", o.initializer), ("is_readonly", o.isReadonly)]
  | addMethod o => [("target_class", .str o.owner), ("method_name", .str o.name), ("parameters", .str o.parameters),
      ("return_type", .str o.returnType), ("body", .str o.body)]
  | rename o => [("old_name", .str o.old), ("new_name", .str o.new), ("scope", o.scope), ("target_class", o.owner)]
  | wrap o => [("target_function", .str o.function), ("wrapper_template", .str o.template)]
  | unknown _ payload => [("payload", .object payload)]

def toValue (op : Operation) : Value := .object (op.fields ++ [("type", .str op.tag)])

end Operation
end SourceBench

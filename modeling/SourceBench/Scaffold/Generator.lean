import SourceBench.Pathname
import SourceBench.Scaffold.Template

/-!
# Generators

A generator checks a request and fills in its templates.  All that is wrong with a request is reported together.
-/
namespace SourceBench

inductive Generator where
  | component | apiRoute | model | test
deriving DecidableEq, Repr

namespace Generator

def label : Generator → String
  | component => "component"
  | apiRoute => "api-route"
  | model => "model"
  | test => "test"

def description : Generator → String
  | component => "React function component with a typed props interface"
  | apiRoute => "Next.js route handler with one export per HTTP method"
  | model => "Zod schema with derived types and a factory function"
  | test => "Vitest suite with one describe block per function"

def all : List Generator := [component, apiRoute, model, test]

def ofLabel? (s : String) : Option Generator := all.find? (·.label == s)

end Generator

structure ScaffoldRequest where
  name : Value
  outputDir : Value := .str "generated"
  options : Value := .object []
deriving Repr

structure GeneratedFile where
  path : String
  content : List Char
deriving DecidableEq, Repr

structure Scaffold where
  generator : String
  files : List GeneratedFile := []
  errors : List String := []
deriving DecidableEq, Repr

/-- The request holds a value that cannot be used at all: it is not of the type that its use asks for, or it has no
fields or text where those are asked for. -/
inductive ScaffoldError where
  | wrongType
  | noSuchPart
deriving DecidableEq, Repr

namespace Scaffold

def succeeded (s : Scaffold) : Bool := s.errors.isEmpty

def toValue (s : Scaffold) : Value :=
  .object [("success", .bool s.succeeded), ("generator", .str s.generator),
    ("files", .list (s.files.map fun f => .object [("path", .str f.path),
      ("content", .str (String.ofList f.content))])),
    ("errors", .list (s.errors.map .str))]

/-! ## Checks -/

def isLetter (c : Char) : Bool := ('a' ≤ c && c ≤ 'z') || ('A' ≤ c && c ≤ 'Z')

def isNameChar (c : Char) : Bool := isLetter c || ('0' ≤ c && c ≤ '9') || c == '_' || c == '-'

/-- Characters of a name to its end, where one line feed may stand. -/
def isNameTail : List Char → Bool
  | [] => true
  | ['\n'] => true
  | c :: r => isNameChar c && isNameTail r

def isName : List Char → Bool
  | [] => false
  | c :: r => isLetter c && isNameTail r

def nameErrors (v : Value) : Except ScaffoldError (List String) :=
  if !v.truthy then .ok ["name: Name is required"]
  else match v with
    | .str s =>
      if (Text.trim s.toList).isEmpty then .ok ["name: Name is required"]
      else if isName s.toList then .ok []
      else .ok ["name: Name must start with a letter and contain only alphanumeric characters, hyphens, or underscores"]
    | _ => .error .noSuchPart

def outputErrors (v : Value) : List String :=
  if !v.truthy || (Text.trim v.plain.toList).isEmpty then ["output_dir: Output directory is required"] else []

def option (options : Value) (key : String) : Except ScaffoldError Value :=
  match options with
  | .object fs => .ok ((Fields.get? fs key).getD .null)
  | _ => .error .noSuchPart

/-- The texts in a value: the parts of a text between commas, or the items of a list; blank ones are left out. -/
def textList (v : Value) : Except ScaffoldError (List String) :=
  let trimmed (ps : List (List Char)) : List String := ((ps.map Text.trim).filter (!·.isEmpty)).map String.ofList
  match v with
  | .null => .ok []
  | .str s => .ok (trimmed (Text.splitOn ',' s.toList))
  | v => match v.elements? with
    | some vs => .ok (trimmed (vs.map fun w => w.plain.toList))
    | none => .error .wrongType

def typedNameErrors (key : String) (v : Value) : Except ScaffoldError (List String) :=
  match TypedName.readAll v with
  | .ok _ => .ok []
  | .error .notList => .error .wrongType
  | .error e => .ok [key ++ ": " ++ e.message]

def httpMethods : List String := ["GET", "POST", "PUT", "PATCH", "DELETE"]

def upperText (s : String) : String := String.ofList (Text.upper s.toList)

def optionErrors (g : Generator) (options : Value) : Except ScaffoldError (List String) := do
  match g with
  | .component => typedNameErrors "props" (← option options "props")
  | .apiRoute =>
    let methods ← textList (← option options "methods")
    return (methods.filter fun m => !httpMethods.contains (upperText m)).map fun m =>
      "methods: Unsupported HTTP method '" ++ m ++ "'"
  | .model => typedNameErrors "fields" (← option options "fields")
  | .test => return []

def check (g : Generator) (r : ScaffoldRequest) : Except ScaffoldError (List String) := do
  let names ← nameErrors r.name
  let options ← optionErrors g r.options
  return names ++ outputErrors r.outputDir ++ options

/-! ## Files -/

def filePath (dir : Value) (file : String) : Except ScaffoldError String :=
  match dir with
  | .str s => .ok ((Pathname.ofString s).join (.ofString file)).text
  | _ => .error .wrongType

def summary (text : String) (description : Value) : String :=
  if description.truthy then text ++ ". " ++ description.plain else text

def typedNames (v : Value) : Except ScaffoldError (List TypedName) :=
  match TypedName.readAll v with
  | .ok ns => .ok ns
  | .error _ => .error .wrongType

def nameText (v : Value) : Except ScaffoldError String :=
  match v with
  | .str s => .ok s
  | _ => .error .wrongType

def testContent (name importPath : String) (functions : List String) : List Char :=
  let first := ImportStatement.render { source := "vitest", names := ["describe", "it", "expect"] }
  let imports := if functions.isEmpty then first
    else first ++ '\n' :: ImportStatement.render { source := importPath, names := functions }
  Template.testFile
    { name, header := DocComment.brief ("Tests for " ++ Template.pascal name), imports, importPath, functions }

def componentFiles (name : String) (dir options : Value) : Except ScaffoldError (List GeneratedFile) := do
  let component := Template.pascal name
  let props ← typedNames (← option options "props")
  let children := (← option options "has_children").truthy
  let names ← props.mapM fun p => nameText p.name
  let bindings := names ++ if children then ["children"] else []
  let signature := if bindings.isEmpty then ""
    else "\x7b " ++ ", ".intercalate bindings ++ " \x7d: " ++ component ++ "Props"
  let header := DocComment.brief (summary (component ++ " component") (← option options "description"))
  let useClient := (← option options "use_client").truthy
  let path ← filePath dir (component ++ ".tsx")
  let main : GeneratedFile :=
    ⟨path, Template.component { name, header, props, hasChildren := children, useClient, signature }⟩
  if (← option options "with_test").truthy then
    let testPath ← filePath dir (component ++ ".test.tsx")
    return [main, ⟨testPath, testContent name ("./" ++ component) [component]⟩]
  else return [main]

def distinct (ss : List String) : List String := ss.foldl (fun acc s => if acc.contains s then acc else acc ++ [s]) []

def routeFiles (name : String) (dir options : Value) : Except ScaffoldError (List GeneratedFile) := do
  let given ← textList (← option options "methods")
  let methods := distinct ((if given.isEmpty then ["GET"] else given).map upperText)
  let header := DocComment.brief (summary (Template.pascal name ++ " API route") (← option options "description"))
  let imports := ImportStatement.render { source := "next/server", names := ["NextRequest", "NextResponse"] }
  let hasAuth := (← option options "has_auth").truthy
  let path ← filePath dir (Template.kebab name ++ "/route.ts")
  return [⟨path, Template.routeFile { name, header, imports, hasAuth, methods }⟩]

def defaultFields : Value := .str "name:string,email:string"

/-- Timestamps are there unless the option says otherwise. -/
def wantsTimestamps (options : Value) : Bool :=
  match options.field? "has_timestamps" with
  | some v => v.truthy
  | none => true

def modelFiles (name : String) (dir options : Value) : Except ScaffoldError (List GeneratedFile) := do
  let upper := Template.pascal name
  let file := Template.kebab name
  let given ← option options "fields"
  let fields ← typedNames (if given.truthy then given else defaultFields)
  let header := DocComment.brief (summary (upper ++ " data model") (← option options "description"))
  let imports := ImportStatement.render { source := "zod", names := ["z"] }
  let factoryDoc := DocComment.render
    { description := "Create a " ++ upper ++ " with a fresh id.", params := [("data", "Field values")]
      returns := some ("The new " ++ upper) }
  let path ← filePath dir (file ++ ".ts")
  let main : GeneratedFile :=
    ⟨path, Template.model { name, header, imports, fields, hasTimestamps := wantsTimestamps options, factoryDoc }⟩
  if (← option options "with_test").truthy then
    let testPath ← filePath dir (file ++ ".test.ts")
    return [main, ⟨testPath, testContent name ("./" ++ file) [Template.camel name ++ "Schema", "create" ++ upper]⟩]
  else return [main]

def testFiles (name : String) (dir options : Value) : Except ScaffoldError (List GeneratedFile) := do
  let file := Template.kebab name
  let given ← option options "import_path"
  let functions ← textList (← option options "functions")
  let path ← filePath dir (file ++ ".test.ts")
  let importPath := if given.truthy then given.plain else "./" ++ file
  return [⟨path, testContent name importPath functions⟩]

def filesOf (g : Generator) (r : ScaffoldRequest) : Except ScaffoldError (List GeneratedFile) := do
  let name ← nameText r.name
  match g with
  | .component => componentFiles name r.outputDir r.options
  | .apiRoute => routeFiles name r.outputDir r.options
  | .model => modelFiles name r.outputDir r.options
  | .test => testFiles name r.outputDir r.options

def run (g : Generator) (r : ScaffoldRequest) : Except ScaffoldError Scaffold := do
  match ← check g r with
  | [] => return { generator := g.label, files := ← filesOf g r }
  | errors => return { generator := g.label, errors }

def runNamed (label : String) (r : ScaffoldRequest) : Except ScaffoldError Scaffold :=
  match Generator.ofLabel? label with
  | some g => run g r
  | none => .ok { generator := label, errors := ["Generator '" ++ label ++ "' not found"] }

end Scaffold
end SourceBench

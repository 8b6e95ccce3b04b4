import SourceBench.Scaffold.TypedName
import SourceBench.Snippet.DocComment
import SourceBench.Snippet.Statement
import SourceBench.Text.Naming

/-!
# Templates

The texts of the files that are generated.  Values that are put in stand as they are.
-/
namespace SourceBench.Template

def ofLines (ls : List String) : List Char := ls.flatMap fun l => l.toList ++ ['\n']

def pascal (name : String) : String := String.ofList (Text.pascalCase name.toList)

def camel (name : String) : String := String.ofList (Text.camelCase name.toList)

def kebab (name : String) : String := String.ofList (Text.kebabCase name.toList)

def onlyIf (p : Bool) (ls : List String) : List String := if p then ls else []

/-! ## Components -/

structure Component where
  name : String
  header : List Char
  props : List TypedName
  hasChildren : Bool
  useClient : Bool
  signature : String

def propLine (p : TypedName) : String :=
  "  " ++ p.name.plain ++ (if p.isOptional then "?" else "") ++ ": " ++ p.type.plain ++ ";"

def component (c : Component) : List Char :=
  let name := pascal c.name
  ofLines (onlyIf c.useClient ["'use client';", ""] ++ [String.ofList c.header, ""]
    ++ onlyIf (!c.props.isEmpty || c.hasChildren)
      (["interface " ++ name ++ "Props \x7b"] ++ c.props.map propLine
        ++ onlyIf c.hasChildren ["  children?: React.ReactNode;"] ++ ["\x7d", ""])
    ++ ["export function " ++ name ++ "(" ++ c.signature ++ ") \x7b", "  return (", "    <div>",
      "      <h2>" ++ name ++ "</h2>"]
    ++ onlyIf c.hasChildren ["      \x7bchildren\x7d"]
    ++ ["    </div>", "  );", "\x7d"])

/-! ## Route handlers -/

structure RouteFile where
  name : String
  header : List Char
  imports : List Char
  hasAuth : Bool
  methods : List String

def handlerBody (name method : String) : List String :=
  let readId := "    const id = new URL(request.url).searchParams.get('id');"
  let readBody := "    const body = await request.json();"
  if method == "GET" then
    [readId, "    return NextResponse.json(\x7b id, message: '" ++ name ++ " GET endpoint' \x7d);"]
  else if method == "POST" then
    [readBody, "    if (!body) \x7b",
      "      return NextResponse.json(\x7b error: 'Request body is required' \x7d, \x7b status: 400 \x7d);", "    \x7d",
      "    return NextResponse.json(\x7b success: true, data: body \x7d, \x7b status: 201 \x7d);"]
  else
    [readId, "    if (!id) \x7b",
      "      return NextResponse.json(\x7b error: 'ID is required' \x7d, \x7b status: 400 \x7d);", "    \x7d"]
    ++ (if method == "DELETE" then ["    return NextResponse.json(\x7b success: true, id \x7d);"]
      else [readBody, "    return NextResponse.json(\x7b success: true, id, data: body \x7d);"])

def handler (name method : String) : List String :=
  ["", "export async function " ++ method ++ "(request: NextRequest) \x7b", "  try \x7b"] ++ handlerBody name method
    ++ ["  \x7d catch (error) \x7b", "    console.error('" ++ name ++ " " ++ method ++ " error:', error);",
      "    return NextResponse.json(\x7b error: 'Internal Server Error' \x7d, \x7b status: 500 \x7d);",
        "  \x7d", "\x7d"]

def routeFile (r : RouteFile) : List Char :=
  ofLines ([String.ofList r.header, "", String.ofList r.imports]
    ++ onlyIf r.hasAuth ["// import \x7b requireAuth \x7d from '@/lib/auth';"]
    ++ r.methods.flatMap (handler r.name))

/-! ## Models -/

structure Model where
  name : String
  header : List Char
  imports : List Char
  fields : List TypedName
  hasTimestamps : Bool
  factoryDoc : List Char

def fieldLine (f : TypedName) : String :=
  "  " ++ f.name.plain ++ ": z." ++ f.type.plain ++ "()" ++ (if f.isOptional then ".optional()" else "") ++ ","

def model (m : Model) : List Char :=
  let upper := pascal m.name
  let lower := camel m.name
  ofLines ([String.ofList m.header, "", String.ofList m.imports, "",
      "export const " ++ lower ++ "Schema = z.object(\x7b", "  id: z.string().uuid(),"]
    ++ m.fields.map fieldLine
    ++ onlyIf m.hasTimestamps ["  createdAt: z.date(),", "  updatedAt: z.date(),"]
    ++ ["\x7d);", "", "export const create" ++ upper ++ "Schema = " ++ lower ++ "Schema.omit(\x7b", "  id: true,"]
    ++ onlyIf m.hasTimestamps ["  createdAt: true,", "  updatedAt: true,"]
    ++ ["\x7d);", "", "export const update" ++ upper ++ "Schema = create" ++ upper ++ "Schema.partial();", "",
      "export type " ++ upper ++ " = z.infer<typeof " ++ lower ++ "Schema>;",
      "export type Create" ++ upper ++ " = z.infer<typeof create" ++ upper ++ "Schema>;",
      "export type Update" ++ upper ++ " = z.infer<typeof update" ++ upper ++ "Schema>;", "",
      String.ofList m.factoryDoc,
      "export function create" ++ upper ++ "(data: Create" ++ upper ++ "): " ++ upper ++ " \x7b"]
    ++ onlyIf m.hasTimestamps ["  const now = new Date();"]
    ++ ["  return \x7b", "    id: crypto.randomUUID(),", "    ...data,"]
    ++ onlyIf m.hasTimestamps ["    createdAt: now,", "    updatedAt: now,"]
    ++ ["  \x7d;", "\x7d"])

/-! ## Test files -/

structure TestFile where
  name : String
  header : List Char
  imports : List Char
  importPath : String
  functions : List String

def functionTests (f : String) : List String :=
  ["  describe('" ++ f ++ "', () => \x7b", "    it('should exist', () => \x7b",
    "      expect(" ++ f ++ ").toBeDefined();", "    \x7d);", "  \x7d);"]

def withGaps : List (List String) → List String
  | [] => []
  | [g] => g
  | g :: h :: r => g ++ "" :: withGaps (h :: r)

def testFile (t : TestFile) : List Char :=
  ofLines ([String.ofList t.header, "", String.ofList t.imports]
    ++ onlyIf t.functions.isEmpty ["// import \x7b ... \x7d from '" ++ t.importPath ++ "';"]
    ++ ["", "describe('" ++ pascal t.name ++ "', () => \x7b"]
    ++ withGaps (t.functions.map functionTests)
    ++ onlyIf t.functions.isEmpty
      ["  it('should be implemented', () => \x7b", "    expect(true).toBe(true);", "  \x7d);"]
    ++ ["\x7d);"])

end SourceBench.Template

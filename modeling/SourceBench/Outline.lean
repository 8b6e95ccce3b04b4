import SourceBench.Declaration
import SourceBench.Syntax.Recovery
import SourceBench.Text.Lines

/-!
# Outlines

What a source declares, imports and exports, read off its syntax tree, with a few measures of its size.
-/
namespace SourceBench

open Syntax

structure ImportRecord where
  source : String
  names : List String
  defaultName : Option String
  namespaceName : Option String
  isTypeOnly : Bool
deriving DecidableEq, Repr

structure ExportRecord where
  name : String
  isDefault : Bool
  isTypeOnly : Bool
  isReExport : Bool
  source : Option String
deriving DecidableEq, Repr

structure Metrics where
  lines : Nat
  functions : Nat
  classes : Nat
  imports : Nat
  exports : Nat
  complexity : Nat
deriving DecidableEq, Repr

structure Outline where
  path : String
  tree : DeclarationTree
  imports : List ImportRecord
  exports : List ExportRecord
  metrics : Metrics
deriving Repr

/-! ## As values -/

def ImportRecord.toValue (r : ImportRecord) : Value :=
  .object [("module_specifier", .str r.source), ("named_imports", .list (r.names.map .str)),
    ("default_import", .ofOption r.defaultName), ("namespace_import", .ofOption r.namespaceName),
    ("is_type_only", .bool r.isTypeOnly)]

def ExportRecord.toValue (r : ExportRecord) : Value :=
  .object [("name", .str r.name), ("is_default", .bool r.isDefault), ("is_type_only", .bool r.isTypeOnly),
    ("is_re_export", .bool r.isReExport), ("source_module", .ofOption r.source)]

def Metrics.toValue (m : Metrics) : Value :=
  .object [("lines_of_code", .nat m.lines), ("function_count", .nat m.functions), ("class_count", .nat m.classes),
    ("import_count", .nat m.imports), ("export_count", .nat m.exports), ("cyclomatic_complexity", .nat m.complexity)]

def Outline.toValue (o : Outline) : Value :=
  .object [("file_path", .str o.path),
    ("declarations", .list (o.tree.rootDecls.filterMap (o.tree.toValue? (o.tree.nodes.length + 1)))),
    ("imports", .list (o.imports.map (·.toValue))), ("exports", .list (o.exports.map (·.toValue))),
    ("metrics", o.metrics.toValue)]

/-! ## Texts of trees -/

namespace Reading

def textOf (source : List Char) (t : Tree) : List Char := slice source t.span

def stringOf (source : List Char) (t : Tree) : String := String.ofList (textOf source t)

def unquote (cs : List Char) : List Char :=
  match cs, cs.getLast? with
  | q :: r, some e => if !r.isEmpty && (q == '\'' || q == '"' || q == '`') && e == q then r.dropLast else cs
  | _, _ => cs

def literalText (source : List Char) (t : Tree) : String := String.ofList (unquote (textOf source t))

def typeText (source : List Char) (t : Tree) : String :=
  match textOf source t with
  | ':' :: r => String.ofList (Text.trim r)
  | r => String.ofList (Text.trim r)

def rangeOf (t : Tree) : Nat × Nat := (t.start, t.stop)

def withPrevious {α : Type} (previous : Option α) : List α → List (Option α × α)
  | [] => []
  | x :: xs => (previous, x) :: withPrevious (some x) xs

/-! ## Doc comments -/

/-- The line without its margin star. -/
def docLine (line : List Char) : List Char :=
  match Text.trim line with
  | '*' :: r => Text.trim r
  | l => l

def docText (comment : List Char) : List Char :=
  let inner := (comment.take (comment.length - 2)).drop 3
  let lines := ((Text.splitLines inner).map docLine).takeWhile (·.head? != some '@')
  Text.trim (Text.joinLines lines)

/-- The text of the doc comment right before something. -/
def docBefore (source : List Char) (previous : Option Tree) : Option String :=
  match previous with
  | some t =>
    let raw := textOf source t
    if t.kind == .comment && "/**".toList.isPrefixOf raw then some (String.ofList (docText raw)) else none
  | none => none

/-! ## Parts of declarations -/

def parameterValue (source : List Char) (t : Tree) : Value :=
  .object [("name", .str (stringOf source ((t.child? .pattern).getD t))),
    ("type", .ofOption ((t.child? .type).map (typeText source)))]

def parametersValue (source : List Char) (t : Option Tree) : Value :=
  match t with
  | none => .list []
  | some ps =>
    .list ((ps.namedChildren.filter fun q => q.kind == .requiredParameter || q.kind == .optionalParameter).map
      (parameterValue source))

def accessibilityValue (source : List Char) (t : Tree) : Value :=
  .ofOption ((t.namedChildren.find? (·.kind == .accessibilityModifier)).map (stringOf source))

def partTexts (source : List Char) (t : Tree) : List Value :=
  (t.namedChildren.filter (·.kind != .comment)).map fun c => .str (stringOf source c)

def classDetails (source : List Char) (t : Tree) : Fields :=
  let clauses := (t.namedChildren.filter (·.kind == .classHeritage)).flatMap (·.namedChildren)
  let extended := (clauses.filter (·.kind == .extendsClause)).getLast?.map fun c =>
    String.ofList (Text.trim ((textOf source c).drop 7))
  let implemented := match (clauses.filter (·.kind == .implementsClause)).getLast? with
    | some c => partTexts source c
    | none => []
  [("is_abstract", .bool (t.kind == .abstractClassDeclaration)), ("extends", .ofOption extended),
    ("implements", .list implemented)]

def enumMembers (source : List Char) (body : Tree) : List Value :=
  (body.namedChildren.filter (·.kind != .comment)).map fun m =>
    let named := if m.kind == .enumAssignment then (m.child? .name).getD m else m
    .str (literalText source named)

/-! ## What is declared -/

structure Item where
  kind : DeclKind
  name : Tree
  body : Option Tree
  details : Fields

/-- The body that holds members; only classes and interfaces have one. -/
def Item.memberBody (d : Item) : Option Tree :=
  if d.kind = .classDecl ∨ d.kind = .interfaceDecl then d.body else none

def memberItem? (source : List Char) (m : Tree) : Option Item :=
  match m.child? .name with
  | none => none
  | some name =>
    match m.kind with
    | .methodDefinition | .methodSignature | .abstractMethodSignature =>
      some ⟨.method, name, m.child? .body,
        [("is_static", .bool (m.hasToken "static")), ("is_async", .bool (m.hasToken "async")),
          ("is_optional", .bool (m.hasToken "?")), ("accessibility", accessibilityValue source m),
          ("parameters", parametersValue source (m.child? .parameters)),
          ("return_type", .ofOption ((m.child? .returnType).map (typeText source)))]⟩
    | .publicFieldDefinition | .propertySignature =>
      some ⟨.property, name, none,
        [("is_static", .bool (m.hasToken "static")), ("is_readonly", .bool (m.hasToken "readonly")),
          ("is_optional", .bool (m.hasToken "?")), ("accessibility", accessibilityValue source m),
          ("type", .ofOption ((m.child? .type).map (typeText source))),
          ("initializer", .ofOption ((m.child? .value).map (stringOf source)))]⟩
    | _ => none

def namedItem? (source : List Char) (t name : Tree) : Option Item :=
  let body := t.child? .body
  match t.kind with
  | .classDeclaration | .abstractClassDeclaration => some ⟨.classDecl, name, body, classDetails source t⟩
  | .interfaceDeclaration =>
    let extended := match (t.namedChildren.filter (·.kind == .extendsTypeClause)).getLast? with
      | some c => partTexts source c
      | none => []
    some ⟨.interfaceDecl, name, body, [("extends", .list extended)]⟩
  | .functionDeclaration | .generatorFunctionDeclaration =>
    some ⟨.functionDecl, name, body,
      [("is_async", .bool (t.hasToken "async")),
        ("is_generator", .bool (t.kind == .generatorFunctionDeclaration)),
        ("parameters", parametersValue source (t.child? .parameters)),
        ("return_type", .ofOption ((t.child? .returnType).map (typeText source)))]⟩
  | .typeAliasDeclaration =>
    some ⟨.typeAlias, name, none, [("type", .ofOption ((t.child? .value).map (stringOf source)))]⟩
  | .enumDeclaration =>
    some ⟨.enumeration, name, body,
      [("members", .list ((body.map (enumMembers source)).getD [])), ("is_const", .bool (t.hasToken "const"))]⟩
  | _ => none

def variableItems (source : List Char) (t : Tree) : List Item :=
  let word := ((t.child? .kind).map (stringOf source)).getD "var"
  (t.namedChildren.filter (·.kind == .variableDeclarator)).filterMap fun v =>
    (v.child? .name).map fun name => ⟨.variableDecl, name, none,
      [("declaration_kind", .str word), ("type", .ofOption ((v.child? .type).map (typeText source)))]⟩

/-- What the declaration of a statement declares; variables only where they are exported. -/
def itemsOf (source : List Char) (exported : Bool) (t : Tree) : List Item :=
  match t.kind with
  | .lexicalDeclaration | .variableDeclaration => if exported then variableItems source t else []
  | _ => ((t.child? .name).bind (namedItem? source t)).toList

/-! ## Declarations -/

/-- What is common to all declarations of a statement. -/
structure Frame where
  outer : Tree
  exported : Bool
  doc : Option String

structure Group where
  frame : Frame
  item : Item

def Group.head (source : List Char) (g : Group) : DeclarationInfo :=
  { kind := g.item.kind, name := stringOf source g.item.name, startLine := g.frame.outer.startRow + 1
    stopLine := g.frame.outer.stopRow + 1, isExported := g.frame.exported, doc := g.frame.doc, details := g.item.details
    startByte := g.frame.outer.start, stopByte := g.frame.outer.stop, nameRange := some (rangeOf g.item.name)
    bodyRange := g.item.body.map rangeOf }

def Item.asMember (source : List Char) (owner : Nat) (previous : Option Tree) (m : Tree) (d : Item) : DeclarationInfo :=
  { kind := d.kind, name := stringOf source d.name, startLine := m.startRow + 1, stopLine := m.stopRow + 1
    doc := docBefore source previous, parent := some owner, details := d.details, startByte := m.start
    stopByte := m.stop, nameRange := some (rangeOf d.name), bodyRange := d.body.map rangeOf }

def membersIn (source : List Char) (owner : Nat) (body : Option Tree) : List DeclarationInfo :=
  match body with
  | none => []
  | some b => (withPrevious none b.namedChildren).filterMap fun (q, m) =>
    (memberItem? source m).map (Item.asMember source owner q m)

def Group.members (source : List Char) (id : Nat) (g : Group) : List DeclarationInfo :=
  membersIn source id g.item.memberBody

def addGroup (source : List Char) (decls : DeclarationTree) (g : Group) : DeclarationTree :=
  match decls.add (g.head source) with
  | (t, .ok d) => (g.members source d.id).foldl (fun t i => (t.add i).1) t
  | (t, .error _) => t

def groupsIn (source : List Char) (previous : Option Tree) (t : Tree) : List Group :=
  let doc := docBefore source previous
  match t.kind with
  | .importStatement => []
  | .exportStatement => match t.child? .declaration with
    | some d => (itemsOf source true d).map (⟨⟨t, true, doc⟩, ·⟩)
    | none => []
  | _ => (itemsOf source false t).map (⟨⟨t, false, doc⟩, ·⟩)

def groupsAfter (source : List Char) (previous : Option Tree) (ts : List Tree) : List Group :=
  (withPrevious previous ts).flatMap fun (q, t) => groupsIn source q t

/-! ## Imports and exports -/

def sourceOf (t : Tree) : Option Tree := t.child? .source

def importRecord (source : List Char) (t : Tree) : Option ImportRecord :=
  match (sourceOf t).orElse fun _ => t.namedChildren.find? (·.kind == .string) with
  | none => none
  | some m =>
    let parts := match t.namedChildren.find? (·.kind == .importClause) with
      | some c => c.namedChildren
      | none => []
    let spaces := (parts.filter (·.kind == .namespaceImport)).filterMap fun q =>
      q.namedChildren.find? (·.kind == .identifier)
    let specifiers := (parts.filter (·.kind == .namedImports)).flatMap fun q =>
      q.namedChildren.filter (·.kind == .importSpecifier)
    some {
      source := literalText source m
      names := (specifiers.filterMap (·.child? .name)).map (stringOf source)
      defaultName := (parts.filter (·.kind == .identifier)).getLast?.map (stringOf source)
      namespaceName := spaces.getLast?.map (stringOf source)
      isTypeOnly := t.hasToken "type" }

def exportSpecifiers (t : Tree) : List Tree :=
  (t.namedChildren.filter (·.kind == .exportClause)).flatMap fun c =>
    c.namedChildren.filter (·.kind == .exportSpecifier)

def localExportNames (source : List Char) (t : Tree) : List String :=
  if (sourceOf t).isSome then []
  else
    match t.child? .value with
    | some v => if v.kind == .identifier then [stringOf source v] else namesOf
    | none => namesOf
where
  namesOf : List String := ((exportSpecifiers t).filterMap (·.child? .name)).map (stringOf source)

def plainExport (name : String) : ExportRecord := ⟨name, false, false, false, none⟩

def defaultExportName (source : List Char) (t : Tree) : String :=
  match t.child? .declaration with
  | some d => match d.child? .name with
    | some n => stringOf source n
    | none => "default"
  | none => match t.child? .value with
    | some v => if v.kind == .identifier then stringOf source v else "default"
    | none => "default"

def clauseRecords (source : List Char) (t : Tree) : List ExportRecord :=
  let from? := (sourceOf t).map (literalText source)
  let typeOnly := t.hasToken "type"
  let ofChild (c : Tree) : List ExportRecord :=
    match c.kind with
    | .exportClause =>
      ((c.namedChildren.filter (·.kind == .exportSpecifier)).filterMap fun s =>
        (s.child? .newName).orElse fun _ => s.child? .name).map fun n =>
          ⟨stringOf source n, false, typeOnly, from?.isSome, from?⟩
    | .namespaceExport =>
      let name := match c.namedChildren.find? (·.kind != .comment) with
        | some n => stringOf source n
        | none => "*"
      [⟨name, false, typeOnly, true, from?⟩]
    | _ => []
  let records := t.namedChildren.flatMap ofChild
  if records.isEmpty && t.hasToken "*" then [⟨"*", false, typeOnly, true, from?⟩] else records

def exportRecords (source : List Char) (t : Tree) : List ExportRecord :=
  if t.hasToken "default" then [⟨defaultExportName source t, true, false, false, none⟩]
  else
    match t.child? .declaration with
    | some d =>
      if d.kind == .lexicalDeclaration || d.kind == .variableDeclaration then
        ((d.namedChildren.filter (·.kind == .variableDeclarator)).filterMap (·.child? .name)).map fun n =>
          plainExport (stringOf source n)
      else
        match d.child? .name with
        | some n => [plainExport (stringOf source n)]
        | none => []
    | none => clauseRecords source t

/-! ## Complexity -/

/-- The tree is a place where control may go two ways. -/
def isDecision (t : Tree) : Bool :=
  match t.kind with
  | .ifStatement | .forStatement | .forInStatement | .whileStatement | .doStatement | .switchCase | .catchClause
  | .ternaryExpression => true
  | .binaryExpression => match t.child? .operator with
    | some o => o.isToken "&&" || o.isToken "||"
    | none => false
  | _ => false

def complexity (t : Tree) : Nat := 1 + ((Tree.unstack [t]).filter isDecision).length

/-! ## The whole source -/

def markExported (decls : DeclarationTree) (names : List String) : DeclarationTree :=
  { decls with nodes := decls.nodes.map fun d =>
      if decls.roots.contains d.id && names.contains d.name then { d with isExported := true } else d }

end Reading

namespace Outline

open Reading

def ofTree (source : List Char) (path : String) (root : Tree) : Outline :=
  let statements := root.namedChildren
  let exported := statements.filter (·.kind == .exportStatement)
  let decls := (groupsAfter source none statements).foldl (addGroup source) .empty
  let decls := markExported decls (exported.flatMap (localExportNames source))
  let imports := (statements.filter (·.kind == .importStatement)).filterMap (importRecord source)
  let exports := exported.flatMap (exportRecords source)
  let count (k : DeclKind) : Nat := (decls.rootDecls.filter (·.kind == k)).length
  { path, tree := decls, imports, exports
    metrics := {
      lines := (Text.splitLines source).length
      functions := count .functionDecl
      classes := count .classDecl
      imports := imports.length
      exports := exports.length
      complexity := complexity root } }

def ofSource [Recovery] (dialect : Dialect) (path : String) (source : List Char) : Outline :=
  ofTree source path (treeOf dialect source)

end Outline
end SourceBench

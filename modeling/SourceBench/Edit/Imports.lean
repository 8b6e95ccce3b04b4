import SourceBench.Edit.Plan
import SourceBench.Snippet.Statement
import SourceBench.Text.Order

/-!
# Changes of imports and exports

An import joins the statement that imports from its module already.  Else it stands before the first statement with a
later module, or behind the last one, or, where there are no imports, behind the comments and directives that the source
begins with.
-/
namespace SourceBench.Imports

open Syntax

def statements (v : View) : List (Tree × String) :=
  (v.tree.namedChildren.filter (·.kind == .importStatement)).filterMap fun t =>
    (t.child? .source).map fun s => (t, Reading.literalText v.text s)

def isDirective (t : Tree) : Bool :=
  t.kind == .expressionStatement && match t.namedChildren.filter (·.kind != .comment) with
    | [s] => s.kind == .string
    | _ => false

/-- The statement may stand before imports: a comment, the interpreter line or a directive. -/
def isLeading (t : Tree) : Bool := t.kind == .comment || t.kind == .hashBangLine || isDirective t

def insertAtTop (bytes : Bytes) (v : View) (statement : List Char) : Splice :=
  match (v.tree.children.takeWhile isLeading).getLast? with
  | some t => .insertAt t.stop ('\n' :: '\n' :: statement)
  | none =>
    if bytes.all Bytes.isSpace then .replace 0 bytes.length (statement ++ ['\n'])
    else .insertAt 0 (statement ++ ['\n', '\n'])

/-- Values without those among `known` and without repetitions. -/
def newAmong (known : List Value) : List Value → List Value
  | [] => []
  | v :: vs => if v.isAmong known then newAmong known vs else v :: newAmong (v :: known) vs

def commaList (vs : List Value) : Except PlanError (List Char) :=
  match vs.mapM textOnly with
  | .ok names => .ok (Text.join ", ".toList (names.map (·.toList)))
  | .error _ => .error .wrongType

def braced (cs : List Char) : List Char := "\x7b ".toList ++ cs ++ " \x7d".toList

def statementText (source : String) (names : List Value) (default namespace_ typeOnly : Value) :
    Except PlanError (List Char) :=
  match ImportStatement.ofValues (.str source) (.list names) default namespace_ typeOnly with
  | .ok s => .ok s.render
  | .error _ => .error .wrongType

def specifiers (named : Tree) : List Tree := named.namedChildren.filter (·.kind == .importSpecifier)

def merge (v : View) (t : Tree) (op : AddImport) : Except PlanError Plan :=
  match Reading.importRecord v.text t with
  | none => .ok .none
  | some record =>
    let fresh := newAmong (record.names.map .str) op.names
    if fresh.isEmpty then .ok .none
    else if record.namespaceName.isSome then .error (.refused (.namespaceImport op.source))
    else
      let clause := childOfKind t .importClause
      match clause.bind (childOfKind · .namedImports), clause.bind (childOfKind · .identifier) with
      | some named, _ => do
        let names ← commaList fresh
        match (specifiers named).getLast? with
        | some last => return .one (.insertAt last.stop (", ".toList ++ names))
        | none => return .one (.replace named.start named.stop (braced names))
      | none, some default => do
        let names ← commaList fresh
        return .one (.insertAt default.stop (", ".toList ++ braced names))
      | none, none => do
        let statement ← statementText op.source fresh .null .null (.bool record.isTypeOnly)
        return .one (.replace t.start t.stop statement)

def add (bytes : Bytes) (v : View) (op : AddImport) : Except PlanError Plan :=
  let imports := statements v
  match imports.find? (·.2 == op.source) with
  | some (t, _) => merge v t op
  | none => do
    let statement ← statementText op.source op.names op.defaultName op.namespaceName op.isTypeOnly
    match imports.find? fun (_, m) => Text.before op.source.toList m.toList with
    | some (t, _) => return .one (.insertAt t.start (statement ++ ['\n']))
    | none => match imports.getLast? with
      | some (t, _) => return .one (.insertAt t.stop ('\n' :: statement))
      | none => return .one (insertAtTop bytes v statement)

def removeStatement (bytes : Bytes) (t : Tree) : Plan :=
  let stop := match bytes.drop t.stop with
    | 13 :: 10 :: _ => t.stop + 2
    | 10 :: _ => t.stop + 1
    | _ => t.stop
  .one (.replace t.start stop [])

def isKept (v : View) (names : List Value) (t : Tree) : Bool :=
  match t.child? .name with
  | some n => !(Value.str (Reading.stringOf v.text n)).isAmong names
  | none => true

def remove (bytes : Bytes) (v : View) (op : RemoveImport) : Plan :=
  match (statements v).find? (·.2 == op.source) with
  | none => .nothingToRemove op.source
  | some (t, _) =>
    if op.names.isEmpty then removeStatement bytes t
    else
      let clause := childOfKind t .importClause
      let named := clause.bind (childOfKind · .namedImports)
      let default := clause.bind (childOfKind · .identifier)
      let all := (named.map specifiers).getD []
      let kept := all.filter (isKept v op.names)
      if kept.isEmpty && default.isNone then removeStatement bytes t
      else if kept.length == all.length then .none
      else match named, default with
        | some n, some d =>
          if kept.isEmpty then .one (.replace d.stop n.stop [])
          else .one (.replace n.start n.stop (braced (Text.join ", ".toList (kept.map (Reading.textOf v.text)))))
        | some n, none =>
          .one (.replace n.start n.stop (braced (Text.join ", ".toList (kept.map (Reading.textOf v.text)))))
        | none, _ => .none

def addExport (bytes : Bytes) (op : AddExport) : Plan :=
  let addition : List Char :=
    if op.declaration.truthy then
      "\nexport ".toList ++ (if op.isDefault.truthy then "default ".toList else []) ++ op.declaration.plain.toList
    else ExportStatement.render { names := [op.name] }
  let gap : List Char := if bytes.isEmpty || bytes.getLast? == some 10 then [] else ['\n']
  .one (.insertAt bytes.length (gap ++ addition ++ ['\n']))

end SourceBench.Imports

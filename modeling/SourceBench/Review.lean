import SourceBench.Outline
import SourceBench.Text.Integer
import SourceBench.Text.Quoted
import SourceBench.Text.Search
import SourceBench.Value.Json

/-!
# Reviews

A review lists what deserves attention in a source: its size, its complexity, exported declarations without
documentation, types without a capital, and imports that no declaration seems to use.  `Thresholds` say from where on
size, complexity and changes of length count.
-/
namespace SourceBench

/-! ## Thresholds -/

structure Thresholds where
  largeFileLines : Int := 500
  complexity : Int := 20
  /-- A change of length up to this many lines is none. -/
  diffTolerance : Int := 2
deriving DecidableEq, Repr

inductive ThresholdError where
  | notTable
  | notNumber
  | badText (text : String)
  | nan
  | infinite
deriving DecidableEq, Repr

def ThresholdError.message : ThresholdError → String
  | notTable => "settings are no table"
  | notNumber => "a threshold is no number"
  | badText s => "invalid literal for int() with base 10: " ++ String.ofList (Text.quoted s.toList)
  | nan => "cannot convert float NaN to integer"
  | infinite => "cannot convert float infinity to integer"

namespace Thresholds

/-- The whole number that a value stands for; fractions are cut off. -/
def wholeNumber : Value → Except ThresholdError Int
  | .bool b => .ok (if b then 1 else 0)
  | .int n => .ok n
  | .float (.finite negative m q) => .ok (((Binary64.finite negative m q).truncate).getD 0)
  | .float (.infinite _) => .error .infinite
  | .float .nan => .error .nan
  | .str s => match Text.readInt s.toList with
    | some n => .ok n
    | none => .error (.badText s)
  | _ => .error .notNumber

def readField (fields : Fields) (key : String) (default : Int) : Except ThresholdError Int :=
  match Fields.get? fields key with
  | some v => wholeNumber v
  | none => .ok default

/-- The thresholds in the `analysis` table of settings; what is not there has its default. -/
def ofSettings (settings : Value) : Except ThresholdError Thresholds :=
  match settings with
  | .object fields =>
    match (Fields.get? fields "analysis").getD (.object []) with
    | .object table => do
      let lines ← readField table "large_file_lines" 500
      let complexity ← readField table "complexity_threshold" 20
      let tolerance ← readField table "diff_tolerance" 2
      return ⟨lines, complexity, tolerance⟩
    | _ => .error .notTable
  | _ => .error .notTable

end Thresholds

/-! ## Issues -/

inductive Severity where
  | error | warning | info
deriving DecidableEq, Repr

def Severity.label : Severity → String
  | error => "error"
  | warning => "warning"
  | info => "info"

inductive IssueKind where
  | largeFile | complexity | missingDoc | naming | deadCode
deriving DecidableEq, Repr

namespace IssueKind

def label : IssueKind → String
  | largeFile => "large-file"
  | complexity => "complexity"
  | missingDoc => "missing-jsdoc"
  | naming => "naming"
  | deadCode => "dead-code"

def severity : IssueKind → Severity
  | largeFile | complexity | naming => .warning
  | missingDoc | deadCode => .info

end IssueKind

structure Issue where
  kind : IssueKind
  message : String
  node : Option String := none
  line : Option Int := none
deriving DecidableEq, Repr

def Issue.toValue (i : Issue) : Value :=
  .object [("type", .str i.kind.label), ("severity", .str i.kind.severity.label), ("message", .str i.message),
    ("node", .ofOption i.node), ("line", match i.line with
      | some n => .int n
      | none => .null)]

structure Review where
  path : String
  issues : List Issue
  metrics : Metrics
  summary : String
deriving Repr

namespace Review

def sizeIssues (t : Thresholds) (m : Metrics) : List Issue :=
  if t.largeFileLines < m.lines then
    [{ kind := .largeFile, message := s!"File has {m.lines} lines. Consider splitting into smaller modules." }]
  else []

def complexityIssues (t : Thresholds) (m : Metrics) : List Issue :=
  if t.complexity < m.complexity then
    [{ kind := .complexity, message := s!"High cyclomatic complexity: {m.complexity}. Consider refactoring." }]
  else []

def isDocumented (d : Declaration) : Bool := d.doc.any fun s => !s.isEmpty

def wantsDoc (k : DeclKind) : Bool := k == .functionDecl || k == .classDecl || k == .interfaceDecl

def wantsCapital (k : DeclKind) : Bool := k == .classDecl || k == .interfaceDecl

def hasCapital (name : String) : Bool := name.toList.head?.any Text.isCapital

def declarationIssues (d : Declaration) : List Issue :=
  let kind := d.kind.label
  let name := d.name
  (if d.isExported && !isDocumented d && wantsDoc d.kind then
    [{ kind := .missingDoc, message := s!"Exported {kind} '{name}' is missing JSDoc documentation"
       node := some name, line := some d.startLine }]
  else [])
  ++ (if wantsCapital d.kind && !hasCapital name then
    [{ kind := .naming, message := s!"{kind} '{name}' should start with an uppercase letter"
       node := some name, line := some d.startLine }]
  else [])

def detailText (decls : List Declaration) : List Char :=
  Text.joinLines (decls.map fun d => Json.write .oneLine 0 (.object d.details))

def isUsed (decls : List Declaration) (details : List Char) (name : String) : Bool :=
  decls.any (·.name == name) || Text.occurs name.toList details

/-- The named imports, of types alone left out, that no declaration seems to use. -/
def importIssues (o : Outline) : List Issue :=
  let decls := o.tree.walk
  let details := detailText decls
  (o.imports.filter (!·.isTypeOnly)).flatMap fun r =>
    let source := r.source
    (r.names.filter fun n => !isUsed decls details n).map fun n =>
      { kind := .deadCode, message := s!"Import '{n}' from '{source}' may be unused", node := some n }

def find (t : Thresholds) (o : Outline) : List Issue :=
  sizeIssues t o.metrics ++ complexityIssues t o.metrics ++ o.tree.walk.flatMap declarationIssues ++ importIssues o

def countText (issues : List Issue) (s : Severity) (word : String) : List String :=
  match (issues.filter (·.kind.severity == s)).length with
  | 0 => []
  | n => [s!"{n} {word}"]

def summaryOf (m : Metrics) (issues : List Issue) : String :=
  let counts := countText issues .error "errors" ++ countText issues .warning "warnings"
    ++ countText issues .info "info"
  let measures := s!"{m.lines} LOC, {m.functions} functions, {m.classes} classes, {m.imports} imports, "
    ++ s!"{m.exports} exports, complexity: {m.complexity}"
  if counts.isEmpty then measures ++ " | No issues" else measures ++ " | Issues: " ++ ", ".intercalate counts

def ofOutline (t : Thresholds) (o : Outline) : Review :=
  let found := find t o
  ⟨o.path, found, o.metrics, summaryOf o.metrics found⟩

def ofSource [Syntax.Recovery] (t : Thresholds) (path : String) (source : List Char) : Review :=
  ofOutline t (Outline.ofSource .typescript path source)

def toValue (r : Review) : Value :=
  .object [("file_path", .str r.path), ("issues", .list (r.issues.map (·.toValue))), ("metrics", r.metrics.toValue),
    ("summary", .str r.summary)]

end Review
end SourceBench

import SourceBench.Command.Desk
import SourceBench.Command.Line
import SourceBench.Comparison
import SourceBench.Edit.Transformation
import SourceBench.Edit.Wire
import SourceBench.Layout
import SourceBench.Patch.Unified
import SourceBench.Snippet.Header
import SourceBench.Workspace.Delivery
import SourceBench.Workspace.Listing

/-!
# Carrying out commands

Each command reads what it needs, calls the library and writes what came of it.  `Command.run` is the whole of what a
command does, to the workspace and to its two streams.
-/
namespace SourceBench
namespace Command

open Syntax
open Work

variable [Recovery]

def number (n : Nat) : String := String.ofList (Nat.toDigits 10 n)

def signed : Int → String
  | .ofNat n => number n
  | .negSucc n => "-" ++ number (n + 1)

def echoJson (v : Value) : Work Unit := echo (Json.render (.indented 2) v)

/-! ## Looking at sources -/

def declarationRow (d : Declaration) : List (List Char) :=
  let mark (b : Bool) : String := if b then "✓" else ""
  [d.kind.label, (if d.parent.isNone then "" else "  ") ++ d.name, signed d.startLine ++ "-" ++ signed d.stopLine,
    mark d.isExported, mark (Review.isDocumented d)].map String.toList

def outlineTable (title : String) (o : Outline) : Console.Table :=
  { title := some title.toList
    columns := [{ header := "Kind" }, { header := "Name" }, { header := "Lines" },
      { header := "Exported", align := .center }, { header := "Doc", align := .center }]
    rows := o.tree.walk.map declarationRow }

def importLine (r : ImportRecord) : String :=
  let names := r.names
  let names := match r.namespaceName with
    | some n => if n.isEmpty then names else ("* as " ++ n) :: names
    | none => names
  let names := match r.defaultName with
    | some n => if n.isEmpty then names else n :: names
    | none => names
  let bound := ", ".intercalate names
  "import " ++ (if bound.isEmpty then "(side effect)" else bound) ++ " <- " ++ r.source

def metricsLine (m : Metrics) : String :=
  "Metrics: " ++ number m.lines ++ " LOC | " ++ number m.functions ++ " functions | " ++ number m.classes
    ++ " classes | " ++ number m.imports ++ " imports | " ++ number m.exports ++ " exports | complexity "
    ++ number m.complexity

def runParse (file : Pathname) (json : Bool) : Work Unit := do
  let source ← orFault ((← store).readText file)
  let dialect : Dialect := if file.suffix == ".tsx" then .tsx else .typescript
  needGrammar dialect
  noteErrors dialect source
  let o := Outline.ofSource dialect file.text source
  if json then echoJson o.toValue
  else
    table (outlineTable file.text o)
    o.imports.forM fun r => echo (importLine r)
    echo (metricsLine o.metrics)

def severityStyle : Severity → String
  | .error => "red"
  | .warning => "yellow"
  | .info => "cyan"

def issueRow (i : Issue) : List (List Char) :=
  let style := severityStyle i.kind.severity
  ["[" ++ style ++ "]" ++ i.kind.severity.label ++ "[/" ++ style ++ "]", i.kind.label, (match i.line with
    | some n => if n == 0 then "" else signed n
    | none => ""), i.message].map String.toList

def reviewTable (r : Review) : Console.Table :=
  { title := some r.path.toList
    columns := [{ header := "Severity" }, { header := "Type" }, { header := "Line", align := .right },
      { header := "Message" }]
    rows := r.issues.map issueRow }

def reviewFile (t : Thresholds) (file : Pathname) : Work Review := do
  let source ← readSource file
  needGrammar .typescript
  noteErrors .typescript source
  let r := Review.ofSource t file.text source
  log .debug "analyzer" (file.text ++ ": " ++ number r.issues.length ++ " issue(s)")
  return r

def runAnalyze (path : Pathname) (json : Bool) : Work Unit := do
  let t ← thresholds
  let files := Listing.sources (← store) path
  if (← store).hasFolder path then
    log .debug "file_system" ("Found " ++ number files.length ++ " TypeScript files under " ++ path.text)
  if files.isEmpty then
    print ("[yellow]No TypeScript files found under " ++ path.text ++ "[/yellow]")
    exit 1
  let reviews ← files.mapM (reviewFile t)
  if json then echoJson (.list (reviews.map (·.toValue)))
  else
    reviews.forM fun r => do
      if !r.issues.isEmpty then table (reviewTable r)
      echo (r.path ++ ": " ++ r.summary)
    if 1 < reviews.length then
      let total := reviews.foldr (fun r n => r.issues.length + n) 0
      writeLines (Console.panel "Analysis".toList
        (number reviews.length ++ " files, " ++ number total ++ " issues").toList)

def runCompare (old new : Pathname) (json : Bool) : Work Unit := do
  let t ← thresholds
  let before ← readSource old
  let after ← readSource new
  needGrammar .typescript
  noteErrors .typescript before
  noteErrors .typescript after
  let c := Comparison.ofSources t before after
  if json then echoJson c.toValue
  else if c.isEmpty then echo "No structural changes."
  else
    c.added.forM fun k => echo ("+ " ++ k)
    c.removed.forM fun k => echo ("- " ++ k)
    c.modified.forM fun k => echo ("~ " ++ k)

/-! ## Changing sources -/

def loadOperations (file : Pathname) : Work (List Value) := do
  match Json.parse (String.ofList (← readSource file)) with
  | none =>
    complain ("[red]✗[/red] " ++ file.text ++ " is not valid JSON")
    exit 2
  | some v => match (v.field? "operations").getD v with
    | .list vs => return vs
    | _ =>
      complain "[red]✗[/red] Operations file must contain a JSON list of operations."
      exit 2

def decodeOperations (vs : List Value) : Work (List Operation) := do
  match vs.mapM Wire.decodeItem with
  | .ok ops => return ops
  | .error .badTag => fail .wrongType
  | .error e =>
    complain ("[red]✗[/red] " ++ e.message)
    exit 2

def transformStep (t : Transformation) (op : Operation) : Work Transformation := do
  if op.looks then needGrammar .typescript
  match t.step op with
  | .error .notText => fail (.file .notText)
  | .error _ => fail .wrongType
  | .ok t =>
    match t.outcomes.getLast? with
    | some (_, .refused r) => log .info "transformer" (op.tag ++ " operation failed: " ++ r.message)
    | some (_, .done (.nothingToRemove source)) =>
      log .debug "transformer" ("No import of '" ++ source ++ "' to remove")
    | _ => pure ()
    return t

def placeTransformed (r : TransformRequest) (after : List Char) : Work Unit := do
  match r.output with
  | some output =>
    if !(← createFile output after r.force) then
      complain ("[red]✗[/red] " ++ output.text ++ " exists; use --force to overwrite.")
      exit 1
    complain ("[green]✓[/green] Wrote " ++ output.text)
  | none =>
    if r.inPlace then
      let id ← replaceFile r.file after "transform"
      complain ("[green]✓[/green] Updated " ++ r.file.text ++ " (backup " ++ id ++ ")")

def reportTransformed (r : TransformRequest) (before after : List Char) (t : Transformation) : Work Unit := do
  if r.showDiff then write (Patch.create r.file.name.toList before after ++ ['\n'])
  else if r.output.isNone && !r.inPlace then write after
  complain (number t.applied ++ " applied, " ++ number t.failures.length ++ " failed")
  if !t.succeeded then exit 1

def runTransform (r : TransformRequest) : Work Unit := do
  let before ← readSource r.file
  let ops ← decodeOperations (← loadOperations r.operations)
  let t ← ops.foldlM transformStep ⟨.ofText before, []⟩
  let after ← match t.source? with
    | some cs => pure cs
    | none => fail (.file .notText)
  t.failures.forM fun (op, why) => complain ("[red]✗[/red] " ++ op.tag ++ ": " ++ why.message)
  placeTransformed r after
  reportTransformed r before after t

def runFormat (file : Pathname) (inPlace check : Bool) : Work Unit := do
  let before ← readSource file
  needGrammar .typescript
  noteErrors .typescript before
  if (Syntax.parse .typescript before).isNone then
    log .warning "printer" "Source has syntax errors; only trimming whitespace"
  let after := Layout.format before
  if check then
    if after == before then echo (file.text ++ " is formatted")
    else
      echo (file.text ++ " would be reformatted")
      exit 1
  else if inPlace then
    if after == before then echo (file.text ++ " unchanged")
    else
      let id ← replaceFile file after "format"
      echo ("Formatted " ++ file.text ++ " (backup " ++ id ++ ")")
  else write after

def settledHeader : Work Value := do
  match Fields.get? (← settings) "format" with
  | some (.object fs) => return (Fields.get? fs "license_header").getD (.str "")
  | _ => fail .noSuchPart

/-- A text in which a backslash with an `n` stands for a line break. -/
def spellBreaks (s : String) : List Char := Text.replaceAll ['\\', 'n'] ['\n'] s.toList

def runLicense (file : Pathname) (header : Option String) (inPlace : Bool) : Work Unit := do
  let header ← match header with
    | some h => pure (Value.str h)
    | none => settledHeader
  if !header.truthy then
    complain "[red]✗[/red] No header given and none configured (tsgen config set-license)."
    exit 1
  let before ← readSource file
  let text ← match header with
    | .str s => pure (spellBreaks s)
    | _ => fail .noSuchPart
  let after := Snippet.addHeader before text
  if !inPlace then write after
  else if after == before then echo (file.text ++ " already starts with a comment")
  else
    let id ← replaceFile file after "license"
    echo ("Added header to " ++ file.text ++ " (backup " ++ id ++ ")")

/-! ## Generating sources -/

def generatorTable : Console.Table :=
  { columns := [{ header := "Generator" }, { header := "Description" }]
    rows := Generator.all.map fun g => [g.label.toList, g.description.toList] }

def scaffoldOptions (r : GenerateRequest) : Value :=
  .object (r.flags.map (fun (k, b) => (k, .bool b)) ++ r.texts.map fun (k, s) => (k, .str s))

def deliver (overwrite : Bool) (files : List GeneratedFile) : Work Delivery := do
  let (s, d, e) := Delivery.run overwrite (← store) {} files
  setStore s
  d.skipped.forM fun p => log .info "file_system" ("Skipping existing file " ++ (Pathname.ofString p).text)
  match e with
  | some e => fail (.file e)
  | none => return d

def runGenerate (r : GenerateRequest) : Work Unit := do
  let request : ScaffoldRequest :=
    { name := .str r.name, outputDir := .str r.output.text, options := scaffoldOptions r }
  let s ← match Scaffold.runNamed r.generator request with
    | .ok s => pure s
    | .error e => fail (.scaffold e)
  if !s.succeeded then
    s.errors.forM fun e => complain ("[red]✗[/red] " ++ e)
    exit 1
  if r.dryRun then
    s.files.forM fun f => do
      echo ("// " ++ f.path)
      write (f.content ++ ['\n'])
  else
    let d ← deliver r.force s.files
    d.written.forM fun p => echo ("Created " ++ p)
    d.skipped.forM fun p => complain ("[yellow]•[/yellow] Skipped " ++ p ++ " (exists; use --force)")
    if !d.skipped.isEmpty && d.written.isEmpty then exit 1

/-! ## Settings and backups -/

def runShowSettings : Work Unit := do
  let fs ← settings
  echo ("Config file: " ++ Settings.file.text)
  fs.forM fun (name, v) => do
    echo ("[" ++ name ++ "]")
    match v with
    | .object inner => inner.forM fun (k, v) => echo ("  " ++ k ++ " = " ++ String.ofList v.literal)
    | _ => pure ()

def givenNumber : Option Int → Value
  | some n => .int n
  | none => .null

def runSetAnalysis (largeFileLines complexity diffTolerance : Option Int) : Work Unit := do
  if largeFileLines.isNone && complexity.isNone && diffTolerance.isNone then
    print "[yellow]Nothing to change.[/yellow]"
    exit 1
  saveSettings (Settings.setAnalysis (← loadSettings) (givenNumber largeFileLines) (givenNumber complexity)
    (givenNumber diffTolerance))
  echo "Analysis settings saved."

def runSetLicense (header : String) : Work Unit := do
  saveSettings (Settings.setHeader (← loadSettings) (.str (String.ofList (spellBreaks header))))
  echo "License header saved."

def cellOf : Value → Work (List Char)
  | .str s => return s.toList
  | .null => return []
  | _ => fail .notText

def sizeOf : Value → Work Nat
  | .list vs => return vs.length
  | .str s => return s.toList.length
  | .object fs => return fs.length
  | _ => fail .wrongType

def backupRow (fs : Fields) : Work (List (List Char)) := do
  let field (key : String) : Value := (Fields.get? fs key).getD (.str "")
  let size ← match Fields.get? fs "files" with
    | some v => sizeOf v
    | none => fail (.missingKey "files")
  return [← cellOf (field "backup_id"), ← cellOf (field "timestamp"), ← cellOf (field "description"),
    (number size).toList]

def runListBackups : Work Unit := do
  match Backup.list (← store) with
  | .error (.file e) => fail (.file e)
  | .error .badRecord => fail .badRecord
  | .error (.missingKey key) => fail (.missingKey key)
  | .error .wrongType => fail .wrongType
  | .ok [] => echo "No backups yet."
  | .ok entries =>
    table { columns := [{ header := "Backup ID" }, { header := "When" }, { header := "Description" },
        { header := "Files", align := .right }]
            rows := ← entries.mapM backupRow }

def restoreReason : Backup.RestoreError → String
  | .missingKey key => String.ofList (Text.quoted key.toList)
  | .badRecord => "Expecting value"
  | .file .notFound => "No such file or directory"
  | .file .isFolder => "Is a directory"
  | .file .notFolder => "Not a directory"
  | .file .alreadyThere => "File exists"
  | .file .notText => "invalid utf-8"
  | .file .sameFile => "are the same file"

def runRestoreBackup (id : String) : Work Unit := do
  let (s, result) := Backup.restore (← store) id
  setStore s
  match result with
  | .done => echo ("Restored backup '" ++ id ++ "'.")
  | .wrongType => fail .wrongType
  | .absent => refuse
  | .failed e =>
    log .warning "diff_engine" ("Rollback of " ++ id ++ " failed: " ++ restoreReason e)
    refuse
where
  refuse : Work Unit := do
    print ("[red]✗[/red] Backup '" ++ id ++ "' not found or unreadable.")
    exit 1

def run : Command → Work Unit
  | .parse file json => runParse file json
  | .analyze path json => runAnalyze path json
  | .transform r => runTransform r
  | .format file inPlace check => runFormat file inPlace check
  | .license file header inPlace => runLicense file header inPlace
  | .compare old new json => runCompare old new json
  | .generators => table generatorTable
  | .generate r => runGenerate r
  | .showSettings => runShowSettings
  | .setAnalysis a b c => runSetAnalysis a b c
  | .setLicense header => runSetLicense header
  | .listBackups => runListBackups
  | .restoreBackup id => runRestoreBackup id

end Command

/-! ## Whole command lines -/

def versionLine : String := "tsgen v0.3.0"

inductive Ending where
  | done (code : Nat)
  /-- The line asks for nothing. -/
  | misused
  | failed (f : Fault)
deriving DecidableEq, Repr

structure Run where
  ending : Ending
  out : List Char := []
  err : List Char := []
  workspace : Workspace

def Run.ofArguments [Syntax.Recovery] (w : Workspace) (missingGrammar : Option String) (args : List String) : Run :=
  match Request.read w.store args with
  | none => { ending := .misused, workspace := w }
  | some .version => { ending := .done 0, out := (versionLine ++ "\n").toList, workspace := w }
  | some (.run verbose c) =>
    let (result, desk) := (Command.run c).run.run { workspace := w, verbose, missingGrammar }
    let ending : Ending := match result with
      | .ok () => .done 0
      | .error (.exit code) => .done code
      | .error (.fault f) => .failed f
    { ending, out := desk.out, err := desk.err, workspace := desk.workspace }

end SourceBench

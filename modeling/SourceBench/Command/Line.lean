import SourceBench.Command.Arguments
import SourceBench.Text.Integer
import SourceBench.Workspace.Store

/-!
# Commands

What a command line asks for.  A line that is wrong in any way asks for nothing at all: an unknown command or option, an
operand too few or too many, a number that is none or too small, a file that is not there.
-/
namespace SourceBench

structure TransformRequest where
  file : Pathname
  operations : Pathname
  output : Option Pathname
  force : Bool
  inPlace : Bool
  showDiff : Bool
deriving DecidableEq, Repr

structure GenerateRequest where
  generator : String
  name : String
  output : Pathname
  /-- Options with a text, by name, as far as they are given. -/
  texts : List (String × String)
  /-- Options that are on or off, by name. -/
  flags : List (String × Bool)
  force : Bool
  dryRun : Bool
deriving DecidableEq, Repr

inductive Command where
  | parse (file : Pathname) (json : Bool)
  | analyze (path : Pathname) (json : Bool)
  | transform (request : TransformRequest)
  | format (file : Pathname) (write check : Bool)
  | license (file : Pathname) (header : Option String) (write : Bool)
  | compare (old new : Pathname) (json : Bool)
  | generators
  | generate (request : GenerateRequest)
  | showSettings
  | setAnalysis (largeFileLines complexity diffTolerance : Option Int)
  | setLicense (header : String)
  | listBackups
  | restoreBackup (id : String)
deriving DecidableEq, Repr

inductive Request where
  | version
  | run (verbose : Bool) (command : Command)
deriving DecidableEq, Repr

namespace Command

/-- The argument ends like the name of a folder: with a slash, or with a single dot. -/
def endsAsFolder (arg : String) : Bool :=
  match (Text.splitOn '/' arg.toList).getLast? with
  | some [] => true
  | some ['.'] => true
  | _ => false

def fileOperand (s : Store) (arg : String) : Option Pathname :=
  let p := Pathname.ofString arg
  if !endsAsFolder arg && s.hasFile p then some p else none

def anyOperand (s : Store) (arg : String) : Option Pathname :=
  let p := Pathname.ofString arg
  if !arg.isEmpty && (if endsAsFolder arg then s.hasFolder p else s.has p) then some p else none

/-- The number that an option is given, at least `least`; the outer `none` means that it is wrong. -/
def numberOption (a : Arguments) (key : String) (least : Int) : Option (Option Int) :=
  match a.value? key with
  | none => some none
  | some s => match Text.readInt s.toList with
    | some n => if least ≤ n then some (some n) else none
    | none => none

/-! ## Options -/

def jsonRule : OptionRule := { names := ["--json"], key := "json" }
def writeRule : OptionRule := { names := ["--write", "-w"], key := "write" }
def forceRule : OptionRule := { names := ["--force", "-f"], key := "force" }
def outputRule : OptionRule := { names := ["--output", "-o"], key := "output", effect := .take }

def textRule (key : String) : OptionRule := { names := ["--" ++ key], key := key, effect := .take }

def turnRule (word key : String) : OptionRule := { names := ["--" ++ word], key := key }

def generateTexts : List String := ["fields", "props", "methods", "functions", "description"]

/-- The options of a generator that are on or off: word, key, and how they are by themselves. -/
def generateFlags : List (String × String × Bool) :=
  [("with-test", "with_test", false), ("children", "has_children", false), ("use-client", "use_client", false),
    ("auth", "has_auth", false), ("timestamps", "has_timestamps", true)]

def generateRules : List OptionRule :=
  [outputRule, forceRule, turnRule "dry-run" "dry-run",
    { names := ["--no-timestamps"], key := "has_timestamps", effect := .turn false }]
    ++ generateTexts.map textRule ++ generateFlags.map fun (word, key, _) => turnRule word key

/-! ## Reading each command -/

def readParse (s : Store) (args : List String) : Option Command := do
  let a ← Arguments.read [jsonRule] true args
  match a.operands with
  | [file] => return .parse (← fileOperand s file) (a.flag "json" false)
  | _ => none

def readAnalyze (s : Store) (args : List String) : Option Command := do
  let a ← Arguments.read [jsonRule] true args
  match a.operands with
  | [path] => return .analyze (← anyOperand s path) (a.flag "json" false)
  | _ => none

def readTransform (s : Store) (args : List String) : Option Command := do
  let rules := [outputRule, forceRule, { names := ["--in-place", "-i"], key := "in-place" }, turnRule "diff" "diff"]
  let a ← Arguments.read rules true args
  match a.operands with
  | [file, operations] => return .transform {
      file := ← fileOperand s file, operations := ← fileOperand s operations
      output := (a.value? "output").map .ofString, force := a.flag "force" false
      inPlace := a.flag "in-place" false, showDiff := a.flag "diff" false }
  | _ => none

def readFormat (s : Store) (args : List String) : Option Command := do
  let a ← Arguments.read [writeRule, turnRule "check" "check"] true args
  match a.operands with
  | [file] => return .format (← fileOperand s file) (a.flag "write" false) (a.flag "check" false)
  | _ => none

def readLicense (s : Store) (args : List String) : Option Command := do
  let a ← Arguments.read [writeRule, textRule "header"] true args
  match a.operands with
  | [file] => return .license (← fileOperand s file) (a.value? "header") (a.flag "write" false)
  | _ => none

def readCompare (s : Store) (args : List String) : Option Command := do
  let a ← Arguments.read [jsonRule] true args
  match a.operands with
  | [old, new] => return .compare (← fileOperand s old) (← fileOperand s new) (a.flag "json" false)
  | _ => none

def readBare (c : Command) (args : List String) : Option Command := do
  match (← Arguments.read [] true args).operands with
  | [] => return c
  | _ => none

def readWithOne (c : String → Command) (args : List String) : Option Command := do
  match (← Arguments.read [] true args).operands with
  | [x] => return c x
  | _ => none

def readGenerate (args : List String) : Option Command := do
  let a ← Arguments.read generateRules true args
  match a.operands with
  | [generator, name] => return .generate {
      generator, name
      output := .ofString ((a.value? "output").getD "generated")
      texts := generateTexts.filterMap fun key => (a.value? key).map fun v => (key, v)
      flags := generateFlags.map fun (_, key, default) => (key, a.flag key default)
      force := a.flag "force" false, dryRun := a.flag "dry-run" false }
  | _ => none

def readSetAnalysis (args : List String) : Option Command := do
  let a ← Arguments.read [textRule "large-file-lines", textRule "complexity", textRule "diff-tolerance"] true args
  if !a.operands.isEmpty then none
  return .setAnalysis (← numberOption a "large-file-lines" 1) (← numberOption a "complexity" 1)
    (← numberOption a "diff-tolerance" 0)

def readConfig (args : List String) : Option Command := do
  match (← Arguments.read [] false args).operands with
  | "show" :: rest => readBare .showSettings rest
  | "set-analysis" :: rest => readSetAnalysis rest
  | "set-license" :: rest => readWithOne .setLicense rest
  | _ => none

def readBackup (args : List String) : Option Command := do
  match (← Arguments.read [] false args).operands with
  | "list" :: rest => readBare .listBackups rest
  | "restore" :: rest => readWithOne .restoreBackup rest
  | _ => none

def read (s : Store) : List String → Option Command
  | [] => none
  | name :: rest => match name with
    | "parse" => readParse s rest
    | "analyze" => readAnalyze s rest
    | "transform" => readTransform s rest
    | "format" => readFormat s rest
    | "license" => readLicense s rest
    | "compare" => readCompare s rest
    | "generators" => readBare .generators rest
    | "generate" => readGenerate rest
    | "config" => readConfig rest
    | "backup" => readBackup rest
    | _ => none

end Command

/-- What a command line asks for.  The version is told whatever else follows. -/
def Request.read (s : Store) (args : List String) : Option Request := do
  let a ← Arguments.read [{ names := ["--version", "-v"], key := "version" },
    { names := ["--verbose"], key := "verbose" }]
    false args
  if a.flag "version" false then return .version
  return .run (a.flag "verbose" false) (← Command.read s a.operands)

end SourceBench

import SourceBench.Console.Table
import SourceBench.Review
import SourceBench.Scaffold.Generator
import SourceBench.Edit.Plan
import SourceBench.Workspace.Backup

/-!
# The desk that commands work at

A command reads and changes a workspace and writes to two streams.  It ends by itself, or early with a number, or
because something came in its way that it has no answer to.
-/
namespace SourceBench

open Syntax

inductive Fault where
  | file (e : FileError)
  | threshold (e : ThresholdError)
  | scaffold (e : ScaffoldError)
  | wrongType
  | noSuchPart
  | missingKey (key : String)
  | badRecord
  | badMarkup
  | notText
deriving DecidableEq, Repr

inductive Halt where
  | exit (code : Nat)
  | fault (f : Fault)
deriving DecidableEq, Repr

/-- Where a command works: the workspace, what it has written, and what it was told at the start. -/
structure Desk where
  workspace : Workspace
  verbose : Bool := false
  /-- The name of the grammar's package when that is not installed. -/
  missingGrammar : Option String := none
  /-- The dialects whose grammar is loaded. -/
  loaded : List Dialect := []
  out : List Char := []
  err : List Char := []

/-- Work at a desk.  What was done before an early end stays done. -/
abbrev Work := ExceptT Halt (StateM Desk)

namespace Work

def exit {α : Type} (code : Nat) : Work α := throw (.exit code)

def fail {α : Type} (f : Fault) : Work α := throw (.fault f)

def store : Work Store := return (← get).workspace.store

def setStore (s : Store) : Work Unit := modify fun d => { d with workspace := { d.workspace with store := s } }

/-! ## Writing -/

def write (cs : List Char) : Work Unit := modify fun d => { d with out := d.out ++ cs }

def writeError (cs : List Char) : Work Unit := modify fun d => { d with err := d.err ++ cs }

def echo (line : String) : Work Unit := write (line.toList ++ ['\n'])

def plain (text : String) : Work (List Char) :=
  match Markup.plain text.toList with
  | some cs => return cs
  | none => fail .badMarkup

def print (text : String) : Work Unit := do write ((← plain text) ++ ['\n'])

def complain (text : String) : Work Unit := do writeError ((← plain text) ++ ['\n'])

def writeLines (ls : List (List Char)) : Work Unit := write (ls.flatMap (· ++ ['\n']))

def table (t : Console.Table) : Work Unit :=
  match t.lines? with
  | some ls => writeLines ls
  | none => fail .badMarkup

/-! ## The log -/

inductive Level where
  | debug | info | warning
deriving DecidableEq, Repr

def Level.label : Level → String
  | .debug => "DEBUG"
  | .info => "INFO"
  | .warning => "WARNING"

/-- Puts a message into the log.  Only warnings show unless all is to be shown. -/
def log (level : Level) (part message : String) : Work Unit := do
  if level == .warning || (← get).verbose then
    writeError (level.label ++ " tsgen_cli." ++ part ++ ": " ++ message ++ "\n").toList

/-! ## Files -/

def orFault {α : Type} : Except FileError α → Work α
  | .ok a => return a
  | .error e => fail (.file e)

def readSource (p : Pathname) : Work (List Char) := do
  match (← store).readText p with
  | .ok cs => return cs
  | .error _ => do
    complain ("[red]✗[/red] Cannot read " ++ p.text)
    exit 1

def createFile (p : Pathname) (cs : List Char) (overwrite : Bool) : Work Bool := do
  let (s, done) := (← store).create p cs overwrite
  setStore s
  let done ← orFault done
  if !done then log .info "file_system" ("Skipping existing file " ++ p.text)
  return done

def replaceFile (p : Pathname) (cs : List Char) (verb : String) : Work String := do
  let (w, id) := Backup.replace (← get).workspace p cs (.str (verb ++ " " ++ p.name)) true
  modify fun d => { d with workspace := w }
  let id := (← orFault id).getD ""
  log .debug "diff_engine" ("Rewrote " ++ p.text ++ " (backup " ++ id ++ ")")
  return id

/-! ## Settings -/

def loadSettings : Work Fields := do
  let loaded ← orFault (Settings.load (← store))
  if !loaded.readable then log .warning "config_manager" ("Could not read " ++ Settings.file.text)
  return loaded.fields

def settings : Work Fields := return Settings.withDefaults (← loadSettings)

def thresholds : Work Thresholds := do
  match Thresholds.ofSettings (.object (← settings)) with
  | .ok t => return t
  | .error e => fail (.threshold e)

def saveSettings (new : Option Fields) : Work Unit := do
  match new with
  | none => fail .wrongType
  | some fs =>
    let (s, done) := Settings.save (← store) fs
    setStore s
    if !done then
      log .warning "config_manager" ("Could not write " ++ Settings.file.text)
      print "[red]✗[/red] Could not write configuration."
      exit 1

/-! ## The grammar -/

def dialectLabel : Dialect → String
  | .typescript => "typescript"
  | .tsx => "tsx"

/-- Loads the grammar of a dialect when it is wanted first; the command ends when there is none. -/
def needGrammar (dialect : Dialect) : Work Unit := do
  match (← get).missingGrammar with
  | some name =>
    let package := String.ofList (Text.replaceAll ['_'] ['-'] name.toList)
    complain ("[red]✗[/red] Grammar package '" ++ name ++ "' is not installed. Install with: pip install " ++ package)
    exit 2
  | none =>
    if !(← get).loaded.contains dialect then
      modify fun d => { d with loaded := dialect :: d.loaded }
      log .debug "parser" ("Loaded tree-sitter grammar for " ++ dialectLabel dialect)

def noteErrors (dialect : Dialect) (source : List Char) : Work Unit := do
  if (← get).verbose then
    if (parse dialect source).isNone then log .debug "parser" "Source contains syntax errors; continuing best-effort"

end Work
end SourceBench

import SourceBench.Toml.Reader
import SourceBench.Toml.Writer
import SourceBench.Workspace.Store

/-!
# Settings

Settings are tables in a file.  What the file does not say has its default.  Saving one setting keeps all others.
-/
namespace SourceBench.Settings

def home : Pathname := .ofString "home"

def file : Pathname := home.child "config.toml"

def defaults : Fields :=
  [("analysis", .object [("large_file_lines", .int 500), ("complexity_threshold", .int 20),
    ("diff_tolerance", .int 2)]), ("format", .object [("license_header", .str "")])]

/-- What a file of settings says, and whether it could be read. -/
structure Loaded where
  fields : Fields
  readable : Bool
deriving Repr

/-- Settings as they stand in the file.  A file that is no TOML says nothing; one that is no text at all is an error. -/
def load (s : Store) : Except FileError Loaded :=
  if !s.has file then .ok ⟨[], true⟩
  else match s.readText file with
    | .ok cs => match Toml.parse cs with
      | some fs => .ok ⟨fs, true⟩
      | none => .ok ⟨[], false⟩
    | .error .notText => .error .notText
    | .error _ => .ok ⟨[], false⟩

def update (fs : Fields) (new : Fields) : Fields := new.foldl (fun acc (k, v) => Fields.set acc k v) fs

/-- Puts one section over others: the fields of a table over those of the table of its name. -/
def mergeSection (acc : Fields) (name : String) (v : Value) : Option Fields :=
  match v with
  | .object new => match (Fields.get? acc name).getD (.object []) with
    | .object old => some (Fields.set acc name (.object (update old new)))
    | _ => none
  | v => some (Fields.set acc name v)

def withDefaults (fs : Fields) : Fields := fs.foldl (fun acc (k, v) => (mergeSection acc k v).getD acc) defaults

/-- Sets fields of a table, unless what has its name is no table.  Nothing to set is never wrong. -/
def setFields (fs : Fields) (table : String) (new : Fields) : Option Fields :=
  match (Fields.get? fs table).getD (.object []) with
  | .object old => some (Fields.set fs table (.object (update old new)))
  | _ => if new.isEmpty then some fs else none

/-- Sets the thresholds that are given; null means not given. -/
def setAnalysis (fs : Fields) (largeFileLines complexity diffTolerance : Value) : Option Fields :=
  let given := [("large_file_lines", largeFileLines), ("complexity_threshold", complexity),
    ("diff_tolerance", diffTolerance)].filter fun (_, v) => match v with
      | .null => false
      | _ => true
  setFields fs "analysis" given

def setHeader (fs : Fields) (header : Value) : Option Fields := setFields fs "format" [("license_header", header)]

def save (s : Store) (fs : Fields) : Store × Bool :=
  match s.makeFolders home with
  | (s, some _) => (s, false)
  | (s, none) => match s.writeText file (Toml.render fs) with
    | .ok s => (s, true)
    | .error _ => (s, false)

/-! ## Changes -/

/-- A change to settings: thresholds, where null means not given, or the licence header. -/
inductive Change where
  | analysis (largeFileLines complexity diffTolerance : Value)
  | header (text : Value)

def Change.apply (fs : Fields) : Change → Option Fields
  | .analysis a b c => setAnalysis fs a b c
  | .header text => setHeader fs text

inductive Outcome where
  | saved
  | notSaved
  | notTable
  | unread (e : FileError)
deriving DecidableEq, Repr

def change (s : Store) (c : Change) : Store × Outcome :=
  match load s with
  | .error e => (s, .unread e)
  | .ok loaded => match c.apply loaded.fields with
    | none => (s, .notTable)
    | some fs => match save s fs with
      | (s, true) => (s, .saved)
      | (s, false) => (s, .notSaved)

end SourceBench.Settings

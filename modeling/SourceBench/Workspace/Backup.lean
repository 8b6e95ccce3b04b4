import SourceBench.Text.Order
import SourceBench.Value.Json
import SourceBench.Workspace.Moment
import SourceBench.Workspace.Settings

/-!
# Backups

Before a file gets a new content, it is copied into a folder of its own together with a record that says what it was and
when.  Restoring a backup copies the files in its record back.
-/
namespace SourceBench

/-- A store with a clock, and the number of backups made so far. -/
structure Workspace where
  store : Store
  clock : Clock
  serial : Nat := 0
deriving DecidableEq, Repr

namespace Backup

def folder : Pathname := Settings.home.child "backups"

def recordName : String := "metadata.json"

def idOf (m : Moment) (serial : Nat) : String := m.word ++ "_" ++ String.ofList (Text.hexDigits 8 serial)

def recordOf (description : Value) (m : Moment) (files : List (Pathname × Pathname)) : Value :=
  .object [("description", description), ("timestamp", .str m.text),
    ("files", .list (files.map fun (source, copy) =>
      .object [("original", .str source.text), ("backup", .str copy.text)]))]

def saveCopy (s : Store) (file target : Pathname) : Except FileError (Store × List (Pathname × Pathname)) := do
  if !s.has file then return (s, [])
  let place ← s.locate file
  return (← s.copy file target, [(s.absolute place, target)])

def fill (s : Store) (dir file : Pathname) (description : Value) (m : Moment) : Store × Option FileError :=
  match saveCopy s file (dir.child ("0_" ++ file.name)) with
  | .error e => (s, some e)
  | .ok (s, files) =>
    s.after (s.writeText (dir.child recordName) (Json.write (.indented 2) 0 (recordOf description m files)))

/-- Backs a file up, and gives the id of the backup.  The clock is read twice. -/
def create (w : Workspace) (file : Pathname) (description : Value) : Workspace × Except FileError String :=
  let id := idOf w.clock.now (w.serial + 1)
  let dir := folder.child id
  let w := { w with clock := w.clock.next, serial := w.serial + 1 }
  match w.store.makeFolders dir with
  | (s, some e) => ({ w with store := s }, .error e)
  | (s, none) =>
    let clock := w.clock
    match fill s dir file description clock.now with
    | (s, some e) => ({ w with store := s, clock := clock.next }, .error e)
    | (s, none) => ({ w with store := s, clock := clock.next }, .ok id)

/-- Gives a file a new content, after a backup if one is wanted.  Gives the id of the backup. -/
def replace (w : Workspace) (file : Pathname) (content : List Char) (description : Value) (backup : Bool) :
    Workspace × Except FileError (Option String) :=
  let (w, id) := if backup then
      match create w file description with
      | (w, .ok id) => (w, Except.ok (some id))
      | (w, .error e) => (w, .error e)
    else (w, .ok none)
  match id with
  | .error e => (w, .error e)
  | .ok id => match w.store.writeText file content with
    | .ok s => ({ w with store := s }, .ok id)
    | .error e => (w, .error e)

/-! ## Restoring -/

/-- Why a backup was not restored although its record is there. -/
inductive RestoreError where
  | badRecord
  | missingKey (key : String)
  | file (e : FileError)
deriving DecidableEq, Repr

inductive Restored where
  | done
  | absent
  | failed (e : RestoreError)
  /-- The record holds a value of a type that cannot be used. -/
  | wrongType
deriving DecidableEq, Repr

def pathField (fields : Fields) (key : String) : Except Restored Pathname :=
  match Fields.get? fields key with
  | none => .error (.failed (.missingKey key))
  | some (.str s) => .ok (.ofString s)
  | some _ => .error .wrongType

def restoreItem (s : Store) (item : Value) : Except Restored Store :=
  match item with
  | .object fields => do
    let copy ← pathField fields "backup"
    if s.has copy then
      let target ← pathField fields "original"
      match s.copy copy target with
      | .ok s => return s
      | .error e => throw (.failed (.file e))
    else return s
  | _ => .error .wrongType

def restoreItems (s : Store) : List Value → Store × Restored
  | [] => (s, .done)
  | v :: vs => match restoreItem s v with
    | .ok s => restoreItems s vs
    | .error r => (s, r)

def restoreRecord (s : Store) (record : Value) : Store × Restored :=
  match record with
  | .object fields => match Fields.get? fields "files" with
    | none => (s, .failed (.missingKey "files"))
    | some v => match v.elements? with
      | some items => restoreItems s items
      | none => (s, .wrongType)
  | _ => (s, .wrongType)

def restore (s : Store) (id : String) : Store × Restored :=
  let file := (folder.join (.ofString id)).child recordName
  if !s.has file then (s, .absent)
  else match s.readText file with
    | .error e => (s, .failed (.file e))
    | .ok cs => match Json.parse (String.ofList cs) with
      | none => (s, .failed .badRecord)
      | some record => restoreRecord s record

/-! ## Listing -/

inductive ListError where
  | file (e : FileError)
  | badRecord
  | missingKey (key : String)
  | wrongType
deriving DecidableEq, Repr

def ids (s : Store) (place : List String) : List String :=
  s.entries.filterMap fun (q, e) =>
    match e with
    | .folder =>
      if q.dropLast == place && q.length == place.length + 1 && (s.find? (q ++ [recordName])).isSome then q.getLast?
      else none
    | .file _ => none

def entryOf (s : Store) (id : String) : Except ListError Fields :=
  match s.readText ((folder.child id).child recordName) with
  | .error e => .error (.file e)
  | .ok cs => match Json.parse (String.ofList cs) with
    | none => .error .badRecord
    | some (.object fields) => .ok (Fields.set fields "backup_id" (.str id))
    | some _ => .error .wrongType

mutual
/-- The first value comes before the second; values of different types have no order. -/
def valueBefore : Value → Value → Option Bool
  | .str a, .str b => some (Text.before a.toList b.toList)
  | .list as, .list bs => itemsBefore as bs
  | a, b => match a.ratio?, b.ratio? with
    | some (m, p), some (n, q) => some (m * q < n * p)
    | _, _ => none
def itemsBefore : List Value → List Value → Option Bool
  | [], bs => some (!bs.isEmpty)
  | _ :: _, [] => some false
  | a :: as, b :: bs => if a.same b then itemsBefore as bs else valueBefore a b
end

def stampOf (fields : Fields) : Except ListError Value :=
  match Fields.get? fields "timestamp" with
  | some v => .ok v
  | none => .error (.missingKey "timestamp")

/-- Puts a record in its place among others, the newest first; of those made at one time, the ones before stay
before. -/
def insertNewest (x : Value × Fields) : List (Value × Fields) → Option (List (Value × Fields))
  | [] => some [x]
  | y :: ys => match valueBefore y.1 x.1 with
    | some true => some (x :: y :: ys)
    | some false => (insertNewest x ys).map (y :: ·)
    | none => none

def newestFirst (xs : List (Value × Fields)) : Except ListError (List Fields) :=
  match xs.foldlM (fun acc x => insertNewest x acc) [] with
  | some ys => .ok (ys.map (·.2))
  | none => .error .wrongType

def list (s : Store) : Except ListError (List Fields) :=
  if !s.has folder then .ok []
  else match s.locate folder with
    | .error e => .error (.file e)
    | .ok place =>
      if s.hasFile folder then .error (.file .notFolder)
      else do
        let entries ← (ids s place).mapM (entryOf s)
        let stamped ← entries.mapM fun e => do return (← stampOf e, e)
        newestFirst stamped

end Backup
end SourceBench

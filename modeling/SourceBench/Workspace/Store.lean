import SourceBench.Pathname
import SourceBench.Text.Utf8

/-!
# Stores of files

A store holds files and folders below one folder, the base.  A place is the list of names that lead from the base to a
file or folder.  Path names are followed from the base; those that begin at the root must lead to the base first.  Only
the last name of a path may be that of something that is not there.
-/
namespace SourceBench

inductive Entry where
  | file (bytes : Bytes)
  | folder
deriving DecidableEq, Repr

inductive FileError where
  | notFound
  | isFolder
  | notFolder
  | alreadyThere
  | notText
  | sameFile
deriving DecidableEq, Repr

/-- Files and folders by their places; `base` leads from the root to the folder that places start from. -/
structure Store where
  base : List String
  entries : List (List String × Entry)
deriving DecidableEq, Repr

namespace Store

def empty (base : List String) : Store := ⟨base, []⟩

def find? (s : Store) (place : List String) : Option Entry :=
  match place with
  | [] => some .folder
  | place => (s.entries.find? (·.1 == place)).map (·.2)

def set (s : Store) (place : List String) (e : Entry) : Store :=
  if s.entries.any (·.1 == place) then
    { s with entries := s.entries.map fun x => if x.1 == place then (place, e) else x }
  else { s with entries := s.entries ++ [(place, e)] }

/-- Takes away what stands at a place, and all below it. -/
def erase (s : Store) (place : List String) : Store :=
  { s with entries := s.entries.filter fun x => !place.isPrefixOf x.1 }

def files (s : Store) : List (List String × Bytes) :=
  s.entries.filterMap fun (place, e) => match e with
    | .file b => some (place, b)
    | .folder => none

/-! ## Following paths -/

/-- Follows names from a place.  All but the last must lead through folders; two dots lead back. -/
def follow (s : Store) (place : List String) : List String → Except FileError (List String)
  | [] => .ok place
  | ".." :: rest => if place.isEmpty then .error .notFound else follow s place.dropLast rest
  | [name] => .ok (place ++ [name])
  | name :: rest => match s.find? (place ++ [name]) with
    | some .folder => follow s (place ++ [name]) rest
    | some (.file _) => .error .notFolder
    | none => .error .notFound

def locate (s : Store) (p : Pathname) : Except FileError (List String) :=
  match p.root with
  | .here => follow s [] p.parts
  | _ => if s.base.isPrefixOf p.parts then follow s [] (p.parts.drop s.base.length) else .error .notFound

def look (s : Store) (p : Pathname) : Except FileError Entry := do
  match s.find? (← s.locate p) with
  | some e => return e
  | none => throw .notFound

def has (s : Store) (p : Pathname) : Bool :=
  match s.look p with
  | .ok _ => true
  | .error _ => false

def hasFile (s : Store) (p : Pathname) : Bool :=
  match s.look p with
  | .ok (.file _) => true
  | _ => false

def hasFolder (s : Store) (p : Pathname) : Bool :=
  match s.look p with
  | .ok .folder => true
  | _ => false

def absolute (s : Store) (place : List String) : Pathname := ⟨.slash, s.base ++ place⟩

/-! ## Reading and writing -/

def readBytes (s : Store) (p : Pathname) : Except FileError Bytes := do
  match ← s.look p with
  | .file b => return b
  | .folder => throw .isFolder

def plainBreaks : List Char → List Char
  | [] => []
  | '\r' :: '\n' :: r => '\n' :: plainBreaks r
  | '\r' :: r => '\n' :: plainBreaks r
  | c :: r => c :: plainBreaks r

def readText (s : Store) (p : Pathname) : Except FileError (List Char) := do
  match Utf8.decode (← s.readBytes p) with
  | some cs => return plainBreaks cs
  | none => throw .notText

def writeBytes (s : Store) (p : Pathname) (b : Bytes) : Except FileError Store := do
  let place ← s.locate p
  match s.find? place with
  | some .folder => throw .isFolder
  | _ => return s.set place (.file b)

def writeText (s : Store) (p : Pathname) (cs : List Char) : Except FileError Store := s.writeBytes p (Utf8.encode cs)

def makeFolder (s : Store) (p : Pathname) : Except FileError Store := do
  let place ← s.locate p
  match s.find? place with
  | some .folder => return s
  | some (.file _) => throw .alreadyThere
  | none => return s.set place .folder

/-- The store after a change, or as it was with the reason why there is none. -/
def after (s : Store) : Except FileError Store → Store × Option FileError
  | .ok s' => (s', none)
  | .error e => (s, some e)

/-- Makes a folder and those that it is in.  The number bounds how many. -/
def makeFoldersWith : Nat → Store → Pathname → Store × Option FileError
  | 0, s, p => s.after (s.makeFolder p)
  | n + 1, s, p =>
    match s.makeFolder p with
    | .ok s => (s, none)
    | .error .notFound =>
      if p.parts.isEmpty then (s, some .notFound)
      else match makeFoldersWith n s p.parent with
        | (s, none) => s.after (s.makeFolder p)
        | (s, some e) => (s, some e)
    | .error e => (s, some e)

/-- Makes a folder and those that it is in, as far as that goes, and gives the reason when it ends early. -/
def makeFolders (s : Store) (p : Pathname) : Store × Option FileError := makeFoldersWith p.parts.length s p

/-- Writes a text to a file and makes the folders for it, unless there is something already that must not be
overwritten.  Tells whether it was written.  Folders that were made stay where the file cannot be written. -/
def create (s : Store) (p : Pathname) (cs : List Char) (overwrite : Bool) : Store × Except FileError Bool :=
  if s.has p && !overwrite then (s, .ok false)
  else match s.makeFolders p.parent with
    | (s, some e) => (s, .error e)
    | (s, none) => match s.writeText p cs with
      | .ok s => (s, .ok true)
      | .error e => (s, .error e)

def sameThing (s : Store) (p q : Pathname) : Bool :=
  match s.locate p, s.locate q with
  | .ok a, .ok b => a == b && (s.find? a).isSome
  | _, _ => false

/-- Copies a file; onto a folder means into it.  No file is copied onto itself. -/
def copy (s : Store) (source target : Pathname) : Except FileError Store := do
  let target := if s.hasFolder target then target.child source.name else target
  if s.sameThing source target then throw .sameFile
  s.writeBytes target (← s.readBytes source)

end Store
end SourceBench

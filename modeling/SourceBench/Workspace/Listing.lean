import SourceBench.Text.Order
import SourceBench.Workspace.Store

/-!
# Source files in a store

The TypeScript files below a folder, those in folders of dependencies and build products left out.  They are looked for
by one extension after the other, and then put in the order of the names along their paths.
-/
namespace SourceBench.Listing

def extensions : List String := [".cts", ".mts", ".ts", ".tsx"]

def ignoredNames : List String := ["node_modules", "dist", "build", "coverage", ".git", ".next", ".turbo"]

def partsBefore : List String → List String → Bool
  | [], b => !b.isEmpty
  | _ :: _, [] => false
  | a :: r, b :: s => Text.before a.toList b.toList || (a == b && partsBefore r s)

def insertParts (p : List String) : List (List String) → List (List String)
  | [] => [p]
  | q :: qs => if partsBefore q p then q :: insertParts p qs else p :: q :: qs

def sortParts (ps : List (List String)) : List (List String) := ps.foldr insertParts []

/-- The names that lead from a place to the files below it whose names end as given. -/
def pass (s : Store) (place : List String) (extension : String) : List (List String) :=
  s.files.filterMap fun (q, _) =>
    let rest := q.drop place.length
    if place.isPrefixOf q && extension.toList.isSuffixOf (rest.getLast?.getD "").toList &&
      !rest.any (ignoredNames.contains ·) then some rest else none

/-- The source files below a place, those of one extension after those of another. -/
def below (s : Store) (place : List String) : List (List String) := extensions.flatMap (pass s place)

/-- The source files that a path name stands for: itself when it is one, or all below it when it is a folder. -/
def sources (s : Store) (p : Pathname) : List Pathname :=
  match s.locate p with
  | .error _ => []
  | .ok place => match s.find? place with
    | some (.file _) => if extensions.contains p.suffix then [p] else []
    | some .folder => (sortParts (below s place)).map fun rest => ⟨p.root, p.parts ++ rest⟩
    | none => []

end SourceBench.Listing

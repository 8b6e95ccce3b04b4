import SourceBench.Scaffold.Generator
import SourceBench.Workspace.Store

/-!
# Delivery

Generated files go into a store one after another.  A file that is there already is skipped unless it may be
overwritten.
-/
namespace SourceBench

structure Delivery where
  written : List String := []
  skipped : List String := []
deriving DecidableEq, Repr

namespace Delivery

def step (overwrite : Bool) (s : Store) (d : Delivery) (f : GeneratedFile) : Store × Except FileError Delivery :=
  let (s, done) := s.create (.ofString f.path) f.content overwrite
  (s, done.map fun done =>
    if done then { d with written := d.written ++ [f.path] } else { d with skipped := d.skipped ++ [f.path] })

def run (overwrite : Bool) (s : Store) (d : Delivery) : List GeneratedFile → Store × Delivery × Option FileError
  | [] => (s, d, none)
  | f :: fs => match step overwrite s d f with
    | (s, .ok d) => run overwrite s d fs
    | (s, .error e) => (s, d, some e)

end Delivery
end SourceBench

import SourceBench.Command.Run

/-!
# The program

Reads the folder that it is started in, carries out its command line there, and writes the files back that changed.
-/
namespace SourceBench
namespace Main

/-- Adds files and folders, with all below them, to a store. -/
partial def load (place : List String) (entries : Array IO.FS.DirEntry) (s : Store) : IO Store := do
  let mut s := s
  for e in entries do
    let there := place ++ [e.fileName]
    match (← e.path.metadata).type with
    | .dir => s ← load there (← e.path.readDir) (s.set there .folder)
    | .file => s := s.set there (.file (← IO.FS.readBinFile e.path).toList)
    | _ => pure ()
  return s

def store (old new : Store) : IO Unit := do
  for (place, bytes) in new.files do
    if old.find? place != some (.file bytes) then
      IO.FS.createDirAll ("/".intercalate ("." :: place.dropLast))
      IO.FS.writeBinFile ("/".intercalate ("." :: place)) ⟨bytes.toArray⟩

/-- The present moment: that of a file just made. -/
def now : IO Clock := do
  let (_, path) ← IO.FS.createTempFile
  let made := (← path.metadata).modified
  IO.FS.removeFile path
  return ⟨⟨made.sec.toNat * 1000000 + made.nsec.toNat / 1000⟩, 1⟩

def serial : IO Nat := do
  let bytes ← IO.getRandomBytes 4
  return bytes.toList.foldl (fun n b => n * 256 + b.toNat) 0

/-- Carries out a command line, and gives the number that the program ends with. -/
def run (args : List String) : IO UInt32 := do
  let here ← IO.currentDir
  let s ← load [] (← here.readDir) (.empty (Pathname.ofString here.toString).parts)
  let r := Run.ofArguments { store := s, clock := ← now, serial := (← serial) % 0xFFFFFFFF } none args
  store s r.workspace.store
  (← IO.getStdout).putStr (String.ofList r.out)
  (← IO.getStderr).putStr (String.ofList r.err)
  match r.ending with
  | .done code => return code.toUInt32
  | .misused => do
    IO.eprintln "usage: tsgen [--version] [--verbose] COMMAND [ARGUMENTS]"
    return 2
  | .failed _ => do
    IO.eprintln "error: the command could not be carried out"
    return 1

end Main
end SourceBench

def main (args : List String) : IO UInt32 := SourceBench.Main.run args

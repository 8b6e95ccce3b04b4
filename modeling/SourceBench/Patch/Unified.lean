import SourceBench.Patch.Alignment

/-!
# Unified patches

Differences with up to three lines around them, in hunks that say where they stand.  Differences with more than six
equal lines between them are in hunks of their own.
-/
namespace SourceBench.Patch

def context : Nat := 3

/-- A stretch of a patch: the lines before it on both sides, and its chunks. -/
structure Hunk where
  oldStart : Nat
  newStart : Nat
  chunks : List Chunk
deriving DecidableEq, Repr

namespace Hunk

def old (h : Hunk) : List Line := h.chunks.flatMap (·.old)

def new (h : Hunk) : List Line := h.chunks.flatMap (·.new)

end Hunk

def lastLines (n : Nat) (ls : List Line) : List Line := ls.drop (ls.length - n)

def hunkOf (i j : Nat) (chunks : List Chunk) : List Hunk := if chunks.any (·.isChange) then [⟨i, j, chunks⟩] else []

/-- The hunks of the chunks that follow `group`, which begins after `i` old and `j` new lines. -/
def hunksFrom (i j : Nat) (group : List Chunk) : List Chunk → List Hunk
  | [] => hunkOf i j group
  | [.same ls] => hunkOf i j (group ++ [.same (ls.take context)])
  | .same ls :: rest =>
    if 2 * context < ls.length then
      let whole := group ++ [.same ls]
      let i' := i + (whole.flatMap (·.old)).length - context
      let j' := j + (whole.flatMap (·.new)).length - context
      hunkOf i j (group ++ [.same (ls.take context)]) ++ hunksFrom i' j' [.same (lastLines context ls)] rest
    else hunksFrom i j (group ++ [.same ls]) rest
  | c :: rest => hunksFrom i j (group ++ [c]) rest

def hunks : List Chunk → List Hunk
  | .same ls :: rest => hunksFrom (ls.length - context) (ls.length - context) [.same (lastLines context ls)] rest
  | cs => hunksFrom 0 0 [] cs

/-! ## Text -/

/-- A range of lines: its first, and its length unless that is one.  An empty range names the line before it. -/
def rangeText (start length : Nat) : List Char :=
  if length = 1 then Nat.toDigits 10 (start + 1)
  else Nat.toDigits 10 (if length = 0 then start else start + 1) ++ ',' :: Nat.toDigits 10 length

def Chunk.lines : Chunk → List Line
  | same ls => ls.map (' ' :: ·)
  | change old new => old.map ('-' :: ·) ++ new.map ('+' :: ·)

def Hunk.lines (h : Hunk) : List Line :=
  ("@@ -".toList ++ rangeText h.oldStart h.old.length ++ " +".toList ++ rangeText h.newStart h.new.length
    ++ " @@".toList) :: h.chunks.flatMap (·.lines)

def lines (name : List Char) (old new : List Line) : List Line :=
  match hunks (align old new) with
  | [] => []
  | hs => ("--- a/".toList ++ name) :: ("+++ b/".toList ++ name) :: hs.flatMap (·.lines)

def create (name old new : List Char) : List Char :=
  Text.joinLines (lines name (Text.splitLines old) (Text.splitLines new))

end SourceBench.Patch

import SourceBench.Text.Lines

/-!
# Alignments

Two lists of lines are laid side by side as chunks that are the same and chunks that differ.  The longest common run is
found first, of several the one that ends first in the old lines and then in the new ones; what stands before it and
behind it is aligned in the same way.  In long texts the lines that recur often are no anchors: a run may not be built
of them, only grow over them.
-/
namespace SourceBench.Patch

abbrev Line := List Char

/-- A stretch of two texts: lines that both have, or old lines with the new ones in their place. -/
inductive Chunk where
  | same (lines : List Line)
  | change (old new : List Line)
deriving DecidableEq, Repr

def Chunk.old : Chunk → List Line
  | same ls => ls
  | change old _ => old

def Chunk.new : Chunk → List Line
  | same ls => ls
  | change _ new => new

def Chunk.isChange : Chunk → Bool
  | same _ => false
  | change _ _ => true

/-! ## Anchors -/

/-- From this many lines on, lines that recur often are no anchors. -/
def longText : Nat := 200

/-- Each new line, and whether it is an anchor: in a long text, a line that stands in more than one of a hundred places,
and one more, is none. -/
def anchors (new : List Line) : List (Line × Bool) :=
  if new.length < longText then new.map (·, true)
  else new.map fun l => (l, new.count l ≤ new.length / 100 + 1)

/-! ## The longest run -/

/-- A run of lines that both sides have: where it begins in each, and its length. -/
structure Run where
  old : Nat
  new : Nat
  size : Nat
deriving DecidableEq, Repr

/-- For each new line, the length of the run of anchors that ends in it and in the given old line.  `before` are the
lengths for the old line before. -/
def runLengths (before : List Nat) (line : Line) (new : List (Line × Bool)) : List Nat :=
  List.zipWith (fun k (l, anchor) => if anchor && l == line then k + 1 else 0) (0 :: before) new

def improve (i : Nat) (best : Run) (lengths : List Nat) : Run :=
  (lengths.zipIdx).foldl (fun b (k, j) => if b.size < k then ⟨i + 1 - k, j + 1 - k, k⟩ else b) best

def bestFrom (new : List (Line × Bool)) (i : Nat) (lengths : List Nat) (best : Run) : List Line → Run
  | [] => best
  | line :: rest =>
    let lengths := runLengths lengths line new
    bestFrom new (i + 1) lengths (improve i best lengths) rest

def sharedFront : List Line → List Line → Nat
  | a :: r, b :: s => if a == b then sharedFront r s + 1 else 0
  | _, _ => 0

def grow (old new : List Line) (r : Run) : Run :=
  let back := sharedFront (old.take r.old).reverse (new.take r.new).reverse
  let front := sharedFront (old.drop (r.old + r.size)) (new.drop (r.new + r.size))
  ⟨r.old - back, r.new - back, back + r.size + front⟩

/-- The longest common run; its length is zero where there is none. -/
def longestRun (old : List Line) (new : List (Line × Bool)) : Run :=
  grow old (new.map (·.1)) (bestFrom new 0 (List.replicate new.length 0) ⟨0, 0, 0⟩ old)

/-! ## Chunks -/

def changeOf (old new : List Line) : List Chunk := if old.isEmpty && new.isEmpty then [] else [.change old new]

/-- The chunks of two texts.  The number bounds how often they are divided. -/
def alignWith : Nat → List Line → List (Line × Bool) → List Chunk
  | 0, old, new => changeOf old (new.map (·.1))
  | n + 1, old, new =>
    let r := longestRun old new
    if r.size = 0 then changeOf old (new.map (·.1))
    else alignWith n (old.take r.old) (new.take r.new) ++ .same ((old.drop r.old).take r.size)
      :: alignWith n (old.drop (r.old + r.size)) (new.drop (r.new + r.size))

def align (old new : List Line) : List Chunk := alignWith old.length old (anchors new)

end SourceBench.Patch

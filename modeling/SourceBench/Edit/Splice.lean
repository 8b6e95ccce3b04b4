import SourceBench.Text.Utf8

/-!
# Splices

A splice puts text in the place of a stretch of bytes.  Several splices of one document are made from the back to the
front, so that one does not move the place of another.
-/
namespace SourceBench

/-- A text to be put in the place of the bytes from `start` up to `stop`. -/
structure Splice where
  start : Int
  stop : Int
  text : List Char
deriving DecidableEq, Repr

/-- The place that an offset names among `length` bytes: negative ones count from the end, and none is beyond the
ends. -/
def cutPoint (length : Nat) (i : Int) : Nat :=
  if i < 0 then (i + length).toNat else min i.toNat length

def slicePart (bytes : Bytes) (start stop : Int) : Bytes :=
  let a := cutPoint bytes.length start
  let b := cutPoint bytes.length stop
  (bytes.drop a).take (b - a)

namespace Splice

def apply (s : Splice) (bytes : Bytes) : Bytes :=
  bytes.take (cutPoint bytes.length s.start) ++ Utf8.encode s.text ++ bytes.drop (cutPoint bytes.length s.stop)

def behind (s t : Splice) : Bool := t.start < s.start || (t.start == s.start && t.stop ≤ s.stop)

def insert (s : Splice) : List Splice → List Splice
  | [] => [s]
  | t :: ts => if s.behind t then s :: t :: ts else t :: insert s ts

/-- Splices from the back to the front; those at the same place keep their order. -/
def sort : List Splice → List Splice
  | [] => []
  | s :: ss => insert s (sort ss)

def applyAll (ss : List Splice) (bytes : Bytes) : Bytes := (sort ss).foldl (fun b s => s.apply b) bytes

def replace (start stop : Nat) (text : List Char) : Splice := ⟨start, stop, text⟩

def insertAt (place : Nat) (text : List Char) : Splice := ⟨place, place, text⟩

end Splice
end SourceBench

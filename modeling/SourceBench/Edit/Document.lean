import SourceBench.Edit.Splice
import SourceBench.Outline

/-!
# Documents

A document is a sequence of bytes that splices change, together with what was read from it last.  A change drops what
was read, so that the next look reads the bytes anew: `Document.readTree` and `Document.readOutline` always show the
current text.
-/
namespace SourceBench

open Syntax

structure View where
  text : List Char
  tree : Tree
  outline : Outline
deriving Repr

variable [Recovery]

def View.ofText (text : List Char) : View :=
  let tree := treeOf .typescript text
  ⟨text, tree, Outline.ofTree text "transform.ts" tree⟩

/-- What a look at the tree alone shows.  All else is as in an empty text. -/
def View.ofTree (p : List Char × Tree) : View := { View.ofText [] with text := p.1, tree := p.2 }

/-- What a look at the outline alone shows.  All else is as in an empty text. -/
def View.ofOutline (o : Outline) : View := { View.ofText [] with outline := o }

/-- Bytes under change, with what was read from them since the last change: the text with its tree, and the outline.
The two are read apart, each when it is first looked at. -/
structure Document where
  bytes : Bytes
  seenTree : Option (List Char × Tree) := none
  seenOutline : Option Outline := none
deriving Repr

namespace Document

def ofText (text : List Char) : Document := { bytes := Utf8.encode text }

def text? (d : Document) : Option (List Char) := Utf8.decode d.bytes

def readTree (d : Document) : Option ((List Char × Tree) × Document) :=
  match d.seenTree with
  | some p => some (p, d)
  | none => d.text?.map fun text =>
    let p := (text, (View.ofText text).tree)
    (p, { d with seenTree := some p })

def readOutline (d : Document) : Option (Outline × Document) :=
  match d.seenOutline with
  | some o => some (o, d)
  | none => d.text?.map fun text =>
    let o := (View.ofText text).outline
    (o, { d with seenOutline := some o })

/-- The view of a document, and the document that remembers it: the outline is read before the tree. -/
def view (d : Document) : Option (View × Document) :=
  match d.readOutline with
  | none => none
  | some (o, d) => d.readTree.map fun (p, d) => (⟨p.1, p.2, o⟩, d)

def splice (d : Document) (ss : List Splice) : Document := { bytes := Splice.applyAll ss d.bytes }

end Document

/-! ## Lines of bytes -/

namespace Bytes

/-- One more than the place of the last line feed, zero when there is none. -/
def afterLastBreak (bytes : Bytes) : Nat :=
  bytes.length - (bytes.reverse.takeWhile (· != 10)).length

def lineStart (bytes : Bytes) (offset : Int) : Nat := afterLastBreak (bytes.take (cutPoint bytes.length offset))

def isIndent (b : UInt8) : Bool := b == 32 || b == 9

def isSpace (b : UInt8) : Bool := (9 ≤ b && b ≤ 13) || b == 32

def indentAt (bytes : Bytes) (offset : Int) : List Char :=
  ((bytes.drop (lineStart bytes offset)).takeWhile isIndent).map fun b => Char.ofNat b.toNat

end Bytes
end SourceBench

import SourceBench.Edit.Document
import SourceBench.Edit.Operation

/-!
# Plans

A plan says which splices carry out an operation on a document, as it is seen in a view.  Making a plan changes nothing.
-/
namespace SourceBench

open Syntax

inductive Refusal where
  | namespaceImport (source : String)
  | noClass (name : String)
  | noSymbol (name : String)
  | noMember (name owner : String)
  | wrapping
  | unknownTag (tag : String)
deriving DecidableEq, Repr

def Refusal.message : Refusal → String
  | namespaceImport m => "Cannot add named imports to namespace import of '" ++ m ++ "'"
  | noClass n => "Class '" ++ n ++ "' not found"
  | noSymbol n => "Symbol '" ++ n ++ "' not found at file scope"
  | noMember n c => "Symbol '" ++ n ++ "' not found in class '" ++ c ++ "'"
  | wrapping => "Wrap transform not yet implemented"
  | unknownTag t => "Unknown operation type: " ++ t

/-- Why there is no plan: the operation is refused, or a value in it is of a type that cannot be used, or the document
is no text. -/
inductive PlanError where
  | refused (r : Refusal)
  | wrongType
  | notText
deriving DecidableEq, Repr

inductive Plan where
  | splices (ss : List Splice)
  /-- There is no import of the module, so there is nothing to remove. -/
  | nothingToRemove (source : String)
deriving DecidableEq, Repr

def Plan.edits : Plan → List Splice
  | splices ss => ss
  | nothingToRemove _ => []

def Plan.one (s : Splice) : Plan := .splices [s]

def Plan.none : Plan := .splices []

def childOfKind (t : Tree) (k : Kind) : Option Tree := t.namedChildren.find? (·.kind == k)

/-- The class of a name that has a body, with the body's range. -/
def classNamed (v : View) (name : String) : Except PlanError (Declaration × Nat × Nat) :=
  match v.outline.tree.find? .classDecl name with
  | some c => match c.bodyRange with
    | some range => .ok (c, range)
    | none => .error (.refused (.noClass name))
  | none => .error (.refused (.noClass name))

end SourceBench

import SourceBench.Edit.Imports
import SourceBench.Edit.Members
import SourceBench.Edit.Renaming

/-!
# Transformations

A transformation carries out operations one after another.  One that is refused leaves the document as it was, and the
others go on.
-/
namespace SourceBench

inductive Look where
  | nothing
  | tree
  | outline
  /-- The tree is looked at if the outline has what the operation asks for. -/
  | outlineThenTree
deriving DecidableEq, Repr

def Operation.look : Operation → Look
  | .addImport _ | .removeImport _ => .tree
  | .addProperty _ | .addMethod _ => .outline
  | .rename _ => .outlineThenTree
  | .addExport _ | .wrap _ | .unknown _ _ => .nothing

def Operation.looks : Operation → Bool
  | .addExport _ | .wrap _ | .unknown _ _ => false
  | _ => true

def Operation.plan (bytes : Bytes) (v : View) : Operation → Except PlanError Plan
  | .addImport op => Imports.add bytes v op
  | .removeImport op => .ok (Imports.remove bytes v op)
  | .addExport op => .ok (Imports.addExport bytes op)
  | .addProperty op => Members.addProperty bytes v op
  | .addMethod op => Members.addMethod bytes v op
  | .rename op => Renaming.plan v op
  | .wrap _ => .error (.refused .wrapping)
  | .unknown tag _ => .error (.refused (.unknownTag tag))

def Operation.blindPlan (bytes : Bytes) : Operation → Except PlanError Plan
  | .addExport op => .ok (Imports.addExport bytes op)
  | .wrap _ => .error (.refused .wrapping)
  | .unknown tag _ => .error (.refused (.unknownTag tag))
  | _ => .error .notText

variable [Syntax.Recovery]

namespace Document

/-- The document as it is after the looks that an operation needs, and the operation's plan. -/
def planFor (d : Document) (op : Operation) : Document × Except PlanError Plan :=
  match op.look with
  | .nothing => (d, op.blindPlan d.bytes)
  | .tree => match d.readTree with
    | some (p, d) => (d, op.plan d.bytes (.ofTree p))
    | none => (d, .error .notText)
  | .outline => match d.readOutline with
    | some (o, d) => (d, op.plan d.bytes (.ofOutline o))
    | none => (d, .error .notText)
  | .outlineThenTree => match d.readOutline with
    | some (o, d) => match op.plan d.bytes (.ofOutline o) with
      | .error e => (d, .error e)
      | .ok _ => match d.view with
        | some (v, d) => (d, op.plan d.bytes v)
        | none => (d, .error .notText)
    | none => (d, .error .notText)

def perform (d : Document) (op : Operation) : Document × Except PlanError Plan :=
  match d.planFor op with
  | (d, .ok (.splices ss)) => (d.splice ss, .ok (.splices ss))
  | (d, r) => (d, r)

end Document

inductive Outcome where
  | done (plan : Plan)
  | refused (r : Refusal)
deriving DecidableEq, Repr

structure Transformation where
  document : Document
  outcomes : List (Operation × Outcome)
deriving Repr

namespace Transformation

def failures (t : Transformation) : List (Operation × Refusal) :=
  t.outcomes.filterMap fun (op, o) => match o with
    | .refused r => some (op, r)
    | .done _ => none

def applied (t : Transformation) : Nat := t.outcomes.length - t.failures.length

def succeeded (t : Transformation) : Bool := t.failures.isEmpty

def source? (t : Transformation) : Option (List Char) := t.document.text?

/-- Carries out one more operation.  An operation with a value of a wrong type ends the transformation. -/
def step (t : Transformation) (op : Operation) : Except PlanError Transformation :=
  match t.document.perform op with
  | (d, .ok p) => .ok ⟨d, t.outcomes ++ [(op, .done p)]⟩
  | (d, .error (.refused r)) => .ok ⟨d, t.outcomes ++ [(op, .refused r)]⟩
  | (_, .error e) => .error e

def run (source : List Char) (ops : List Operation) : Except PlanError Transformation :=
  ops.foldlM step ⟨.ofText source, []⟩

def toValue (t : Transformation) : Value :=
  .object [("success", .bool t.succeeded), ("source", .str (String.ofList (t.source?.getD []))),
    ("applied_operations", .nat t.applied),
    ("failed_operations", .list (t.failures.map fun (op, r) =>
      .object [("operation", op.toValue), ("message", .str r.message)]))]

end Transformation
end SourceBench

import SourceBench.Edit.Plan

/-!
# Renaming

A declaration is renamed wherever its name stands as a variable or a type; in a shorthand property the key stays.  A
member is renamed where it is declared and wherever a property of its name is taken of anything.
-/
namespace SourceBench.Renaming

open Syntax

def spliceAt (text : List Char) (old new : String) (t : Tree) : Option Splice :=
  match t.kind with
  | .identifier | .typeIdentifier =>
    if Reading.textOf text t == old.toList then some (.replace t.start t.stop new.toList) else none
  | .shorthandPropertyIdentifier =>
    if Reading.textOf text t == old.toList then
      some (.replace t.start t.stop (old.toList ++ ": ".toList ++ new.toList))
    else none
  | _ => none

/-- The kinds of declarations that can be renamed, in the order in which they are looked for. -/
def renamable : List DeclKind := [.functionDecl, .classDecl, .interfaceDecl, .typeAlias]

def ofSymbol (v : View) (op : Rename) : Except PlanError Plan :=
  if renamable.any fun k => (v.outline.tree.find? k op.old).isSome then
    .ok (.splices (v.tree.nodes.filterMap (spliceAt v.text op.old op.new)))
  else .error (.refused (.noSymbol op.old))

def accessSplice (text : List Char) (old new : String) (t : Tree) : Option Splice :=
  if t.kind == .memberExpression then
    match t.child? .property with
    | some p =>
      if p.kind == .propertyIdentifier && Reading.textOf text p == old.toList then
        some (.replace p.start p.stop new.toList)
      else none
    | none => none
  else none

def memberNamed (v : View) (c : Declaration) (name : String) : Option Declaration :=
  (v.outline.tree.findMember? c.id .method name).orElse fun _ => v.outline.tree.findMember? c.id .property name

def ofMember (v : View) (op : Rename) (owner : String) : Except PlanError Plan := do
  let (c, _) ← classNamed v owner
  match (memberNamed v c op.old).bind (·.nameRange) with
  | some (a, b) =>
    return .splices (.replace a b op.new.toList :: v.tree.nodes.filterMap (accessSplice v.text op.old op.new))
  | none => throw (.refused (.noMember op.old owner))

/-- The class that a renaming names.  Lists and objects name nothing that could be looked up. -/
def ownerName (op : Rename) : Except PlanError String :=
  match op.owner with
  | .list _ | .object _ => .error .wrongType
  | v => .ok v.plain

/-- Renames a member where the scope is a class, else a declaration of the file. -/
def plan (v : View) (op : Rename) : Except PlanError Plan :=
  if (match op.scope with
      | .str s => s == "class"
      | _ => false) && op.owner.truthy then do
    match op.owner with
    | .str s => ofMember v op s
    | _ =>
      let name ← ownerName op
      throw (.refused (.noClass name))
  else ofSymbol v op

end SourceBench.Renaming

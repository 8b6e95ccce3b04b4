import SourceBench.Value

/-!
# Declarations

Declarations live in an arena, `DeclarationTree`: each has the position where it was added as its id, and owners point
to their members by id.  Two indexes find the first top-level declaration, or the first member of an owner, of a kind
and name.  A member must lie within the lines of its owner; one that does not is refused, but keeps its place in the
arena.
-/
namespace SourceBench

inductive DeclKind where
  | classDecl | interfaceDecl | functionDecl | variableDecl | typeAlias | enumeration | method | property
deriving DecidableEq, Repr

namespace DeclKind

def label : DeclKind → String
  | classDecl => "class"
  | interfaceDecl => "interface"
  | functionDecl => "function"
  | variableDecl => "variable"
  | typeAlias => "type-alias"
  | enumeration => "enum"
  | method => "method"
  | property => "property"

def all : List DeclKind :=
  [classDecl, interfaceDecl, functionDecl, variableDecl, typeAlias, enumeration, method, property]

def ofLabel? (s : String) : Option DeclKind := all.find? (·.label == s)

end DeclKind

/-- What is said of a declaration when it is added. -/
structure DeclarationInfo where
  kind : DeclKind
  name : String
  startLine : Int
  stopLine : Int
  isExported : Bool := false
  doc : Option String := none
  /-- The id of the owner; negative ids count from the end of the arena. -/
  parent : Option Int := none
  details : Fields := []
  startByte : Nat := 0
  stopByte : Nat := 0
  nameRange : Option (Nat × Nat) := none
  bodyRange : Option (Nat × Nat) := none
deriving Repr

structure Declaration extends DeclarationInfo where
  id : Nat
  members : List Nat := []
deriving Repr

namespace Declaration

def identifier (d : Declaration) : String := d.kind.label ++ ":" ++ d.name

def lineSpan (d : Declaration) : Int := d.stopLine - d.startLine

end Declaration

inductive AddError where
  | unknownKind (kind : String)
  | noOwner
  | outside (member : DeclarationInfo) (owner : Declaration)
deriving Repr

def AddError.message : AddError → String
  | unknownKind k => "Unsupported declaration kind: " ++ k
  | noOwner => "list index out of range"
  | outside m o =>
    s!"{m.kind.label} '{m.name}' ({m.startLine}-{m.stopLine}) is outside {o.identifier} ({o.startLine}-{o.stopLine})"

structure DeclarationTree where
  nodes : List Declaration
  roots : List Nat
  topIndex : List ((DeclKind × String) × Nat)
  memberIndex : List ((Int × DeclKind × String) × Nat)
deriving Repr

/-- The place that an id names in a list of the given length: negative ids count from the end. -/
def placeOf (length : Nat) (id : Int) : Option Nat :=
  let i := if id < 0 then id + length else id
  if 0 ≤ i && i < length then some i.toNat else none

def indexInsert {α : Type} [BEq α] (index : List (α × Nat)) (key : α) (id : Nat) : List (α × Nat) :=
  if index.any (·.1 == key) then index else index ++ [(key, id)]

def indexFind {α : Type} [BEq α] (index : List (α × Nat)) (key : α) : Option Nat :=
  (index.find? (·.1 == key)).map (·.2)

namespace DeclarationTree

def empty : DeclarationTree := ⟨[], [], [], []⟩

/-- The declaration with an id; negative ids count from the end. -/
def get? (t : DeclarationTree) (id : Int) : Option Declaration :=
  match placeOf t.nodes.length id with
  | none => none
  | some i => t.nodes[i]?

/-- Adds a declaration.  It gets its place in the arena before its owner is looked up and asked for its lines. -/
def add (t : DeclarationTree) (info : DeclarationInfo) : DeclarationTree × Except AddError Declaration :=
  let id := t.nodes.length
  let decl : Declaration := { info with id := id }
  let t := { t with nodes := t.nodes ++ [decl] }
  match info.parent with
  | none =>
    ({ t with roots := t.roots ++ [id], topIndex := indexInsert t.topIndex (info.kind, info.name) id }, .ok decl)
  | some p =>
    match placeOf t.nodes.length p with
    | none => (t, .error .noOwner)
    | some place =>
      match t.nodes[place]? with
      | none => (t, .error .noOwner)
      | some owner =>
        if owner.startLine ≤ info.startLine && info.stopLine ≤ owner.stopLine then
          let t := { t with
            nodes := t.nodes.modify place fun o => { o with members := o.members ++ [id] }
            memberIndex := indexInsert t.memberIndex (p, info.kind, info.name) id }
          (t, match t.nodes[id]? with
            | some d => .ok d
            | none => .ok decl)
        else (t, .error (.outside info owner))

/-- Adds a declaration whose kind is given by its written name.  Of an unknown kind nothing is added. -/
def addLabelled (t : DeclarationTree) (label : String) (info : DeclarationInfo) :
    DeclarationTree × Except AddError Declaration :=
  match DeclKind.ofLabel? label with
  | none => (t, .error (.unknownKind label))
  | some kind => t.add { info with kind }

def pick (t : DeclarationTree) (ids : List Nat) : List Declaration := ids.filterMap (t.nodes[·]?)

def rootDecls (t : DeclarationTree) : List Declaration := t.pick t.roots

def membersOf (t : DeclarationTree) (d : Declaration) : List Declaration := t.pick d.members

/-- The given declarations and all below them, each before its members.  The number bounds the depth. -/
def walkFrom (t : DeclarationTree) : Nat → List Nat → List Declaration
  | 0, _ => []
  | n + 1, ids => (t.pick ids).flatMap fun d => d :: t.walkFrom n d.members

def walk (t : DeclarationTree) : List Declaration := t.walkFrom t.nodes.length t.roots

def find? (t : DeclarationTree) (kind : DeclKind) (name : String) : Option Declaration :=
  (indexFind t.topIndex (kind, name)).bind (t.nodes[·]?)

def findMember? (t : DeclarationTree) (owner : Nat) (kind : DeclKind) (name : String) : Option Declaration :=
  (indexFind t.memberIndex ((owner : Int), kind, name)).bind (t.nodes[·]?)

/-- A declaration and its members, all the way down, as one value; `none` when a declaration is below itself.  The
number bounds the depth. -/
def toValue? (t : DeclarationTree) : Nat → Declaration → Option Value
  | 0, _ => none
  | n + 1, d => do
    let members ← (t.membersOf d).mapM (t.toValue? n)
    return .object [("kind", .str d.kind.label), ("name", .str d.name), ("start_line", .int d.startLine),
      ("end_line", .int d.stopLine), ("is_exported", .bool d.isExported), ("doc", .ofOption d.doc),
      ("children", .list members), ("metadata", .object d.details)]

end DeclarationTree
end SourceBench

import SourceBench.Edit.Parameters
import SourceBench.Edit.Plan
import SourceBench.Snippet.Statement
import SourceBench.Text.Margin

/-!
# New members of classes

A new member stands behind the others, indented as the first of them, or one step deeper than its class.
-/
namespace SourceBench.Members

def classIndent (bytes : Bytes) (c : Declaration) : List Char := Bytes.indentAt bytes c.startByte

def memberIndent (bytes : Bytes) (v : View) (c : Declaration) : List Char :=
  match v.outline.tree.membersOf c with
  | m :: _ => Bytes.indentAt bytes m.startByte
  | [] => classIndent bytes c ++ indentStep

/-- How much deeper than the class its members are, if that is deeper at all. -/
def stepOf (bytes : Bytes) (v : View) (c : Declaration) : List Char :=
  let outer := classIndent bytes c
  let inner := memberIndent bytes v c
  if outer.length < inner.length && outer.isPrefixOf inner then inner.drop outer.length else indentStep

/-- Where the contents of a body end, white space before its closing brace left out. -/
def contentEnd (bytes : Bytes) (openBrace closeBrace : Nat) : Nat :=
  let inside := (bytes.take closeBrace).drop (openBrace + 1)
  closeBrace - (inside.reverse.takeWhile Bytes.isSpace).length

/-- Puts lines behind the members of a class.  `gap`: an empty line comes first where the body is not empty. -/
def insertLines (bytes : Bytes) (v : View) (c : Declaration) (body : Nat × Nat) (lines : List (List Char))
    (gap : Bool) :
    Plan :=
  let inner := memberIndent bytes v c
  let openBrace := body.1
  let closeBrace := body.2 - 1
  let stop := contentEnd bytes openBrace closeBrace
  let block := Text.joinLines (lines.map fun l => if l.isEmpty then [] else inner ++ l)
  let lead : List Char := if gap && openBrace + 1 < stop then ['\n', '\n'] else ['\n']
  .one (.replace stop closeBrace (lead ++ block ++ '\n' :: classIndent bytes c))

def propertyText (op : AddProperty) : List Char :=
  (if op.isReadonly.truthy then "readonly ".toList else []) ++ op.name.toList ++ ": ".toList ++ op.type.toList
    ++ (match op.initializer with
      | .null => []
      | v => " = ".toList ++ v.plain.toList)
    ++ [';']

def addProperty (bytes : Bytes) (v : View) (op : AddProperty) : Except PlanError Plan := do
  let (c, body) ← classNamed v op.owner
  return insertLines bytes v c body [propertyText op] false

def trimBreaks (cs : List Char) : List Char :=
  ((cs.dropWhile (· == '\n')).reverse.dropWhile (· == '\n')).reverse

def bodyLines (step : List Char) (body : String) : List (List Char) :=
  match trimBreaks (Text.dedent body.toList) with
  | [] => []
  | cs => (Text.splitOn '\n' cs).map fun l => if (Text.trim l).isEmpty then [] else step ++ l

def signature (op : AddMethod) : List Char :=
  op.name.toList ++ '(' :: (Parameters.render op.parameters.toList ++ "): ".toList ++ op.returnType.toList
    ++ " \x7b".toList)

def addMethod (bytes : Bytes) (v : View) (op : AddMethod) : Except PlanError Plan := do
  let (c, body) ← classNamed v op.owner
  let lines := [signature op] ++ bodyLines (stepOf bytes v c) op.body ++ [['\x7d']]
  return insertLines bytes v c body lines (!(v.outline.tree.membersOf c).isEmpty)

end SourceBench.Members

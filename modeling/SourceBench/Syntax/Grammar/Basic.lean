import SourceBench.Syntax.Rule

/-!
# Pieces shared by the grammar

Short names for rules that all parts of the grammar use: punctuation, names, lists, strings, member modifiers.
-/
namespace SourceBench.Syntax.Grammar

open Rule

def p (text : String) : Rule := punct text ""

def inside (r : Rule) : Rule := under .bracketed r

def closableBy (r : Rule) : Rule := under .closable r

def list1 (r : Rule) : Rule := seq [r, many (seq [p ",", r])]

def gaps (r : Rule) : Rule := seq [opt r, many (seq [p ",", opt r])]

def ident : Rule := lexeme .identifier .name

def typeIdent : Rule := lexeme .typeIdentifier .name

def propertyWord : Rule := lexeme .propertyIdentifier .anyWord

def privateWord : Rule := lexeme .privatePropertyIdentifier .privateName

def thisLeaf : Rule := lexeme .thisWord (.exactly "this")

def expr : Rule := under (.level 0) (ref .expression)

def ty : Rule := under (.level 0) (ref .type)

def typeAt (n : Nat) : Rule := under (.level n) (ref .type)

def initial : Rule := seq [punct "=" "=>", role .value expr]

def quoted (mark : String) (text : Lexeme) : Rule :=
  node .string (seq [p mark, many (alt [piece .stringFragment text, piece .escapeSequence .escape]), glued mark])

def string : Rule := alt [quoted "'" .singleQuoted, quoted "\"" .doubleQuoted]

def propertyName : Rule :=
  alt [propertyWord, privateWord, ref .string, lexeme .number .number,
    node .computedPropertyName (inside (seq [p "[", expr, p "]"]))]

/-- A dotted name; `more` must follow each inner dotted part. -/
def dottedPart (more : Rule) : Rule :=
  chain true ident [⟨.memberExpression, .object, 0, [], seq [p ".", role .property propertyWord, ahead more]⟩]

def namespaceName : Rule :=
  alt [node .nestedIdentifier
        (seq [role .object (dottedPart (p ".")), p ".", role .property propertyWord]), ident]

/-! ## Member modifiers

Each modifier is one only if a member name follows; otherwise it is the name. -/

def memberHead : Rule := alt [ref .propertyName, p "*"]

def modifying (r : Rule) : Rule := seq [r, steady, ahead memberHead]

def modifier (r : Rule) : Rule := opt (modifying r)

def marked (r : Rule) : Rule := opt (seq [r, ahead memberHead])

def accessibility : Rule := node .accessibilityModifier (alt [word "public", word "private", word "protected"])

def overrideMark : Rule := node .overrideModifier (word "override")

def accessor : Rule := alt [modifying (alt [word "get", word "set"]), seq [p "*", ahead (ref .propertyName)]]

/-- The name and signature of a method.  Without a mark that only a method has, the name could be a property by itself,
so a row end may close it before the parameters. -/
def methodRest (marks : List Rule) : Rule :=
  let name := seq [role .name (ref .propertyName), opt (p "?")]
  alt [seq [seq marks, name, ref .callSignature], seq [name, steady, ref .callSignature]]

def methodHead : Rule :=
  seq [modifier accessibility, modifier (word "static"), modifier overrideMark, modifier (word "readonly"),
    methodRest [alt [seq [modifying (word "async"), opt accessor], accessor]]]

def methodDefinition : Rule := node .methodDefinition (seq [methodHead, role .body (ref .block)])

def methodSignature : Rule := node .methodSignature methodHead

end SourceBench.Syntax.Grammar

import SourceBench.Syntax.Grammar.Types

/-!
# Expressions

The part of the grammar that reads expressions, patterns and markup.  An expression is an operand extended by binary
links; an operand is a primary extended by calls, members and assignments, or a prefix operator before an operand.
-/
namespace SourceBench.Syntax.Grammar

open Rule

/-! ## Patterns -/

def targets : List Kind :=
  [.memberExpression, .subscriptExpression, .identifier, .undefinedWord, .objectPattern, .arrayPattern,
    .nonNullExpression]

def memberLink : Link Rule :=
  ⟨.memberExpression, .object, 99, [],
    seq [alt [punct "." ".", role .optionalChain (node .optionalChain (p "?."))],
      role .property (alt [privateWord, propertyWord])]⟩

def subscriptLink : Link Rule :=
  ⟨.subscriptExpression, .object, 99, [],
    seq [opt (role .optionalChain (node .optionalChain (p "?."))), p "[",
      role .index (inside (ref .expressions)), p "]"]⟩

def nonNullLink : Link Rule := ⟨.nonNullExpression, .plain, 99, [], punct "!" "="⟩

def target : Rule :=
  among targets
    (chain false (alt [thisLeaf, lexeme .superWord (.exactly "super"), ident]) [memberLink, subscriptLink, nonNullLink])

def restPattern : Rule := node .restPattern (seq [p "...", alt [ref .destructuring, target]])

def patternElement : Rule :=
  alt [restPattern,
    chain true (alt [ref .destructuring, target])
      [⟨.assignmentPattern, .left, 0, targets, seq [punct "=" "=>", role .right expr]⟩]]

def patternMember : Rule :=
  alt [restPattern,
    node .pairPattern (seq [role .key (ref .propertyName), p ":", role .value patternElement]),
    node .objectAssignmentPattern
      (seq [role .left (alt [lexeme .shorthandPropertyIdentifierPattern .name, ref .destructuring]),
        punct "=" "=>", role .right expr]),
    lexeme .shorthandPropertyIdentifierPattern .name]

def destructuring : Rule :=
  alt [node .objectPattern (inside (seq [p "\x7b", gaps patternMember, p "\x7d"])),
    node .arrayPattern (inside (seq [p "[", gaps patternElement, p "]"]))]

def binding : Rule := alt [ident, ref .destructuring]

/-! ## Primaries -/

def spread : Rule := node .spreadElement (seq [p "...", expr])

def objectMember : Rule :=
  alt [spread, methodDefinition,
    node .pair (seq [role .key (ref .propertyName), p ":", role .value expr]),
    lexeme .shorthandPropertyIdentifier .name]

def object : Rule := node .object (inside (seq [p "\x7b", gaps (ref .objectMember), p "\x7d"]))

def array : Rule := node .array (inside (seq [p "[", gaps (alt [spread, expr]), p "]"]))

def arguments : Rule := node .arguments (inside (seq [p "(", gaps (alt [spread, expr]), p ")"]))

def parenthesized : Rule :=
  node .parenthesizedExpression
    (inside (seq [p "(", ref .expressions, opt (role .type (ref .typeAscription)), p ")"]))

def template : Rule :=
  node .templateString (inside
    (seq [p "`", many (alt [piece .stringFragment .templateText, piece .escapeSequence .escape,
        node .templateSubstitution (seq [glued "$\x7b", ref .expressions, p "\x7d"])]), glued "`"]))

def regex : Rule :=
  node .regex (seq [p "/", role .pattern (piece .regexPattern .regexPattern), glued "/",
    opt (role .flags (piece .regexFlags .regexFlags))])

def functionRest : Rule := seq [under .unfinished (ref .callSignature), role .body (ref .block)]

def functionExpression : Rule :=
  alt [node .functionExpression
        (seq [opt (word "async"), word "function", opt (role .name ident), functionRest]),
    node .generatorFunction
      (seq [opt (word "async"), word "function", p "*", opt (role .name ident), functionRest])]

def classExpression : Rule :=
  node .classExpression
    (seq [many (role .decorator (ref .decorator)), word "class",
      opt (seq [notAhead (word "implements"), role .name typeIdent]),
      opt (role .typeParameters (ref .typeParameters)), opt (ref .classHeritage), role .body (ref .classBody)])

def primary : Rule :=
  alt [parenthesized,
    seq [ref .destructuring, ahead (punct "=" "=>")],
    object, array, functionExpression, classExpression, ref .maker,
    node .metaProperty (seq [word "import", p ".", word "meta"]),
    seq [node .importWord (word "import"), ahead (p "(")],
    lexeme .superWord (.exactly "super"), thisLeaf, ref .template, ref .string, lexeme .number .number, regex,
    lexeme .trueWord (.exactly "true"), lexeme .falseWord (.exactly "false"), lexeme .nullWord (.exactly "null"),
    lexeme .undefinedWord (.exactly "undefined"), privateWord, ident]

/-! ## Members, calls, assignments -/

def operandStart : Rule :=
  alt [p "(", p "[", p "\x7b", p "`", p "'", p "\"", p "<", p "+", p "-", p "~", punct "!" "=", p "/", p "@", p "#",
    lexeme .number .number,
    seq [notAhead (alt [word "as", word "satisfies", word "implements"]), lexeme .identifier .name], word "this",
      word "super", word "true", word "false", word "null",
    word "new", word "function", word "class", word "typeof", word "void", word "delete", word "await", word "yield",
    word "import"]

/-- Links that bind a primary tightest. -/
def suffixLinks : List (Link Rule) :=
  [memberLink, subscriptLink,
    ⟨.callExpression, .function, 99, [], role .arguments (ref .arguments)⟩,
    ⟨.callExpression, .function, 99, [],
      seq [p "?.", opt (role .typeArguments operandTypeArguments), role .arguments (ref .arguments)]⟩,
    ⟨.callExpression, .function, 99, [],
      seq [role .typeArguments operandTypeArguments, role .arguments (ref .arguments)]⟩,
    ⟨.callExpression, .function, 99, [], role .arguments (ref .template)⟩,
    ⟨.instantiationExpression, .plain, 99, [],
      seq [role .typeArguments operandTypeArguments, alt [closing, notAhead operandStart]]⟩,
    nonNullLink,
    ⟨.updateExpression, .argument, 99, [], role .operator (alt [p "++", p "--"])⟩,
    ⟨.assignmentExpression, .left, 99, .parenthesizedExpression :: targets,
      seq [punct "=" "=>", role .right expr]⟩,
    ⟨.augmentedAssignmentExpression, .left, 99,
      [.memberExpression, .subscriptExpression, .identifier, .parenthesizedExpression, .nonNullExpression],
      seq [role .operator (alt [p "+=", p "-=", p "**=", p "*=", p "/=", p "%=", p "^=", p "&=", p "|=",
        p ">>>=", p ">>=", p "<<=", p "&&=", p "||=", p "??="]), role .right expr]⟩]

def suffixed : Rule := chain false (ref .primary) suffixLinks

def maker : Rule :=
  alt [node .metaProperty (seq [word "new", p ".", word "target"]),
    node .newExpression
      (seq [word "new",
        role .maker (chain false (ref .primary) [memberLink, subscriptLink, nonNullLink]),
        opt (role .typeArguments operandTypeArguments), opt (role .arguments (ref .arguments))])]

/-! ## Arrow functions -/

def arrowBody : Rule :=
  role .body (alt [seq [ahead (p "\x7b"), ref .block], seq [notAhead (p "\x7b"), expr]])

def arrowSignature : Rule :=
  under .unfinished
    (seq [opt (role .typeParameters (ref .typeParameters)), role .parameters (ref .parameters),
      opt (seq [typedArrow, role .returnType (ref .returnType)])])

def arrow : Rule :=
  node .arrowFunction
    (alt [seq [role .parameter ident, p "=>", arrowBody],
      seq [word "async", role .parameter ident, p "=>", arrowBody],
      seq [opt (word "async"), arrowSignature, p "=>", arrowBody]])

/-! ## Operators -/

def unaryOperator : Rule :=
  alt [punct "!" "", punct "~" "", punct "-" "-", punct "+" "+", word "typeof", word "void", word "delete"]

def operand : Rule :=
  alt [seq [lexeme .identifier .looseWord, operandEnd, closing],
    ref .arrow,
    node .unaryExpression (seq [role .operator unaryOperator, role .argument (ref .operand)]),
    node .updateExpression (seq [role .operator (alt [p "++", p "--"]), role .argument (ref .operand)]),
    node .awaitExpression (seq [word "await", ref .operand]),
    node .yieldExpression (seq [word "yield", operandEnd, alt [seq [p "*", expr], seq [steady, expr], seq []]]),
    only .typescript (node .typeAssertion (seq [ref .typeArguments, ref .operand])),
    only .tsx (ref .markup),
    ref .suffixed]

/-- A binary operator at a level; the right operand takes links from `right` on. -/
def binary (level right : Nat) (operator : Rule) : Link Rule :=
  ⟨.binaryExpression, .left, level, [],
    seq [role .operator operator, role .right (under (.level right) (ref .expression))]⟩

def expressionLinks : List (Link Rule) :=
  [⟨.ternaryExpression, .condition, 1, [],
      seq [punct "?" "?.",
        alt [seq [role .consequence (inside expr), p ":"],
          seq [role .consequence (inside (under .plainArrow expr)), p ":"]],
        role .alternative (under (.level 1) (ref .expression))]⟩,
    ⟨.ternaryExpression, .condition, 1, [],
      seq [punct "?" "?", role .consequence (inside expr), p ":",
        role .alternative (under (.level 1) (ref .expression))]⟩,
    binary 1 2 (punct "??" "="),
    binary 3 4 (punct "||" "="),
    binary 4 5 (punct "&&" "="),
    binary 5 6 (punct "|" "|="),
    binary 6 7 (punct "^" "="),
    binary 7 8 (punct "&" "&="),
    binary 8 9 (alt [p "===", p "!==", p "==", p "!="]),
    binary 9 10 (alt [p "<=", p ">=", punct "<" "<=", punct ">" ">=", word "instanceof", word "in"]),
    ⟨.asExpression, .plain, 9, [], seq [word "as", alt [word "const", under .operandTail ty]]⟩,
    ⟨.satisfiesExpression, .plain, 9, [], seq [word "satisfies", under .operandTail ty]⟩,
    binary 10 11 (alt [punct ">>>" "=", punct ">>" ">=", punct "<<" "="]),
    binary 11 12 (alt [punct "+" "+=", punct "-" "-="]),
    binary 12 13 (alt [punct "*" "*=", punct "/" "=", punct "%" "="]),
    binary 13 13 (punct "**" "=")]

def expression : Rule := chain false (ref .operand) expressionLinks

def expressions : Rule :=
  chain false expr
    [⟨.sequenceExpression, .plain, 0, [], seq [p ",", expr, many (seq [p ",", expr])]⟩]

/-! ## Markup -/

def tagName : Rule :=
  alt [node .jsxNamespaceName (seq [lexeme .identifier .tag, p ":", lexeme .identifier .tag]),
    chain true (lexeme .identifier .tag) [⟨.memberExpression, .object, 0, [],
      seq [p ".", role .property propertyWord]⟩]]

def markupExpression : Rule :=
  node .jsxExpression (inside (seq [p "\x7b", opt (alt [spread, ref .expressions]), p "\x7d"]))

def markupString (mark : String) (quote : Char) : Rule :=
  node .string (seq [p mark, opt (piece .stringFragment (.quoteless quote)), glued mark])

def markupAttribute : Rule :=
  alt [markupExpression,
    node .jsxAttribute
      (seq [alt [node .jsxNamespaceName (seq [lexeme .identifier .tag, p ":", lexeme .identifier .tag]),
          lexeme .propertyIdentifier .tag],
        opt (seq [p "=", alt [markupString "'" '\'', markupString "\"" '"', markupExpression, ref .markup]])])]

def tagStart : Rule :=
  seq [role .name tagName, opt (role .typeArguments (ref .typeArguments)), many (role .attribute markupAttribute)]

def markup : Rule :=
  inside (alt [
    node .jsxSelfClosingElement (seq [p "<", tagStart, p "/>"]),
    node .jsxElement
      (seq [role .openTag (node .jsxOpeningElement (seq [p "<", opt tagStart, p ">"])),
        many (alt [piece .jsxText .markupText, lexeme .htmlCharacterReference .reference, markupExpression,
          ref .markup]),
        role .closeTag (node .jsxClosingElement (seq [p "</", opt (role .name tagName), p ">"]))])])

end SourceBench.Syntax.Grammar

import SourceBench.Syntax.Grammar.Expressions

/-!
# Statements and declarations

The part of the grammar that reads statements, declarations and class bodies, and the grammar as a whole.
-/
namespace SourceBench.Syntax

namespace Grammar

open Rule

/-! ## Classes -/

def decorator : Rule :=
  node .decorator (inside
    (seq [p "@", alt [parenthesized,
      chain false ident
        [memberLink, ⟨.callExpression, .function, 99, [],
          seq [opt (role .typeArguments operandTypeArguments), role .arguments (ref .arguments)]⟩]]]))

def classHeritage : Rule :=
  let extended :=
    node .extendsClause
      (seq [word "extends",
        list1 (seq [role .value (ref .suffixed), opt (role .typeArguments (ref .typeArguments))])])
  let implemented := node .implementsClause (seq [word "implements", list1 ty])
  inside (node .classHeritage (alt [seq [extended, opt implemented], implemented]))

def field : Rule :=
  node .publicFieldDefinition
    (seq [many (role .decorator (ref .decorator)),
      modifier (word "declare"), modifier accessibility, modifier (word "declare"), modifier (word "static"),
      modifier overrideMark, marked (word "abstract"), modifier (word "readonly"), marked (word "abstract"),
      marked (word "accessor"),
      role .name (ref .propertyName), opt (alt [p "?", seq [steady, p "!"]]),
      opt (role .type (ref .typeAscription)), opt initial])

def abstractMethod : Rule :=
  node .abstractMethodSignature
    (seq [modifier accessibility, word "abstract", modifier overrideMark, methodRest [accessor]])

def classMember : Rule :=
  closableBy (alt [p ";",
    node .classStaticBlock (seq [word "static", optClose, role .body (ref .block)]),
    seq [methodDefinition, opt close],
    seq [alt [abstractMethod, indexSignature, methodSignature, field], alt [close, p ","]],
    ref .decorator])

def classBody : Rule := node .classBody (seq [p "\x7b", many classMember, p "\x7d"])

def classRest : Rule :=
  seq [role .name typeIdent, opt (role .typeParameters (ref .typeParameters)), opt (ref .classHeritage),
    role .body (ref .classBody)]

def decorators : Rule := many (role .decorator (ref .decorator))

def classDeclaration : Rule := node .classDeclaration (seq [decorators, word "class", classRest, optClose])

def abstractClass : Rule :=
  node .abstractClassDeclaration (seq [decorators, word "abstract", word "class", classRest])

/-! ## Other declarations -/

def declaredSignature : Rule := closableBy (ref .callSignature)

def functionDeclaration : Rule :=
  alt [node .functionDeclaration
        (seq [opt (word "async"), word "function", role .name ident, declaredSignature, role .body (ref .block),
          optClose]),
    node .generatorFunctionDeclaration
      (seq [opt (word "async"), word "function", p "*", role .name ident, declaredSignature, role .body (ref .block),
        optClose]),
    node .functionSignature
      (seq [opt (word "async"), word "function", role .name ident, declaredSignature, close])]

def declarator : Rule :=
  node .variableDeclarator
    (alt [seq [role .name ident, steady, punct "!" "=", role .type (ref .typeAscription)],
      seq [role .name binding, opt (role .type (ref .typeAscription)), opt initial]])

def lexicalDeclaration : Rule :=
  node .lexicalDeclaration
    (closableBy (seq [role .kind (alt [word "let", word "const"]), list1 declarator, close]))

def variableDeclaration : Rule :=
  node .variableDeclaration (closableBy (seq [word "var", list1 declarator, close]))

def interfaceDeclaration : Rule :=
  node .interfaceDeclaration
    (seq [word "interface", role .name typeIdent, opt (role .typeParameters (ref .typeParameters)),
      opt (node .extendsTypeClause (seq [word "extends", list1 (role .type (alt [genericType, typeName]))])),
      role .body (node .interfaceBody typeMembers)])

def enumDeclaration : Rule :=
  let member :=
    alt [node .enumAssignment (seq [role .name (ref .propertyName), initial]), role .name (ref .propertyName)]
  node .enumDeclaration
    (seq [opt (word "const"), word "enum", role .name ident,
      role .body (node .enumBody (inside
        (seq [p "\x7b", opt (seq [list1 member, opt (p ",")]), p "\x7d"])))])

def typeAlias : Rule :=
  node .typeAliasDeclaration
    (closableBy (seq [word "type", role .name typeIdent, opt (role .typeParameters (ref .typeParameters)),
      punct "=" "=>", role .value ty, close]))

def namespaceRest : Rule := seq [role .name (alt [ref .string, namespaceName]), opt (role .body (ref .block))]

def internalModule : Rule := node .internalModule (seq [word "namespace", namespaceRest])

def moduleDeclaration : Rule := node .moduleDeclaration (seq [word "module", namespaceRest])

def importAlias : Rule :=
  node .importAlias (closableBy (seq [word "import", ident, punct "=" "=>", namespaceName, close]))

def ambientDeclaration : Rule :=
  node .ambientDeclaration
    (seq [word "declare",
      alt [seq [word "global", ref .block],
        closableBy (seq [word "module", p ".", propertyWord, p ":", ty, close]),
        ref .declaration]])

def declaration : Rule :=
  alt [functionDeclaration, classDeclaration, abstractClass, enumDeclaration, lexicalDeclaration, variableDeclaration,
    moduleDeclaration, internalModule, typeAlias, interfaceDeclaration, importAlias, ambientDeclaration]

/-! ## Imports and exports -/

def fromClause : Rule := seq [word "from", role .source (ref .string)]

def moduleName : Rule := alt [lexeme .identifier .anyWord, ref .string]

def specifier (renamed : Rule) : Rule :=
  let mark := alt [word "type", word "typeof"]
  let done := ahead (alt [p ",", p "\x7d"])
  let plain := role .name moduleName
  let moved := seq [role .name moduleName, word "as", role .newName renamed]
  alt [seq [moved, done], seq [plain, done], seq [mark, moved, done], seq [mark, plain, done]]

def nameList (item : Rule) : Rule := inside (seq [p "\x7b", opt (list1 item), opt (p ","), p "\x7d"])

def namedImports : Rule := node .namedImports (nameList (node .importSpecifier (specifier ident)))

def namespaceImport : Rule := node .namespaceImport (seq [p "*", word "as", ident])

def importClause : Rule :=
  node .importClause
    (alt [namespaceImport, namedImports, seq [ident, opt (seq [p ",", alt [namespaceImport, namedImports]])]])

def importAttribute : Rule := node .importAttribute (seq [alt [word "with", word "assert"], object])

def importStatement : Rule :=
  let what :=
    alt [seq [importClause, fromClause],
      node .importRequireClause
        (seq [ident, punct "=" "=>", word "require", p "(", role .source (ref .string), p ")"]),
      role .source (ref .string)]
  let rest := seq [what, opt (seq [steady, importAttribute]), close]
  node .importStatement
    (closableBy (alt [seq [word "import", alt [word "type", word "typeof"], rest], seq [word "import", rest]]))

def exportClause : Rule := node .exportClause (nameList (node .exportSpecifier (specifier moduleName)))

def exportStatement : Rule :=
  node .exportStatement (closableBy (alt [
    seq [word "export",
      alt [seq [p "*", fromClause],
        seq [node .namespaceExport (seq [p "*", word "as", moduleName]), fromClause],
        seq [opt (word "type"), exportClause, opt (seq [steady, fromClause])]],
      close],
    seq [word "export", word "import", word "type", ident, punct "=" "=>", namespaceName, close],
    seq [word "export", importAlias],
    seq [word "export", punct "=" "=>", expr, close],
    seq [word "export", word "as", word "namespace", ident, close],
    seq [decorators, word "export",
      alt [seq [word "default",
          alt [role .declaration (ref .declaration), seq [role .value expr, close]]],
        role .declaration (ref .declaration)]]]))

/-! ## Statements -/

def block : Rule := node .statementBlock (seq [p "\x7b", many (ref .statement), p "\x7d", optClose])

def ifStatement : Rule :=
  node .ifStatement
    (seq [word "if", role .condition parenthesized, role .consequence (ref .statement),
      opt (role .alternative (node .elseClause (seq [word "else", ref .statement])))])

def emptyStatement : Rule := node .emptyStatement (p ";")

def forInStatement : Rule :=
  let operator := role .operator (alt [word "in", word "of"])
  let header :=
    alt [seq [role .kind (alt [word "let", word "const"]), role .left binding, optClose, operator],
      seq [role .kind (word "var"), role .left binding, opt initial, closableBy steady, operator],
      seq [role .left (alt [ref .destructuring, parenthesized, target]), operator]]
  node .forInStatement
    (seq [word "for", opt (word "await"), inside (seq [p "(", header, role .right (ref .expressions), p ")"]),
      role .body (ref .statement)])

def forStatement : Rule :=
  node .forStatement
    (seq [word "for",
      inside (seq [p "(",
        alt [role .initializer (alt [lexicalDeclaration, variableDeclaration]),
          seq [role .initializer (ref .expressions), p ";"], role .initializer emptyStatement],
        alt [seq [role .condition (ref .expressions), p ";"], role .condition emptyStatement],
        opt (role .increment (ref .expressions)), p ")"]),
      role .body (ref .statement)])

def switchStatement : Rule :=
  let case :=
    node .switchCase
      (seq [word "case", role .value (inside (ref .expressions)), p ":", role .body (many (ref .statement))])
  let other := node .switchDefault (seq [word "default", p ":", role .body (many (ref .statement))])
  node .switchStatement
    (seq [word "switch", role .value parenthesized,
      role .body (node .switchBody (seq [p "\x7b", many (alt [case, other]), p "\x7d"]))])

def tryStatement : Rule :=
  let caught :=
    inside (seq [p "(", role .parameter binding, opt (role .type (ref .typeAscription)), p ")"])
  node .tryStatement
    (seq [word "try", role .body (ref .block),
      opt (role .handler (node .catchClause (seq [word "catch", opt caught, role .body (ref .block)]))),
      opt (role .finalizer (node .finallyClause (seq [word "finally", role .body (ref .block)])))])

def jump (kind : Kind) (keyword : String) : Rule :=
  node kind (closableBy
    (seq [word keyword, opt (seq [steady, role .label (lexeme .statementIdentifier .name)]), close]))

def statement : Rule :=
  alt [
    node .expressionStatement (closableBy (seq [lexeme .identifier .looseWord, operandEnd, closing, close])),
    importStatement, exportStatement,
    block, ifStatement, forInStatement, forStatement,
    node .whileStatement (seq [word "while", role .condition parenthesized, role .body (ref .statement)]),
    node .doStatement
      (seq [word "do", role .body (ref .statement), word "while", role .condition parenthesized, opt close]),
    switchStatement, tryStatement,
    node .withStatement (seq [word "with", role .object parenthesized, role .body (ref .statement)]),
    jump .breakStatement "break", jump .continueStatement "continue",
    node .debuggerStatement (seq [word "debugger", close]),
    node .returnStatement (closableBy (seq [word "return", opt (seq [steady, ref .expressions]), close])),
    node .throwStatement (closableBy (seq [word "throw", ref .expressions, close])),
    emptyStatement,
    node .labeledStatement
      (seq [role .label (lexeme .statementIdentifier .name), p ":", role .body (ref .statement)]),
    node .expressionStatement (seq [internalModule, close]),
    ref .declaration,
    node .expressionStatement (closableBy (seq [ref .expressions, close]))]

def program : Rule := seq [opt (lexeme .hashBangLine .hashBang), many (ref .statement), stop]

end Grammar

def grammar : Symbol → Rule
  | .statement => Grammar.statement
  | .declaration => Grammar.declaration
  | .block => Grammar.block
  | .decorator => Grammar.decorator
  | .expressions => Grammar.expressions
  | .expression => Grammar.expression
  | .operand => Grammar.operand
  | .suffixed => Grammar.suffixed
  | .primary => Grammar.primary
  | .maker => Grammar.maker
  | .arrow => Grammar.arrow
  | .destructuring => Grammar.destructuring
  | .string => Grammar.string
  | .template => Grammar.template
  | .objectMember => Grammar.objectMember
  | .propertyName => Grammar.propertyName
  | .callSignature => Grammar.callSignature
  | .parameters => Grammar.parameters
  | .arguments => Grammar.arguments
  | .classBody => Grammar.classBody
  | .classHeritage => Grammar.classHeritage
  | .type => Grammar.type
  | .typeArguments => Grammar.typeArguments
  | .typeParameters => Grammar.typeParameters
  | .typeAscription => Grammar.typeAscription
  | .returnType => Grammar.returnType
  | .objectType => .node .objectType Grammar.typeMembers
  | .typeQueryTarget => Grammar.typeQueryTarget
  | .markup => Grammar.markup

/-- The tree of a source, `none` when it breaks the grammar. -/
def parse (dialect : Dialect) (source : List Char) : Option Tree :=
  match Grammar.program.run grammar (200 + 100 * source.length) (.start dialect) ⟨.ofSource source, false⟩ with
  | none => none
  | some (items, s) => some (.node .plain .program ⟨.origin, s.cursor.pos⟩ items)

end SourceBench.Syntax

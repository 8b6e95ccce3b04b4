/-!
# Kinds of syntax

Every node of a TypeScript syntax tree has a `Kind`, and a child may have a `Role`: the part it plays in its parent.
Punctuation and keywords are leaves of kind `Kind.token`, told apart by their text alone.
-/
namespace SourceBench.Syntax

/-- What a node of the tree is.  `token` covers all punctuation and keywords. -/
inductive Kind where
  | token
  -- program and statements
  | program | hashBangLine | comment | error
  | exportStatement | namespaceExport | exportClause | exportSpecifier
  | importStatement | importClause | namespaceImport | namedImports | importSpecifier | importAttribute
  | importRequireClause | importAlias | importWord
  | expressionStatement | variableDeclaration | lexicalDeclaration | variableDeclarator | statementBlock
  | ifStatement | elseClause | switchStatement | switchBody | switchCase | switchDefault
  | forStatement | forInStatement | whileStatement | doStatement
  | tryStatement | catchClause | finallyClause | withStatement
  | breakStatement | continueStatement | debuggerStatement | returnStatement | throwStatement
  | emptyStatement | labeledStatement
  -- declarations
  | functionDeclaration | generatorFunctionDeclaration | functionSignature
  | classDeclaration | abstractClassDeclaration | classHeritage | extendsClause | implementsClause | classBody
  | classStaticBlock | methodDefinition | methodSignature | abstractMethodSignature | publicFieldDefinition
  | accessibilityModifier | overrideModifier | decorator
  | interfaceDeclaration | interfaceBody | extendsTypeClause
  | enumDeclaration | enumBody | enumAssignment
  | typeAliasDeclaration | ambientDeclaration | internalModule | moduleDeclaration | nestedIdentifier
  -- functions and patterns
  | formalParameters | requiredParameter | optionalParameter
  | objectPattern | pairPattern | objectAssignmentPattern | arrayPattern | assignmentPattern | restPattern
  -- expressions
  | sequenceExpression | parenthesizedExpression | assignmentExpression | augmentedAssignmentExpression
  | awaitExpression | unaryExpression | binaryExpression | ternaryExpression | updateExpression
  | newExpression | yieldExpression | arrowFunction | functionExpression | generatorFunction | classExpression
  | callExpression | arguments | memberExpression | subscriptExpression | optionalChain | metaProperty
  | nonNullExpression | asExpression | satisfiesExpression | instantiationExpression | typeAssertion
  | object | pair | spreadElement | array | computedPropertyName
  | identifier | propertyIdentifier | privatePropertyIdentifier | shorthandPropertyIdentifier
  | shorthandPropertyIdentifierPattern | statementIdentifier | typeIdentifier
  | thisWord | superWord | trueWord | falseWord | nullWord | undefinedWord
  | number | string | stringFragment | escapeSequence | templateString | templateSubstitution
  | regex | regexPattern | regexFlags
  -- types
  | typeAscription | omittingAscription | addingAscription | optingAscription
  | assertsAscription | asserts | predicateAscription | typePredicate
  | functionType | constructorType | readonlyType | inferType | conditionalType | unionType | intersectionType
  | arrayType | lookupType | tupleType | optionalType | restType | parenthesizedType | predefinedType
  | genericType | nestedTypeIdentifier | typeArguments | typeParameters | typeParameter | constraint | defaultType
  | typeQuery | indexTypeQuery | literalType | thisType | templateLiteralType | templateType
  | objectType | propertySignature | callSignature | constructSignature | indexSignature | mappedTypeClause
  -- markup
  | jsxElement | jsxOpeningElement | jsxClosingElement | jsxSelfClosingElement | jsxAttribute | jsxExpression
  | jsxText | jsxNamespaceName | htmlCharacterReference
deriving DecidableEq, Repr

/-- The part a child plays in its parent; `plain` when it has none. -/
inductive Role where
  | plain | name | newName | kind | value | type | typeParameters | typeArguments | parameters | parameter | returnType
  | body | pattern | declaration | source | operator | property | object | index | left | right | argument
  | arguments | function | maker | condition | consequence | alternative | initializer | increment | label
  | key | handler | finalizer | decorator | optionalChain | constraint | moduleName | sign | indexType | flags
  | openTag | closeTag | attribute
deriving DecidableEq, Repr

end SourceBench.Syntax

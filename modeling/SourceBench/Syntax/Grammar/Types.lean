import SourceBench.Syntax.Grammar.Basic

/-!
# Types

The part of the grammar that reads types, signatures and parameters.  Link levels: a conditional type binds loosest,
then unions, intersections, and last `[]`.
-/
namespace SourceBench.Syntax.Grammar

open Rule

/-! ## Names -/

def typeNamespace : Rule :=
  alt [node .nestedIdentifier
        (seq [role .object (dottedPart (seq [p ".", propertyWord, p "."])), p ".", role .property propertyWord,
          ahead (p ".")]), ident]

def typeName : Rule :=
  alt [node .nestedTypeIdentifier (seq [role .moduleName typeNamespace, p ".", role .name typeIdent]), typeIdent]

def genericType : Rule :=
  node .genericType (seq [role .name typeName, role .typeArguments (ref .typeArguments)])

/-! ## Types without operands on their left -/

def predefinedType : Rule :=
  node .predefinedType
    (alt [seq [word "unique", word "symbol"], word "any", word "number", word "boolean", word "string", word "symbol",
      word "void", word "unknown", word "never", word "object"])

def literalType : Rule :=
  node .literalType
    (alt [node .unaryExpression
            (seq [role .operator (alt [p "-", p "+"]), role .argument (lexeme .number .number)]),
      lexeme .number .number, ref .string, lexeme .trueWord (.exactly "true"), lexeme .falseWord (.exactly "false"),
      lexeme .nullWord (.exactly "null"), lexeme .undefinedWord (.exactly "undefined")])

def predicate : Rule :=
  node .typePredicate
    (seq [role .name (alt [ident, thisLeaf]), steady, word "is", role .type ty])

def assertion : Rule := node .asserts (seq [word "asserts", alt [predicate, ident, thisLeaf]])

def functionType : Rule :=
  node .functionType
    (seq [opt (role .typeParameters (ref .typeParameters)), role .parameters (ref .parameters), p "=>",
      role .returnType (alt [assertion, predicate, ty])])

def constructorType : Rule :=
  node .constructorType
    (seq [opt (word "abstract"), word "new", opt (role .typeParameters (ref .typeParameters)),
      role .parameters (ref .parameters), p "=>", role .type ty])

def templateType : Rule :=
  node .templateLiteralType (inside
    (seq [p "`", many (alt [piece .stringFragment .templateText, piece .escapeSequence .escape,
        node .templateType (seq [glued "$\x7b", ty, p "\x7d"])]), glued "`"]))

def typeQueryTarget : Rule :=
  chain true
    (alt [node .callExpression
        (seq [role .function (node .importWord (word "import")), role .arguments (ref .arguments)]),
      thisLeaf, ident])
    [⟨.memberExpression, .object, 0, [],
        seq [alt [p ".", role .optionalChain (node .optionalChain (p "?."))],
          role .property (alt [privateWord, propertyWord])]⟩,
      ⟨.subscriptExpression, .object, 0, [],
        seq [opt (p "?."), p "[",
          role .index (alt [predefinedType, ref .string, lexeme .number .number]), p "]"]⟩,
      ⟨.callExpression, .function, 0, [], role .arguments (ref .arguments)⟩,
      ⟨.instantiationExpression, .plain, 0, [], role .typeArguments (ref .typeArguments)⟩]

def importedType : Rule :=
  chain true
    (node .callExpression
      (seq [role .function (node .importWord (word "import")), role .arguments (ref .arguments)]))
    [⟨.memberExpression, .object, 0, [], seq [p ".", role .property propertyWord]⟩,
      ⟨.genericType, .name, 0, [], role .typeArguments (ref .typeArguments)⟩]

def tupleElement : Rule :=
  alt [node .requiredParameter
        (seq [role .name (alt [node .restPattern (seq [p "...", ident]), ident]),
          role .type (ref .typeAscription)]),
    node .optionalParameter (seq [role .name ident, p "?", role .type (ref .typeAscription)]),
    node .restType (seq [p "...", ty]),
    chain true ty [⟨.optionalType, .plain, 0, [], p "?"⟩]]

def tupleType : Rule :=
  node .tupleType (inside (seq [p "[", opt (list1 tupleElement), opt (p ","), p "]"]))

def typeBase : Rule :=
  alt [functionType, constructorType,
    node .unionType (seq [punct "|" "|", typeAt 3]),
    node .intersectionType (seq [punct "&" "&", typeAt 4]),
    node .readonlyType (seq [word "readonly", typeAt 9]),
    node .inferType (seq [word "infer", typeIdent, opt (seq [word "extends", typeAt 2])]),
    node .indexTypeQuery (seq [word "keyof", typeAt 9]),
    node .typeQuery (seq [word "typeof", ref .typeQueryTarget]),
    predefinedType, literalType, lexeme .thisType (.exactly "this"), templateType, ref .objectType, tupleType,
    node .parenthesizedType (inside (seq [p "(", ty, p ")"])),
    importedType, genericType, typeName, word "const"]

def typeLinks : List (Link Rule) :=
  [⟨.arrayType, .plain, 9, [], seq [p "[", p "]"]⟩,
    ⟨.lookupType, .plain, 9, [], seq [p "[", inside ty, p "]"]⟩,
    ⟨.intersectionType, .plain, 3, [], seq [punct "&" "&", typeAt 4]⟩,
    ⟨.unionType, .plain, 2, [], seq [punct "|" "|", typeAt 3]⟩,
    ⟨.conditionalType, .left, 1, [],
      seq [word "extends", role .right (under .unfinished (typeAt 2)), p "?",
        role .consequence (under .unfinished ty), p ":", role .alternative (typeAt 1)]⟩]

def type : Rule := chain true typeBase typeLinks

/-! ## Type lists -/

def typeArguments : Rule :=
  node .typeArguments (inside (seq [p "<", list1 ty, opt (p ","), p ">"]))

def operandTypeArguments : Rule :=
  node .typeArguments (inside (seq [punct "<" "<=", list1 ty, opt (p ","), punct ">" ">="]))

def typeParameter : Rule :=
  node .typeParameter
    (seq [opt (word "const"), role .name typeIdent,
      opt (role .constraint (node .constraint (seq [alt [word "extends", p ":"], ty]))),
      opt (role .value (node .defaultType (seq [punct "=" "=>", ty])))])

def typeParameters : Rule :=
  node .typeParameters (inside (seq [p "<", list1 typeParameter, opt (p ","), p ">"]))

/-! ## Signatures -/

def typeAscription : Rule := node .typeAscription (seq [p ":", ty])

def returnType : Rule :=
  alt [node .assertsAscription (seq [p ":", assertion]),
    node .predicateAscription (seq [p ":", predicate]), ref .typeAscription]

def callSignature : Rule :=
  seq [opt (role .typeParameters (ref .typeParameters)), role .parameters (ref .parameters),
    opt (role .returnType (ref .returnType))]

def parameterPattern : Rule :=
  alt [thisLeaf, node .restPattern (seq [p "...", alt [ref .destructuring, ident]]), ref .destructuring, ident]

def parameterModifier (r : Rule) : Rule := opt (seq [r, ahead parameterPattern])

def parameterName : Rule :=
  seq [many (role .decorator (ref .decorator)), parameterModifier accessibility, parameterModifier overrideMark,
    parameterModifier (word "readonly"), role .pattern parameterPattern]

def parameter : Rule :=
  alt [node .optionalParameter
        (seq [parameterName, p "?", opt (role .type (ref .typeAscription)), opt initial]),
    node .requiredParameter (seq [parameterName, opt (role .type (ref .typeAscription)), opt initial])]

def parameters : Rule :=
  node .formalParameters (inside (seq [p "(", opt (seq [list1 parameter, opt (p ",")]), p ")"]))

/-! ## Object types -/

def indexSignature : Rule :=
  node .indexSignature
    (seq [opt (alt [seq [role .sign (alt [p "-", p "+"]), word "readonly"], seq [word "readonly", steady]]), p "[",
      inside (alt [
        seq [role .name ident, p ":", role .indexType ty],
        node .mappedTypeClause
          (seq [role .name typeIdent, word "in", role .type ty, opt (seq [word "as", role .newName ty])])]),
      p "]",
      role .type (alt [ref .typeAscription, node .omittingAscription (seq [p "-?:", ty]),
        node .addingAscription (seq [p "+?:", ty]), node .optingAscription (seq [p "?:", ty])])])

def propertySignature : Rule :=
  node .propertySignature
    (seq [modifier accessibility, modifier (word "static"), modifier overrideMark, modifier (word "readonly"),
      role .name (ref .propertyName), opt (p "?"), opt (role .type (ref .typeAscription))])

def constructSignature : Rule :=
  node .constructSignature
    (seq [opt (word "abstract"), word "new", steady, opt (role .typeParameters (ref .typeParameters)),
      role .parameters (ref .parameters), opt (role .type (ref .typeAscription))])

def typeMember : Rule :=
  closableBy (alt [indexSignature, constructSignature, node .callSignature (ref .callSignature), methodSignature,
    propertySignature])

def memberBreak : Rule := alt [p ",", close]

def typeMembers : Rule :=
  seq [p "\x7b", opt (alt [p ",", p ";"]),
    opt (seq [typeMember, many (seq [memberBreak, typeMember]), opt memberBreak]), p "\x7d"]

end SourceBench.Syntax.Grammar

import RefSugar.Text.Hidden

/-!
Why a script cannot be read, and the wording of each reason.
-/
namespace RefSugar.Syntax

inductive Problem where
  | expressionExpected
  | identExpected
  /-- A statement is followed by something that cannot follow it. -/
  | statementEnd
  | expected (wanted got : String)
  | unexpected (got wanted : String)
  | endOfInput
  | assignmentTarget
  | emptyParens
  | spreadInParens
  | notPattern
  | notExpression
  | lineBreakAfterThrow
  | lineBreakBeforeArrow
  | arrowNotAllowed
  | unterminatedTemplate
  | unterminatedRegex
  /-- A string ends behind a backslash. -/
  | stringEscape
  | unexpectedChar (c : Char)
  /-- A line that marks the base of a conflict between two versions. -/
  | conflictMarker
  | identAfterNumber
  /-- No digit follows the mark of a base. -/
  | digitExpected (base : Nat)
  | exponentExpected
  | numericSeparator
  | unicodeEscape
  | unicodeEscapeExpected
  | characterEscape (wanted : String)
  | octalEscape
  | escapedWord (word : String)
  | powerOfUnary
  | starAfterAwait
  | awaitAsName
  | yieldInParams
  | missingInitializer
  | restNeedsName
  | secondDefault
  | awaitNotOfLoop
  | reservedImport
  | importNeedsAlias (name : String)
  | moduleItemNested
  | exportNotAllowed
  | decoratedExport
  /-- Decorators stand both in front of `export` and behind it. -/
  | decoratedTwice
  | parameterProperty
  | constructorField
  | asyncConstructor
  | optionalPattern
  | constructedChain
  | superAccess
  | superCall
  | superOptional
  | importPlace
  | importArity
  /-- `!` behind `super` or `import`. -/
  | nonNullOf (word : String)
  | spaceAfterHash
  | readonlyMethod
  | readonlyAccessor
  | setterParameter
  | requiredAfterOptional
  | attributeValue
  | closingTag (name : String)
  | tooDeep

def baseName (base : Nat) : String :=
  match base with
  | 2 => "a binary"
  | 8 => "an octal"
  | 16 => "a hexadecimal"
  | _ => "a decimal"

def Problem.message : Problem → String
  | expressionExpected => "Expression expected"
  | identExpected => "Expected ident"
  | statementEnd => "Expected ';', '\x7d' or <eof>"
  | expected wanted got => "Expected '" ++ wanted ++ "', got '" ++ got ++ "'"
  | unexpected got wanted => "Unexpected token `" ++ got ++ "`. Expected " ++ wanted
  | endOfInput => "Unexpected eof"
  | assignmentTarget => "Invalid assignment target"
  | emptyParens => "Parenthesized expression cannot be empty"
  | spreadInParens => "Parenthesized expression cannot contain spread operator"
  | notPattern => "Not a pattern"
  | notExpression => "Not an expression"
  | lineBreakAfterThrow => "LineBreak cannot follow 'throw'"
  | lineBreakBeforeArrow => "Unexpected line break between arrow head and arrow"
  | arrowNotAllowed => "An arrow function is not allowed here"
  | unterminatedTemplate => "Unterminated template"
  | unterminatedRegex => "Unterminated regexp literal"
  | stringEscape => "Invalid string escape"
  | unexpectedChar c => "Unexpected character '" ++ String.ofList (Text.shown c) ++ "'"
  | conflictMarker => "Merge conflict marker encountered."
  | identAfterNumber => "Identifier cannot follow number"
  | digitExpected base => "Expected " ++ baseName base ++ " digit"
  | exponentExpected => "Expected +, - or decimal digit after e"
  | numericSeparator => "A numeric separator is only allowed between two digits"
  | unicodeEscape => "Invalid unicode escape"
  | unicodeEscapeExpected => "Expected unicode escape"
  | characterEscape wanted => "Bad character escape sequence, expected " ++ wanted
  | octalEscape => "Legacy octal escape is not permitted in strict mode"
  | escapedWord word => "Unexpected escape sequence in reserved word: " ++ word
  | powerOfUnary => "'**' cannot be applied to unary/await expression."
  | starAfterAwait =>
    "await* has been removed from the async functions proposal. Use Promise.all() instead."
  | awaitAsName => "`await` cannot be used as an identifier in an async context"
  | yieldInParams => "'yield' cannot be used as a parameter within generator"
  | missingInitializer => "Destructuring bindings require initializers"
  | restNeedsName => "`...` must be followed by an identifier in declaration contexts"
  | secondDefault => "A switch block cannot have multiple defaults"
  | awaitNotOfLoop => "for await syntax is valid only for for-of statement"
  | reservedImport => "cannot import as reserved word"
  | importNeedsAlias name =>
    "A string literal cannot be used as an imported binding.\n- Did you mean `import \x7b \"" ++
      name ++ "\" as foo \x7d`?"
  | moduleItemNested => "'import', and 'export' cannot be used outside of module code"
  | exportNotAllowed => "`export` is not allowed here"
  | decoratedExport => "A decorator cannot be used to decorate an export declaration"
  | decoratedTwice =>
    "Decorators may not appear after 'export' or 'export default' if they also appear before " ++
      "'export'."
  | parameterProperty => "Typescript parameter property must be an identifier or assignment pattern"
  | constructorField => "Classes may not have a non-static field named 'constructor'"
  | asyncConstructor => "Constructor can't be an async function"
  | optionalPattern =>
    "A binding pattern parameter cannot be optional in an implementation signature."
  | constructedChain => "Constructor in/after an optional chaining is not allowed."
  | superAccess => "Invalid access to super"
  | superCall => "Invalid `super()`"
  | superOptional => "Super call cannot be optional"
  | importPlace => "Import is not allowed here"
  | importArity => "`import()` requires exactly one or two arguments"
  | nonNullOf word =>
    "Typescript non-null assertion operator is not allowed with '" ++ word ++ "'"
  | spaceAfterHash => "Unexpected space between # and identifier"
  | readonlyMethod => "A method cannot be readonly"
  | readonlyAccessor => "A getter or a setter cannot be readonly"
  | setterParameter => "A 'set' accessor must have exactly one parameter."
  | requiredAfterOptional => "A required element cannot follow an optional element."
  | attributeValue => "JSX value should be either an expression or a quoted JSX text"
  | closingTag name => "Expected corresponding JSX closing tag for <" ++ name ++ ">"
  | tooDeep => "Nesting is too deep"

end RefSugar.Syntax

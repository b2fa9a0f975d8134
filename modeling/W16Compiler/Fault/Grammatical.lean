/-!
# Grammatical faults

What can be wrong with the order of the tokens of a source text.
-/

namespace W16Compiler

inductive GrammarFault where
  /-- Something else than `what` stands there; `before` shows the token found. -/
  | expected (what before : String)
  | endInBody
  | nestingTooDeep
  | statementOutsideFunction
  | virtualOutsideStruct
  | asmOnLocal
  | asmOnTypedef
  | asmWithoutString (before : String)
  | handlerWithoutTry (word : String)
  | elseWithoutIf
  | tryWithoutHandler
  | conditionalWithoutColon
  | unexpectedTypeName (name : String)
  | manyStorageClasses
  | manyDataTypes
  | invalidSpecifiers
  | missingSpecifier
  | longLong
  | storageOnMember
  | impurePureSpecifier
  | storageOnParameter
  | storageInTypeName
  | nameInTypeName
  | qualifiedDeclaration
  | unnamedParameter
  deriving DecidableEq, Repr

def GrammarFault.message : GrammarFault → String
  | expected what before => s!"expected {what} before '{before}'"
  | endInBody => "unexpected end of file in body"
  | nestingTooDeep => "nesting too deep"
  | statementOutsideFunction => "statement outside of a function"
  | virtualOutsideStruct => "'virtual' outside of a struct"
  | asmOnLocal => "__asm label on a local variable"
  | asmOnTypedef => "__asm on a typedef"
  | asmWithoutString before => s!"expected string literal in __asm before '{before}'"
  | handlerWithoutTry word => s!"'{word}' without a preceding try"
  | elseWithoutIf => "'else' without a previous 'if'"
  | tryWithoutHandler => "try without catch or finally"
  | conditionalWithoutColon => "expected ':' in conditional expression"
  | unexpectedTypeName name => s!"unexpected type name '{name}'"
  | manyStorageClasses => "multiple storage classes in declaration"
  | manyDataTypes => "two or more data types in declaration"
  | invalidSpecifiers => "invalid combination of type specifiers"
  | missingSpecifier => "expected type specifier"
  | longLong => "'long long' is not supported"
  | storageOnMember => "storage class on struct member"
  | impurePureSpecifier => "expected '0' in pure specifier"
  | storageOnParameter => "invalid storage class for parameter"
  | storageInTypeName => "storage class in type name"
  | nameInTypeName => "unexpected name in type name"
  | qualifiedDeclaration => "qualified name in declaration"
  | unnamedParameter => "parameter name omitted"

end W16Compiler

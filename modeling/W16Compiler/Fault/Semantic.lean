import W16Compiler.Fault.Conversion
import W16Compiler.Fault.Layout
import W16Compiler.Location

/-!
# Semantic faults

What can be wrong with the meaning of a source text that is well formed. Types and operators are
given as diagnostics write them.
-/

namespace W16Compiler

inductive SemanticFault where
  | redefinition (name : String) (prior : Location)
  | layout (fault : LayoutFault)
  | conversion (fault : ConversionFault)
  -- Declarations
  | wrongTag (name : String)
  | duplicateBase (name : String)
  | baseNotStruct (name : String)
  | takesNoParameters (name : String)
  | pureNotVirtual (name : String)
  | virtualData
  | incompleteField (name : String)
  | undefinedEnum (name : String)
  | enumeratorRange (name : String)
  | arraySize (size : Int)
  | voidParameter
  | arrayOfFunctions
  | arrayOfVoid
  | arrayTooLarge (words : Nat)
  | badResult
  | notStruct (name : String)
  | conflictingTypes (owner name : String)
  | noMemberFunction (name owner : String)
  | voidVariable (name : String)
  | arrayConstruction (name : String)
  | incompleteVariable (name type : String)
  | externInitializer (name : String)
  | incompleteResult
  | incompleteParameter (name : String)
  | undefinedLabel (name : String)
  | gotoIntoTry (name : String)
  -- Initializers
  | notConstant
  | incompleteElement
  | excessArrayElements
  | excessStructElements
  | stringTooLong
  | dynamicConstruction (name : String)
  | memberNotConstant
  -- Statements
  | strayBreak
  | strayContinue
  | loopVariableTerm
  | switchNotInteger
  | strayCase
  | caseInTry
  | duplicateCase (value : Int)
  | manyDefaults
  | missingResult
  | unwantedResult
  | manyCatches
  | caughtType (type : String)
  | strayRethrow
  | thrownType (type : String)
  -- Expressions
  | sizeofType (type : String)
  | sizeofFunction
  | constantTooLarge
  | undefinedSymbol (name : String)
  | methodWithoutObject (name : String)
  | memberWithoutObject (name : String)
  | memberOfNonStruct (name type : String)
  | memberOfIncomplete
  | methodOnRvalue
  | noMember (name type : String)
  | noSuchMethod (name : String)
  | pureCall (name : String)
  | notFunction (type : String)
  | argumentCount (expected got : Nat)
  | unaryOperand (type : String)
  | cannotDereference (type : String)
  | dereferencesVoid
  | addressOfRvalue
  | notScalar (type : String)
  | binaryOperands (op lhs rhs : String)
  | incompletePointee (type : String)
  | offsetNotInteger
  | subtraction (lhs rhs : String)
  | comparison (lhs rhs : String)
  | assignsRvalue
  | assignsConst
  | cannotAssign (type : String)
  | compoundOperands (op lhs rhs : String)
  | cannotIncrement (type : String)
  | conditionalTypes (yes no : String)
  | castToStruct
  | notIntegerConstant
  deriving DecidableEq

namespace SemanticFault

def message : SemanticFault → String
  | redefinition name _ => s!"redefinition of '{name}'"
  | layout fault => fault.message
  | conversion fault => fault.message
  | wrongTag name => s!"'{name}' defined as wrong kind of tag"
  | duplicateBase name => s!"duplicate base '{name}'"
  | baseNotStruct name => s!"base '{name}' is not a struct"
  | takesNoParameters name => s!"'{name}' takes no parameters"
  | pureNotVirtual name => s!"pure specifier on non-virtual '{name}'"
  | virtualData => "'virtual' on a data member"
  | incompleteField name => s!"field '{name}' has incomplete type"
  | undefinedEnum name => s!"undefined enum '{name}'"
  | enumeratorRange name => s!"enumerator '{name}' out of range"
  | arraySize size => s!"invalid array size {size}"
  | voidParameter => "parameter has type void"
  | arrayOfFunctions => "array of functions"
  | arrayOfVoid => "array of void"
  | arrayTooLarge words => s!"array is too large ({words} words)"
  | badResult => "function cannot return a function or an array"
  | notStruct name => s!"'{name}' is not a struct"
  | conflictingTypes owner name => s!"conflicting types for '{owner}::{name}'"
  | noMemberFunction name owner => s!"no member function '{name}' in '{owner}'"
  | voidVariable name => s!"variable '{name}' has type void"
  | arrayConstruction name => s!"arrays of '{name}' need per-element construction; not supported"
  | incompleteVariable name type => s!"variable '{name}' has incomplete type '{type}'"
  | externInitializer name => s!"extern '{name}' has an initializer"
  | incompleteResult => "function returns an incomplete type"
  | incompleteParameter name => s!"parameter '{name}' has incomplete type"
  | undefinedLabel name => s!"label '{name}' used but not defined"
  | gotoIntoTry name => s!"goto '{name}' jumps into a try block"
  | notConstant => "initializer is not a constant"
  | incompleteElement => "array of incomplete element type"
  | excessArrayElements => "excess elements in array initializer"
  | excessStructElements => "excess elements in struct initializer"
  | stringTooLong => "initializer-string for char array is too long"
  | dynamicConstruction name =>
    s!"static '{name}' needs a constructor call; dynamic initialization is not supported"
  | memberNotConstant => "default member initializer is not a constant"
  | strayBreak => "break statement not within loop or switch"
  | strayContinue => "continue statement not within a loop"
  | loopVariableTerm => "a for-loop variable that needs terminating is not supported"
  | switchNotInteger => "switch quantity is not an integer"
  | strayCase => "case label not within a switch statement"
  | caseInTry => "case label inside a try block of its switch"
  | duplicateCase value => s!"duplicate case value {value}"
  | manyDefaults => "multiple default labels in one switch"
  | missingResult => "return with no value in a function returning non-void"
  | unwantedResult => "return with a value in a function returning void"
  | manyCatches => "only one catch clause is supported"
  | caughtType type => s!"caught type '{type}' must be a one-word scalar"
  | strayRethrow => "'throw;' outside of a catch block"
  | thrownType type => s!"thrown value of type '{type}' must be a one-word scalar"
  | sizeofType type => s!"invalid application of sizeof to '{type}'"
  | sizeofFunction => "invalid application of sizeof to a function"
  | constantTooLarge => "integer constant is too large"
  | undefinedSymbol name => s!"undefined symbol '{name}'"
  | methodWithoutObject name => s!"member function '{name}' used without an object"
  | memberWithoutObject name => s!"member '{name}' used without an object"
  | memberOfNonStruct name type => s!"request for member '{name}' in something not a struct ('{type}')"
  | memberOfIncomplete => "member access into incomplete type"
  | methodOnRvalue => "member function called on an rvalue"
  | noMember name type => s!"no member named '{name}' in '{type}'"
  | noSuchMethod name => s!"no member function '{name}'"
  | pureCall name => s!"call to pure virtual function '{name}'"
  | notFunction type => s!"called object of type '{type}' is not a function"
  | argumentCount expected got => s!"wrong number of arguments: expected {expected}, got {got}"
  | unaryOperand type => s!"invalid operand type '{type}' to unary operator"
  | cannotDereference type => s!"cannot dereference '{type}'"
  | dereferencesVoid => "dereferencing 'void*'"
  | addressOfRvalue => "cannot take the address of an rvalue"
  | notScalar type => s!"used '{type}' where a scalar is required"
  | binaryOperands op lhs rhs => s!"invalid operands to binary '{op}' ('{lhs}' and '{rhs}')"
  | incompletePointee type => s!"arithmetic on a pointer to an incomplete type '{type}'"
  | offsetNotInteger => "pointer offset must be an integer"
  | subtraction lhs rhs => s!"subtraction of incompatible pointers '{lhs}' and '{rhs}'"
  | comparison lhs rhs => s!"comparison of incompatible pointer types '{lhs}' and '{rhs}'"
  | assignsRvalue => "assignment to a non-lvalue"
  | assignsConst => "assignment to a const object"
  | cannotAssign type => s!"cannot assign to '{type}'"
  | compoundOperands op lhs rhs => s!"invalid operands to '{op}=' ('{lhs}' and '{rhs}')"
  | cannotIncrement type => s!"cannot increment '{type}'"
  | conditionalTypes yes no => s!"type mismatch in conditional expression ('{yes}' and '{no}')"
  | castToStruct => "cast to a struct type"
  | notIntegerConstant => "expected an integer constant expression"

def note : SemanticFault → Option (Location × String)
  | redefinition name prior => some (prior, s!"previous definition of '{name}'")
  | _ => none

end SemanticFault

end W16Compiler

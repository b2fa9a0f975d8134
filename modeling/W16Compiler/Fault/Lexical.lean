import W16Compiler.Text.Escape

/-!
# Lexical faults

What can be wrong with the characters of a source text.
-/

namespace W16Compiler

inductive LexicalFault where
  | unexpectedCharacter (c : Char)
  | unterminatedComment
  | unterminatedString
  | unterminatedCharacter
  | emptyHexEscape
  | wideHexEscape
  | unknownEscape (c : Char)
  | invalidInteger (text : String)
  deriving DecidableEq, Repr

def LexicalFault.message : LexicalFault → String
  | unexpectedCharacter c => s!"unexpected character '{Text.visible c}'"
  | unterminatedComment => "unterminated comment"
  | unterminatedString => "unterminated string literal"
  | unterminatedCharacter => "unterminated character constant"
  | emptyHexEscape => "\\x used with no following hex digits"
  | wideHexEscape => "hex escape sequence out of range"
  | unknownEscape c => s!"unknown escape sequence '\\{c}'"
  | invalidInteger text => s!"invalid integer constant '{text}'"

end W16Compiler

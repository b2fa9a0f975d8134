import W16Compiler.Binary64.Layout
import W16Compiler.Location
import W16Compiler.Text.Utf8

/-!
# Tokens

Reserved words, punctuators and literals, each with its spelling.
-/

namespace W16Compiler

inductive Keyword where
  | alignofAltKw | asmKw | alignofKw | autoKw | breakKw | caseKw | catchKw | charKw | constKw |
  continueKw | defaultKw | doKw | doubleKw | elseKw | enumKw | externKw | finallyKw | floatKw |
  forKw | gotoKw | ifKw | intKw | longKw | registerKw | returnKw | shortKw | signedKw | sizeofKw |
  staticKw | structKw | switchKw | throwKw | tryKw | typedefKw | unionKw | unsignedKw | virtualKw
  | voidKw | volatileKw | whileKw
  deriving DecidableEq, Repr

namespace Keyword

def all : List Keyword :=
  [.alignofAltKw, .asmKw, .alignofKw, .autoKw, .breakKw, .caseKw, .catchKw, .charKw, .constKw,
    .continueKw, .defaultKw, .doKw, .doubleKw, .elseKw, .enumKw, .externKw, .finallyKw, .floatKw,
    .forKw, .gotoKw, .ifKw, .intKw, .longKw, .registerKw, .returnKw, .shortKw, .signedKw,
    .sizeofKw, .staticKw, .structKw, .switchKw, .throwKw, .tryKw, .typedefKw, .unionKw,
    .unsignedKw, .virtualKw, .voidKw, .volatileKw, .whileKw]

def spelling : Keyword → String
  | alignofAltKw => "__alignof"
  | asmKw => "__asm"
  | alignofKw => "alignof"
  | autoKw => "auto"
  | breakKw => "break"
  | caseKw => "case"
  | catchKw => "catch"
  | charKw => "char"
  | constKw => "const"
  | continueKw => "continue"
  | defaultKw => "default"
  | doKw => "do"
  | doubleKw => "double"
  | elseKw => "else"
  | enumKw => "enum"
  | externKw => "extern"
  | finallyKw => "finally"
  | floatKw => "float"
  | forKw => "for"
  | gotoKw => "goto"
  | ifKw => "if"
  | intKw => "int"
  | longKw => "long"
  | registerKw => "register"
  | returnKw => "return"
  | shortKw => "short"
  | signedKw => "signed"
  | sizeofKw => "sizeof"
  | staticKw => "static"
  | structKw => "struct"
  | switchKw => "switch"
  | throwKw => "throw"
  | tryKw => "try"
  | typedefKw => "typedef"
  | unionKw => "union"
  | unsignedKw => "unsigned"
  | virtualKw => "virtual"
  | voidKw => "void"
  | volatileKw => "volatile"
  | whileKw => "while"

def ofSpelling? (word : String) : Option Keyword := all.find? (·.spelling == word)

end Keyword

inductive Punct where
  | leftParen | rightParen | leftBracket | rightBracket | leftBrace | rightBrace | semicolon |
  comma | dot | arrow | question | colon | colonColon | ellipsis | plus | minus | star | slash |
  percent | amp | pipe | caret | tilde | bang | assign | plusAssign | minusAssign | starAssign |
  slashAssign | percentAssign | ampAssign | pipeAssign | caretAssign | shlAssign | shrAssign |
  eqEq | notEq | less | greater | lessEq | greaterEq | shl | shr | andAnd | orOr | plusPlus |
  minusMinus
  deriving DecidableEq, Repr

namespace Punct

def all : List Punct :=
  [.leftParen, .rightParen, .leftBracket, .rightBracket, .leftBrace, .rightBrace, .semicolon,
    .comma, .dot, .arrow, .question, .colon, .colonColon, .ellipsis, .plus, .minus, .star, .slash,
    .percent, .amp, .pipe, .caret, .tilde, .bang, .assign, .plusAssign, .minusAssign, .starAssign,
    .slashAssign, .percentAssign, .ampAssign, .pipeAssign, .caretAssign, .shlAssign, .shrAssign,
    .eqEq, .notEq, .less, .greater, .lessEq, .greaterEq, .shl, .shr, .andAnd, .orOr, .plusPlus,
    .minusMinus]

def spelling : Punct → String
  | leftParen => "("
  | rightParen => ")"
  | leftBracket => "["
  | rightBracket => "]"
  | leftBrace => "\x7b"
  | rightBrace => "\x7d"
  | semicolon => ";"
  | comma => ","
  | dot => "."
  | arrow => "->"
  | question => "?"
  | colon => ":"
  | colonColon => "::"
  | ellipsis => "..."
  | plus => "+"
  | minus => "-"
  | star => "*"
  | slash => "/"
  | percent => "%"
  | amp => "&"
  | pipe => "|"
  | caret => "^"
  | tilde => "~"
  | bang => "!"
  | assign => "="
  | plusAssign => "+="
  | minusAssign => "-="
  | starAssign => "*="
  | slashAssign => "/="
  | percentAssign => "%="
  | ampAssign => "&="
  | pipeAssign => "|="
  | caretAssign => "^="
  | shlAssign => "<<="
  | shrAssign => ">>="
  | eqEq => "=="
  | notEq => "!="
  | less => "<"
  | greater => ">"
  | lessEq => "<="
  | greaterEq => ">="
  | shl => "<<"
  | shr => ">>"
  | andAnd => "&&"
  | orOr => "||"
  | plusPlus => "++"
  | minusMinus => "--"

def ofSpelling? (word : String) : Option Punct := all.find? (·.spelling == word)

end Punct

namespace Token

inductive Kind where
  | int (value : Nat) (unsigned long : Bool)
  | float (value : Binary64) (single : Bool)
  | char (value : Int)
  | str (bytes : List UInt8)
  | ident (name : String)
  | keyword (k : Keyword)
  | punct (p : Punct)
  | endOfFile
  deriving DecidableEq

/-- Floating constants in diagnostics have no exponent and no needless fraction; a half goes up. -/
def shownFloat : Binary64.Layout where
  positional := none
  point := false
  plus := false
  tie := .up
  infinity := "inf"
  nan := "NaN"

def Kind.text : Kind → String
  | int value _ _ => toString value
  | float value _ => value.text shownFloat
  | char value => s!"character constant {value}"
  | str bytes => s!"\"{Text.decodeUtf8 bytes}\""
  | ident name => name
  | keyword k => k.spelling
  | punct p => p.spelling
  | endOfFile => "end of file"

end Token

structure Token where
  kind : Token.Kind
  loc : Location
  deriving DecidableEq

namespace Token

instance : Inhabited Token := ⟨⟨.endOfFile, .builtin⟩⟩

def isPunct (t : Token) (p : Punct) : Bool := t.kind == .punct p

def isKeyword (t : Token) (k : Keyword) : Bool := t.kind == .keyword k

def isEnd (t : Token) : Bool := t.kind == .endOfFile

end Token

end W16Compiler

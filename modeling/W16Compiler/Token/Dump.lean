import W16Compiler.Text.Escape
import W16Compiler.Token.Basic

/-!
# Token dumps

Each token as one line of JSON.
-/

namespace W16Compiler

def Keyword.dumpName : Keyword → String
  | alignofAltKw => "UAlignof"
  | asmKw => "Asm"
  | alignofKw => "Alignof"
  | autoKw => "Auto"
  | breakKw => "Break"
  | caseKw => "Case"
  | catchKw => "Catch"
  | charKw => "Char"
  | constKw => "Const"
  | continueKw => "Continue"
  | defaultKw => "Default"
  | doKw => "Do"
  | doubleKw => "Double"
  | elseKw => "Else"
  | enumKw => "Enum"
  | externKw => "Extern"
  | finallyKw => "Finally"
  | floatKw => "Float"
  | forKw => "For"
  | gotoKw => "Goto"
  | ifKw => "If"
  | intKw => "Int"
  | longKw => "Long"
  | registerKw => "Register"
  | returnKw => "Return"
  | shortKw => "Short"
  | signedKw => "Signed"
  | sizeofKw => "Sizeof"
  | staticKw => "Static"
  | structKw => "Struct"
  | switchKw => "Switch"
  | throwKw => "Throw"
  | tryKw => "Try"
  | typedefKw => "Typedef"
  | unionKw => "Union"
  | unsignedKw => "Unsigned"
  | virtualKw => "Virtual"
  | voidKw => "Void"
  | volatileKw => "Volatile"
  | whileKw => "While"

def Punct.dumpName : Punct → String
  | leftParen => "LParen"
  | rightParen => "RParen"
  | leftBracket => "LBracket"
  | rightBracket => "RBracket"
  | leftBrace => "LBrace"
  | rightBrace => "RBrace"
  | semicolon => "Semi"
  | comma => "Comma"
  | dot => "Dot"
  | arrow => "Arrow"
  | question => "Question"
  | colon => "Colon"
  | colonColon => "ColonColon"
  | ellipsis => "Ellipsis"
  | plus => "Plus"
  | minus => "Minus"
  | star => "Star"
  | slash => "Slash"
  | percent => "Percent"
  | amp => "Amp"
  | pipe => "Pipe"
  | caret => "Caret"
  | tilde => "Tilde"
  | bang => "Bang"
  | assign => "Assign"
  | plusAssign => "PlusAssign"
  | minusAssign => "MinusAssign"
  | starAssign => "StarAssign"
  | slashAssign => "SlashAssign"
  | percentAssign => "PercentAssign"
  | ampAssign => "AmpAssign"
  | pipeAssign => "PipeAssign"
  | caretAssign => "CaretAssign"
  | shlAssign => "ShlAssign"
  | shrAssign => "ShrAssign"
  | eqEq => "EqEq"
  | notEq => "NotEq"
  | less => "Lt"
  | greater => "Gt"
  | lessEq => "LtEq"
  | greaterEq => "GtEq"
  | shl => "Shl"
  | shr => "Shr"
  | andAnd => "AndAnd"
  | orOr => "OrOr"
  | plusPlus => "PlusPlus"
  | minusMinus => "MinusMinus"

namespace Token

/-- Floating constants in a dump are positional from `1e-5` up to `1e16`; a half goes to the even digit. -/
def dumpedFloat : Binary64.Layout where
  positional := some (-5, 16)
  point := true
  plus := true
  tie := .toEven
  infinity := "null"
  nan := "null"

def object (fields : List (String × String)) : String :=
  "\x7b" ++ ",".intercalate (fields.map fun (key, value) ↦ Text.quoted key ++ ":" ++ value) ++ "\x7d"

def flag (b : Bool) : String := if b then "true" else "false"

def Kind.dump : Kind → String
  | int value unsigned long =>
    object [("Int", object [("value", toString value), ("unsigned", flag unsigned), ("long", flag long)])]
  | float value single =>
    object [("Float", object [("value", value.text dumpedFloat), ("single", flag single)])]
  | char value => object [("Char", toString value)]
  | str bytes => object [("Str", "[" ++ ",".intercalate (bytes.map fun b ↦ toString b.toNat) ++ "]")]
  | ident name => object [("Ident", Text.quoted name)]
  | keyword k => object [("Keyword", Text.quoted k.dumpName)]
  | punct p => object [("Punct", Text.quoted p.dumpName)]
  | endOfFile => Text.quoted "Eof"

def dump (t : Token) : String :=
  object
    [("kind", t.kind.dump),
      ("loc", object
        [("file", Text.quoted t.loc.file), ("line", toString t.loc.line), ("col", toString t.loc.col),
          ("phys_line", toString t.loc.physicalLine)])]

def dumpAll (tokens : List Token) : String := String.join (tokens.map fun t ↦ t.dump ++ "\n")

end Token

end W16Compiler

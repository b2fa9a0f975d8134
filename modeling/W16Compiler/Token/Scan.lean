import W16Compiler.Fault.Lexical
import W16Compiler.Text.Blank
import W16Compiler.Token.Basic

/-!
# Scanning

A source text is read lexeme by lexeme. Each `read` function looks at the characters from a lexeme's
start on and answers what stands there and how many characters it takes; it knows no locations. The
loop `scanFrom` follows the position in the text, applies line directives and collects tokens and
faults.
-/

namespace W16Compiler.Token

/-! ## Character classes -/

def isDigit (c : Char) : Bool := '0' ≤ c && c ≤ '9'

def isHexDigit (c : Char) : Bool := (Text.hexValue c).isSome

def isOctalDigit (c : Char) : Bool := '0' ≤ c && c ≤ '7'

def isLetter (c : Char) : Bool := ('a' ≤ c && c ≤ 'z') || ('A' ≤ c && c ≤ 'Z')

def startsName (c : Char) : Bool := isLetter c || c == '_'

def continuesName (c : Char) : Bool := startsName c || isDigit c

def isSeparator (c : Char) : Bool :=
  c == ' ' || c == '\r' || c == '\t' || c == '\n' || c == '\x0c'

/-! ## Lexemes -/

inductive Lexeme where
  /-- White space, a comment, or a faulty token that leaves nothing. -/
  | nothing
  | token (kind : Kind)
  | directive (line : Nat) (file : Option String)
  deriving DecidableEq

/-- What a `read` function found, and the number of characters it stands on. -/
structure Reading where
  lexeme : Lexeme
  taken : Nat
  faults : List LexicalFault := []

def Reading.kind (kind : Kind) (taken : Nat) : Reading := ⟨.token kind, taken, []⟩

def Reading.fault (fault : LexicalFault) (taken : Nat) : Reading := ⟨.nothing, taken, [fault]⟩

/-! ## Escapes -/

def simpleEscape (c : Char) : Option UInt8 :=
  match c with
  | 'n' => some 10
  | 't' => some 9
  | 'r' => some 13
  | 'a' => some 7
  | 'b' => some 8
  | 'f' => some 12
  | 'v' => some 11
  | '\\' => some 92
  | '\'' => some 39
  | '"' => some 34
  | '?' => some 63
  | _ => none

structure Escape where
  value : Except LexicalFault UInt8
  taken : Nat

/-- An escape, from the character after the backslash on. At the end of the text the missing
character counts as a NUL that is taken. -/
def readEscape : List Char → Escape
  | [] => ⟨.error (.unknownEscape (Char.ofNat 0)), 1⟩
  | c :: cs =>
    match simpleEscape c with
    | some b => ⟨.ok b, 1⟩
    | none =>
      if c == 'x' then
        let ds := cs.takeWhile isHexDigit
        let value := (Text.readDigits 16 ds).getD 0
        if ds.isEmpty then ⟨.error .emptyHexEscape, 1⟩
        else if value > 0xff then ⟨.error .wideHexEscape, 1 + ds.length⟩
        else ⟨.ok (.ofNat value), 1 + ds.length⟩
      else if isOctalDigit c then
        let ds := c :: (cs.take 2).takeWhile isOctalDigit
        ⟨.ok (.ofNat ((Text.readDigits 8 ds).getD 0)), ds.length⟩
      else ⟨.error (.unknownEscape c), 1⟩

/-! ## Strings and characters -/

/-- The body of a string literal: its bytes and whether the closing quote was found, the faults of
its escapes, and the characters taken. -/
structure StringBody where
  bytes : List UInt8
  closed : Bool
  taken : Nat
  faults : List LexicalFault

def StringBody.cons (bytes : List UInt8) (taken : Nat) (faults : List LexicalFault) (b : StringBody) :
    StringBody :=
  ⟨bytes ++ b.bytes, b.closed, taken + b.taken, faults ++ b.faults⟩

def readStringBody : List Char → StringBody
  | [] => ⟨[], false, 0, []⟩
  | c :: cs =>
    if c == '\n' then ⟨[], false, 0, []⟩
    else if c == '"' then ⟨[], true, 1, []⟩
    else if c == '\\' then
      let e := readEscape cs
      let rest := readStringBody (cs.drop e.taken)
      match e.value with
      | .ok b => rest.cons [b] (1 + e.taken) []
      | .error fault => rest.cons [] (1 + e.taken) [fault]
    else (readStringBody cs).cons (Text.encodeUtf8 c) 1 []
termination_by cs => cs.length
decreasing_by all_goals simp only [List.length_cons, List.length_drop]; omega

def readString (cs : List Char) : Reading :=
  let b := readStringBody cs
  if b.closed then ⟨.token (.str b.bytes), b.taken, b.faults⟩
  else ⟨.nothing, b.taken, b.faults ++ [.unterminatedString]⟩

/-- The value of an escaped byte as a signed eight bit character. -/
def signExtend8 (b : UInt8) : Int := Int.bmod b.toNat 256

def readCharacter : List Char → Reading
  | [] => .fault .unterminatedCharacter 0
  | c :: cs =>
    if c == '\n' || c == '\'' then .fault .unterminatedCharacter 0
    else
      let (value, taken, faults) : Int × Nat × List LexicalFault :=
        if c == '\\' then
          let e := readEscape cs
          match e.value with
          | .ok b => (signExtend8 b, e.taken, [])
          | .error fault => (0, e.taken, [fault])
        else (c.toNat, 0, [])
      if (cs.drop taken).head? == some '\'' then ⟨.token (.char value), taken + 2, faults⟩
      else ⟨.nothing, taken + 1, faults ++ [.unterminatedCharacter]⟩

/-! ## Numbers -/

/-- An integer suffix: whether `u` and `l` stand in it, each at most once, and its length. -/
def readSuffix (cs : List Char) : Bool × Bool × Nat :=
  let isU (c : Option Char) := c == some 'u' || c == some 'U'
  let isL (c : Option Char) := c == some 'l' || c == some 'L'
  let first := cs.head?
  let second := (cs.drop 1).head?
  if isU first then if isL second then (true, true, 2) else (true, false, 1)
  else if isL first then if isU second then (true, true, 2) else (false, true, 1)
  else (false, false, 0)

def readInteger (text digits : List Char) (radix : Nat) (rest : List Char) : Reading :=
  let (unsigned, long, extra) := readSuffix rest
  let taken := text.length + extra
  match Text.readDigits radix digits with
  | some value =>
    if digits.isEmpty || value ≥ twoTo 64 then .fault (.invalidInteger (String.ofList text)) taken
    else .kind (.int value unsigned long) taken
  | none => .fault (.invalidInteger (String.ofList text)) taken

/-- The exponent part of a floating constant: its value and its length, `none` if there is none. -/
def readExponent : List Char → Option (Int × Nat)
  | e :: cs =>
    if e == 'e' || e == 'E' then
      let sign := cs.take 1 |>.filter fun c ↦ c == '+' || c == '-'
      let ds := (cs.drop sign.length).takeWhile isDigit
      if ds.isEmpty then none
      else
        let n : Int := (Text.readDigits 10 ds).getD 0
        some (if sign == ['-'] then -n else n, 1 + sign.length + ds.length)
    else none
  | [] => none

def readNumber (cs : List Char) : Reading :=
  let second := (cs.drop 1).head?
  if cs.head? == some '0' && (second == some 'x' || second == some 'X') then
    let ds := (cs.drop 2).takeWhile isHexDigit
    readInteger (cs.take 2 ++ ds) ds 16 (cs.drop (2 + ds.length))
  else
    let whole := cs.takeWhile isDigit
    let afterWhole := cs.drop whole.length
    let point := afterWhole.take 1 |>.filter (· == '.')
    let fraction := if point.isEmpty then [] else (afterWhole.drop 1).takeWhile isDigit
    let afterFraction := afterWhole.drop (point.length + fraction.length)
    let exponent := readExponent afterFraction
    if point.isEmpty && exponent.isNone then
      if whole.head? == some '0' && whole.length > 1 then readInteger whole (whole.drop 1) 8 afterWhole
      else readInteger whole whole 10 afterWhole
    else
      let (power, length) := exponent.getD (0, 0)
      let suffix := (afterFraction.drop length).head?
      let single := suffix == some 'f' || suffix == some 'F'
      let extra := if single || suffix == some 'l' || suffix == some 'L' then 1 else 0
      let digits := (Text.readDigits 10 (whole ++ fraction)).getD 0
      .kind (.float (.ofDecimal digits (power - fraction.length)) single)
        (whole.length + point.length + fraction.length + length + extra)

/-! ## Names, punctuators, comments -/

def readName (cs : List Char) : Reading :=
  let name := cs.takeWhile continuesName
  let text := String.ofList name
  match Keyword.ofSpelling? text with
  | some k => .kind (.keyword k) name.length
  | none => .kind (.ident text) name.length

def readPunct? (cs : List Char) : Option Punct :=
  [3, 2, 1].findSome? fun n ↦ Punct.ofSpelling? (String.ofList (cs.take n))

/-- The length of a block comment from after its opening on, with the closing mark. -/
def blockComment? : List Char → Option Nat
  | [] => none
  | c :: cs =>
    if c == '*' && cs.head? == some '/' then some 2 else (blockComment? cs).map (· + 1)

def restOfLine (cs : List Char) : List Char := cs.takeWhile (· != '\n')

/-- The file name of a line directive: nothing, or blanks and a quoted name to the end. -/
def directiveFile? (cs : List Char) : Option (Option String) :=
  if cs.isEmpty then some none
  else
    match cs, Text.trimStart cs with
    | c :: _, '"' :: body =>
      let name := body.takeWhile (· != '"')
      if Text.isBlank c && body.drop name.length == ['"'] then some (some (String.ofList name)) else none
    | _, _ => none

/-- A line directive, from the character after `#` to the end of the line: the optional word `line`,
a number, and an optional file name. Any other directive is passed over. -/
def readDirective (text : List Char) : Lexeme :=
  let cs := Text.trimStart (Text.trimEnd text)
  let word := "line".toList
  let afterWord := cs.drop word.length
  let cs :=
    if word.isPrefixOf cs && (afterWord.head?.map Text.isBlank).getD false then Text.trimStart afterWord
    else cs
  let ds := cs.takeWhile isDigit
  let number := (Text.readDigits 10 ds).getD 0
  if ds.isEmpty || number ≥ twoTo 63 then .nothing
  else
    match directiveFile? (cs.drop ds.length) with
    | some file => .directive number file
    | none => .nothing

/-! ## Any lexeme -/

def readLexeme (lineStart : Bool) (c : Char) (cs : List Char) : Reading :=
  let less (r : Reading) : Reading := { r with taken := r.taken - 1 }
  if isSeparator c then ⟨.nothing, 0, []⟩
  else if c == '#' && lineStart then
    let text := restOfLine cs
    ⟨readDirective text, text.length, []⟩
  else if c == '/' && cs.head? == some '/' then ⟨.nothing, (restOfLine cs).length, []⟩
  else if c == '/' && cs.head? == some '*' then
    match blockComment? (cs.drop 1) with
    | some n => ⟨.nothing, 1 + n, []⟩
    | none => ⟨.nothing, cs.length, [.unterminatedComment]⟩
  else if c == '"' then readString cs
  else if c == '\'' then readCharacter cs
  else if isDigit c || (c == '.' && (cs.head?.map isDigit).getD false) then less (readNumber (c :: cs))
  else if startsName c then less (readName (c :: cs))
  else match readPunct? (c :: cs) with
    | some p => less (.kind (.punct p) p.spelling.length)
    | none => .fault (.unexpectedCharacter c) 0

/-! ## The whole text -/

structure Position where
  line : Nat := 1
  col : Nat := 1
  deriving DecidableEq

def Position.after (p : Position) (c : Char) : Position :=
  if c == '\n' then ⟨p.line + 1, 1⟩ else ⟨p.line, p.col + 1⟩

/-- The position after `n` of the characters; one past the end of the text counts as a column. -/
def Position.skip (p : Position) (n : Nat) (cs : List Char) : Position :=
  let q := (cs.take n).foldl Position.after p
  { q with col := q.col + (n - cs.length) }

/-- What line directives have set: the logical file, and how far logical lines are ahead. -/
structure Origin where
  file : String
  ahead : Int := 0

/-- Logical lines start at one and have thirty-two bits; the sum wraps at sixty-four. -/
def Origin.locate (o : Origin) (p : Position) : Location where
  file := o.file
  line := (max 1 (Int.bmod (p.line + o.ahead) (twoTo 64)) % twoTo 32).toNat
  col := p.col
  physicalLine := p.line

/-- What has been scanned, the latest first. -/
structure Scanned where
  tokens : List Token := []
  faults : List (Location × LexicalFault) := []

/-- Adds a token; a string literal directly after another one extends it. -/
def Scanned.push (s : Scanned) (kind : Kind) (loc : Location) : Scanned :=
  match kind, s.tokens with
  | .str more, ⟨.str bytes, first⟩ :: earlier =>
    { s with tokens := ⟨.str (bytes ++ more), first⟩ :: earlier }
  | _, _ => { s with tokens := ⟨kind, loc⟩ :: s.tokens }

def Scanned.report (s : Scanned) (loc : Location) (faults : List LexicalFault) : Scanned :=
  { s with faults := (faults.map (loc, ·)).reverse ++ s.faults }

def scanFrom (o : Origin) (p : Position) (s : Scanned) : List Char → Scanned
  | [] => { s with tokens := ⟨.endOfFile, o.locate p⟩ :: s.tokens }
  | c :: cs =>
    let r := readLexeme (p.col == 1) c cs
    let loc := o.locate p
    let s := s.report loc r.faults
    let next := (p.after c).skip r.taken cs
    let rest := cs.drop r.taken
    match r.lexeme with
    | .nothing => scanFrom o next s rest
    | .token kind => scanFrom o next (s.push kind loc) rest
    | .directive line file =>
      scanFrom ⟨file.getD o.file, line - (p.line + 1)⟩ next s rest
termination_by cs => cs.length
decreasing_by all_goals simp only [List.length_cons, List.length_drop]; omega

/-- The tokens of a text, with the end mark last, and its lexical faults in order. -/
def scan (source file : String) : List Token × List (Location × LexicalFault) :=
  let s := scanFrom ⟨file, 0⟩ {} {} source.toList
  (s.tokens.reverse, s.faults.reverse)

end W16Compiler.Token

import W16Compiler.Fault.Grammatical
import W16Compiler.Token.Basic

/-!
# Token streams

A stream hands out tokens one after another and takes any number of them back; those come out again
first, the latest before the earlier ones. After the last token the end mark comes forever.
-/

namespace W16Compiler

structure TokenStream where
  /-- Tokens given back, the latest first. -/
  pushed : List Token := []
  /-- Tokens not taken yet, without the end mark. -/
  rest : List Token
  /-- Tokens taken, the latest first, whether or not they were given back. -/
  taken : List Token := []
  endLoc : Location

namespace TokenStream

def ofTokens (tokens : List Token) : TokenStream :=
  match tokens.getLast? with
  | some last =>
    if last.isEnd then { rest := tokens.dropLast, endLoc := last.loc }
    else { rest := tokens, endLoc := last.loc }
  | none => { rest := [], endLoc := .builtin }

def endMark (s : TokenStream) : Token := ⟨.endOfFile, s.endLoc⟩

/-- How many tokens are left before the end, those given back included. -/
def remaining (s : TokenStream) : Nat := (s.pushed.filter (!·.isEnd)).length + s.rest.length

def next (s : TokenStream) : Token × TokenStream :=
  match s.pushed, s.rest with
  | t :: pushed, _ => (t, { s with pushed })
  | [], t :: rest => (t, { s with rest, taken := t :: s.taken })
  | [], [] => (s.endMark, s)

def pushBack (s : TokenStream) (t : Token) : TokenStream := { s with pushed := t :: s.pushed }

def peek (s : TokenStream) : Token := s.next.1

/-- The token `n` places ahead, zero being the next one. To see it the stream takes the tokens up to
there and gives them back. -/
def peekNth (s : TokenStream) : Nat → Token × TokenStream
  | 0 => let (t, s) := s.next; (t, s.pushBack t)
  | n + 1 => let (t, s) := s.next; let (u, s) := s.peekNth n; (u, s.pushBack t)

def atEnd (s : TokenStream) : Bool := s.peek.isEnd

/-- The number of tokens taken; giving tokens back does not change it. -/
def position (s : TokenStream) : Nat := s.taken.length

def eat (s : TokenStream) (p : Punct) : Bool × TokenStream :=
  if s.peek.isPunct p then (true, s.next.2) else (false, s)

def eatKeyword (s : TokenStream) (k : Keyword) : Bool × TokenStream :=
  if s.peek.isKeyword k then (true, s.next.2) else (false, s)

abbrev Failure := Location × GrammarFault

def expect (s : TokenStream) (p : Punct) : Except Failure Token × TokenStream :=
  let (t, after) := s.next
  if t.isPunct p then (.ok t, after)
  else (.error (t.loc, .expected s!"'{p.spelling}'" t.kind.text), after.pushBack t)

def expectIdent (s : TokenStream) : Except Failure (String × Location) × TokenStream :=
  let (t, after) := s.next
  match t.kind with
  | .ident name => (.ok (name, t.loc), after)
  | other => (.error (t.loc, .expected "identifier" other.text), after.pushBack t)

/-- Tokens held by the stream, given back end marks included. -/
def size (s : TokenStream) : Nat := s.pushed.length + s.rest.length

theorem size_next_lt (s : TokenStream) (h : ¬ s.next.1.isEnd) : s.next.2.size < s.size := by
  unfold next at h ⊢
  split
  · simp_all [size]
  · simp_all [size]
  · simp_all [Token.isEnd, endMark]

/-- Takes tokens up to the brace that closes `depth` groups; `body` holds those taken, the latest
first. -/
def takeBracedFrom (depth : Nat) (body : List Token) (s : TokenStream) :
    Except Failure (List Token) × TokenStream :=
  let t := s.next.1
  if h : t.isEnd then (.error (t.loc, .endInBody), s.next.2)
  else
    have := size_next_lt s h
    if t.isPunct .leftBrace then takeBracedFrom (depth + 1) (t :: body) s.next.2
    else if t.isPunct .rightBrace then
      if depth ≤ 1 then (.ok body.reverse, s.next.2)
      else takeBracedFrom (depth - 1) (t :: body) s.next.2
    else takeBracedFrom depth (t :: body) s.next.2
termination_by s.size

/-- The tokens of a braced group whose opening brace has been taken. The closing brace is taken too
and is not among them. -/
def takeBraced (s : TokenStream) : Except Failure (List Token) × TokenStream := takeBracedFrom 1 [] s

def braceDepth (t : Token) : Int :=
  if t.isPunct .leftBrace then 1 else if t.isPunct .rightBrace then -1 else 0

/-- How many more groups some tokens open than they close. -/
def openedBy (ts : List Token) : Int := ts.foldr (fun t depth ↦ braceDepth t + depth) 0

/-- How many groups opened since position `start` are still open. -/
def openBraces (s : TokenStream) (start : Nat) : Nat :=
  (openedBy (s.taken.take (s.position - start)) - openedBy s.pushed).toNat

def skipDeclaration (depth : Nat) (s : TokenStream) : TokenStream :=
  let t := s.next.1
  if h : t.isEnd then s.next.2
  else
    have := size_next_lt s h
    if t.isPunct .leftBrace then skipDeclaration (depth + 1) s.next.2
    else if t.isPunct .rightBrace then
      if depth ≤ 1 then (s.next.2.eat .semicolon).2 else skipDeclaration (depth - 1) s.next.2
    else if t.isPunct .semicolon && depth == 0 then s.next.2
    else skipDeclaration depth s.next.2
termination_by s.size

/-- Skips the rest of the declaration that began at position `start`: past the semicolon outside all
braces, or past the closing brace of the outermost group and a semicolon after it. -/
def resync (s : TokenStream) (start : Nat) : TokenStream := s.skipDeclaration (s.openBraces start)

end TokenStream

end W16Compiler

import W16Compiler.Token.Scan

/-!
# Tokens are read back

A text in which tokens have their canonical spelling, each with a separator behind it if anything follows, and
in which separators and comments stand between them, is scanned without faults to these tokens and the end mark.
-/

namespace W16Compiler.Token

open List

/-! ## Spellings -/

def escaped (b : UInt8) : List Char :=
  ['\\', (b.toNat / 64).digitChar, (b.toNat / 8 % 8).digitChar, (b.toNat % 8).digitChar]

def suffix (unsigned long : Bool) : List Char := (if unsigned then ['u'] else []) ++ if long then ['l'] else []

def Kind.spelled : Kind → List Char
  | .int value unsigned long => Nat.toDigits 10 value ++ suffix unsigned long
  | .char value => '\'' :: (escaped (.ofNat value.toNat) ++ ['\''])
  | .str bytes => '"' :: (bytes.flatMap escaped ++ ['"'])
  | .ident name => name.toList
  | .keyword k => k.spelling.toList
  | .punct p => p.spelling.toList
  | .float .. | .endOfFile => []

def isName : List Char → Bool
  | c :: cs => startsName c && cs.all continuesName
  | [] => false

def Kind.Spelled : Kind → Prop
  | .int value _ _ => value < twoTo 64
  | .char value => 0 ≤ value ∧ value < 128
  | .ident name => isName name.toList ∧ Keyword.ofSpelling? name = none
  | .float .. | .endOfFile => False
  | _ => True

/-- Texts that are written for tokens. No string stands next to another one, which it would extend. -/
inductive Written : List Kind → List Char → Prop
  | nil : Written [] []
  | separator {c ks text} : isSeparator c → Written ks text → Written ks (c :: text)
  | lineComment {body ks text} : '\n' ∉ body → Written ks ('\n' :: text) →
      Written ks ('/' :: '/' :: (body ++ '\n' :: text))
  | blockComment {body ks text} : ¬ ['*', '/'] <:+: body → Written ks text →
      Written ks ('/' :: '*' :: (body ++ '*' :: '/' :: text))
  | token {k : Kind} {ks text} : k.Spelled → (∀ b b', k = .str b → ks.head? ≠ some (.str b')) →
      text.head?.all isSeparator → Written ks text → Written (k :: ks) (k.spelled ++ text)

/-! ## Digits -/

theorem hexValue_digitChar : ∀ d < 16, Text.hexValue d.digitChar = some d := by decide

theorem octal_digitChar : ∀ d < 8,
    isOctalDigit d.digitChar ∧ simpleEscape d.digitChar = none ∧ (d.digitChar == 'x') = false := by decide

theorem readEscape_escaped (b : UInt8) (rest : List Char) : readEscape ((escaped b).tail ++ rest) = ⟨.ok b, 3⟩ := by
  have hlt := b.toNat_lt
  have hvalue : (b.toNat / 64 * 8 + b.toNat / 8 % 8) * 8 + b.toNat % 8 = b.toNat := by omega
  have hfirst : b.toNat / 64 < 8 := by omega
  simp (disch := omega) [escaped, readEscape, octal_digitChar, hexValue_digitChar, Text.readDigits, hfirst, hvalue,
    takeWhile_cons, Nat.mod_lt]

theorem digits_spec (n : Nat) : Text.readDigits 10 (Nat.toDigits 10 n) = some n ∧
    (∀ c ∈ Nat.toDigits 10 n, isDigit c) ∧ ((Nat.toDigits 10 n).head? = some '0' → n = 0) := by
  have hdigit : ∀ d < 10, isDigit d.digitChar ∧ (d.digitChar = '0' → d = 0) := by decide
  induction n using Nat.strongRecOn with
  | ind n ih =>
    rw [Nat.toDigits_eq_if (by decide)]
    split
    · simp (disch := omega) [Text.readDigits, hexValue_digitChar, *]
    · obtain ⟨hread, hall, hhead⟩ := ih (n / 10) (by omega)
      have hne : Nat.toDigits 10 (n / 10) ≠ [] := ne_nil_of_length_pos Nat.length_toDigits_pos
      refine ⟨?_, ?_, ?_⟩
      · rw [Text.readDigits] at hread ⊢
        rw [foldl_append, hread]
        simp (disch := omega) [hexValue_digitChar, Nat.mod_lt]
        omega
      · simp only [mem_append, mem_singleton]
        rintro c (hc | rfl)
        · exact hall c hc
        · exact (hdigit _ (Nat.mod_lt _ (by decide))).1
      · rw [head?_append, Option.or_of_isSome (isSome_head?.mpr hne)]
        intro h
        have := hhead h
        omega

/-! ## Lexemes -/

variable {c : Char} {cs rest : List Char} {lineStart : Bool}

/-- Neither comments nor literals nor directives start with a letter or digit. -/
theorem readLexeme_word (h : continuesName c) : readLexeme lineStart c cs =
    let r := if isDigit c then readNumber (c :: cs) else readName (c :: cs)
    { r with taken := r.taken - 1 } := by
  have hne (x : Char) (hx : continuesName x = false) : (c == x) = false := by
    rw [beq_eq_false_iff_ne]
    rintro rfl
    simp [hx] at h
  rw [continuesName] at h
  by_cases hdigit : isDigit c
  · simp (disch := decide) [readLexeme, isSeparator, hne, hdigit]
  · have hstarts : startsName c := by simpa [hdigit] using h
    simp (disch := decide) [readLexeme, isSeparator, hne, hdigit, hstarts]

def ends : List (Option Char) := [none, some ' ', some '\r', some '\t', some '\n', some '\x0c']

theorem mem_ends (h : rest.head?.all isSeparator) : rest.head? ∈ ends := by
  cases rest with
  | nil => simp [ends]
  | cons c rest => simpa [ends, isSeparator, or_assoc] using h

theorem takeWhile_until (hcs : ∀ c ∈ cs, P c) (hrest : rest.head?.all fun c ↦ !P c) :
    (cs ++ rest).takeWhile P = cs := by
  rw [takeWhile_append_of_pos hcs]
  cases rest <;> simp_all

def Reads (text rest : List Char) (k : Kind) : Prop :=
  ∃ c cs, text = c :: cs ∧ ∀ lineStart, readLexeme lineStart c (cs ++ rest) = ⟨.token k, cs.length, []⟩

theorem reads_name (hname : isName name.toList) (hrest : rest.head? ∈ ends) :
    Reads name.toList rest ((Keyword.ofSpelling? name).elim (.ident name) .keyword) := by
  cases hcs : name.toList with
  | nil =>
    rw [hcs] at hname
    cases hname
  | cons c cs =>
    simp only [hcs, isName, Bool.and_eq_true, all_eq_true] at hname
    have hdigit : isDigit c = false := by
      have := hname.1
      simp [isDigit, startsName, isLetter, Char.le_def, UInt32.le_iff_toNat_le, ← Char.toNat_inj] at this ⊢
      omega
    have hall : ∀ x ∈ c :: cs, continuesName x := forall_mem_cons.mpr ⟨by simp [continuesName, hname.1], hname.2⟩
    have htake : (c :: (cs ++ rest)).takeWhile continuesName = c :: cs :=
      takeWhile_until hall ((by decide : ∀ x ∈ ends, x.all fun c ↦ !continuesName c) _ hrest)
    refine ⟨c, cs, rfl, fun _ ↦ ?_⟩
    rw [readLexeme_word (hall c (by simp)), hdigit]
    simp only [readName, htake, ← hcs, String.ofList_toList]
    cases Keyword.ofSpelling? name <;> simp [Reading.kind, hcs]

theorem readNumber_digits {tail : List Char} (hcs : ∀ c ∈ cs, isDigit c) (hne : cs ≠ [])
    (hzero : cs.head? = some '0' → cs.length = 1) (htail : tail.head? ∈ some 'u' :: some 'l' :: ends) :
    readNumber (cs ++ tail) = readInteger cs cs 10 tail := by
  have hdigit := (by decide : ∀ x ∈ some 'u' :: some 'l' :: ends, x.all fun c ↦ !isDigit c) _ htail
  have hhead := (by decide : ∀ x ∈ some 'u' :: some 'l' :: ends, x ≠ some '.' ∧ x ≠ some 'e' ∧ x ≠ some 'E' ∧
    x ≠ some 'x' ∧ x ≠ some 'X') _ htail
  have hstop : (tail.take 1).filter (· == '.') = [] ∧ readExponent tail = none := by
    cases tail <;> simp_all [readExponent]
  have hhex : (cs ++ tail)[1]? ≠ some 'x' ∧ (cs ++ tail)[1]? ≠ some 'X' := by
    rcases cs with _ | ⟨d, _ | ⟨e, cs⟩⟩
    · cases hne rfl
    · cases tail <;> simp_all
    · have := hcs e (by simp)
      constructor <;> rintro ⟨⟩ <;> cases this
  simp [readNumber, takeWhile_until hcs hdigit, hstop, hhex]
  intro h _
  have := hzero h
  omega

theorem readSuffix_append (unsigned long : Bool) (hrest : rest.head? ∈ ends) :
    readSuffix (suffix unsigned long ++ rest) = (unsigned, long, (suffix unsigned long).length) := by
  have hhead : ∀ x ∈ ends, x ≠ some 'u' ∧ x ≠ some 'U' ∧ x ≠ some 'l' ∧ x ≠ some 'L' := by decide
  cases unsigned <;> cases long <;> simp [suffix, readSuffix, hhead _ hrest]

theorem readStringBody_escaped (bytes : List UInt8) : readStringBody (bytes.flatMap escaped ++ '"' :: rest) =
    ⟨bytes, true, (bytes.flatMap escaped).length + 1, []⟩ := by
  induction bytes with
  | nil => simp [readStringBody]
  | cons b bytes ih =>
    have hescape := readEscape_escaped b (bytes.flatMap escaped ++ '"' :: rest)
    simp [readStringBody, escaped] at hescape ⊢
    rw [hescape]
    simp [escaped] at ih
    simp [ih, StringBody.cons]
    omega

theorem readPunct?_spelled (p : Punct) (hrest : rest.head? ∈ ends) :
    readPunct? (p.spelling.toList ++ rest) = some p := by
  cases rest with
  | nil => cases p <;> rfl
  | cons x rest =>
    -- No spelling has a separator in it.
    have hlonger (n : Nat) (hn : p.spelling.toList.length < n) :
        Punct.ofSpelling? (.ofList ((p.spelling.toList ++ x :: rest).take n)) = none := by
      rw [Punct.ofSpelling?, find?_eq_none]
      intro q hq heq
      have hall : Punct.all.all fun q ↦ q.spelling.toList.all fun c ↦ !isSeparator c := by decide +kernel
      have hmem : x ∈ (p.spelling.toList ++ x :: rest).take n := by
        obtain ⟨k, rfl⟩ := Nat.exists_eq_add_of_lt hn
        simp [take_append, Nat.add_assoc]
      have hspelling := all_eq_true.mp (all_eq_true.mp hall q hq) x
      rw [beq_iff_eq.mp heq, String.toList_ofList] at hspelling
      have hx : isSeparator x := (by decide : ∀ x ∈ ends, x.all isSeparator) _ hrest
      simp [hx] at hspelling
      exact hspelling hmem
    have hexact : Punct.ofSpelling? (.ofList ((p.spelling.toList ++ x :: rest).take p.spelling.toList.length)) =
      some p := by
      rw [take_left, String.ofList_toList]
      cases p <;> rfl
    have hlength : p.spelling.toList.length = 1 ∨ p.spelling.toList.length = 2 ∨ p.spelling.toList.length = 3 := by
      cases p <;> decide
    rcases hlength with h | h | h <;> rw [h] at hlonger hexact <;> simp [readPunct?, findSome?, hlonger, hexact]

def opensPunct (next : Option Char) (c : Char) : Bool :=
  !(isSeparator c || continuesName c || c == '#' || c == '"' || c == '\'') &&
    !(c == '/' && (next == some '/' || next == some '*')) && !(c == '.' && (next.map isDigit).getD false)

theorem reads_punct (p : Punct) (hrest : rest.head? ∈ ends) : Reads p.spelling.toList rest (.punct p) := by
  have hread := readPunct?_spelled p hrest
  have hopens : ∀ x ∈ ends, p.spelling.toList.head?.map (opensPunct (p.spelling.toList.tail.head?.or x)) =
    some true := by
    cases p <;> decide
  have hopen := hopens _ hrest
  have hlength := String.length_toList (s := p.spelling)
  clear hopens
  cases hcs : p.spelling.toList with
  | nil => simp [hcs] at hopen
  | cons c cs =>
    refine ⟨c, cs, rfl, fun _ ↦ ?_⟩
    simp [hcs, opensPunct, continuesName] at hopen hread hlength
    simp [readLexeme, hopen, hread, Reading.kind, ← hlength]
    grind

theorem reads_spelled {k : Kind} (hk : k.Spelled) (hrest : rest.head? ∈ ends) : Reads k.spelled rest k := by
  match k, hk with
  | .int value unsigned long, hk =>
    obtain ⟨hread, hall, hhead⟩ := digits_spec value
    have hsuffix := readSuffix_append unsigned long hrest
    have htail : (suffix unsigned long ++ rest).head? ∈ some 'u' :: some 'l' :: ends := by
      cases unsigned <;> cases long <;> simp [suffix, hrest]
    have hne : Nat.toDigits 10 value ≠ [] := List.ne_nil_of_length_pos Nat.length_toDigits_pos
    have hnumber := readNumber_digits hall hne (fun h ↦ by rw [hhead h]; rfl) htail
    have hlt : ¬ twoTo 64 ≤ value := Nat.not_le.mpr hk
    cases hcs : Nat.toDigits 10 value with
    | nil => exact (hne hcs).elim
    | cons c cs =>
      have hdigit : isDigit c := hall c (by simp [hcs])
      refine ⟨c, cs ++ suffix unsigned long, by simp [Kind.spelled, hcs, suffix], fun _ ↦ ?_⟩
      simp only [hcs, List.cons_append] at hnumber hread
      simp [readLexeme_word, continuesName, hdigit, hnumber, readInteger, hsuffix, hread, hlt, Reading.kind]
  | .char value, hk =>
    have hescape := readEscape_escaped (.ofNat value.toNat) ('\'' :: rest)
    have hvalue : signExtend8 (.ofNat value.toNat) = value := by
      obtain ⟨n, rfl⟩ := Int.eq_ofNat_of_zero_le hk.1
      exact (by decide +kernel : ∀ n < 128, signExtend8 (.ofNat n) = n) n (Int.ofNat_lt.mp hk.2)
    refine ⟨_, _, rfl, fun _ ↦ ?_⟩
    simp [escaped] at hescape
    simp [readLexeme, isSeparator, readCharacter, escaped, hescape, hvalue]
  | .str bytes, _ =>
    refine ⟨_, _, rfl, fun _ ↦ ?_⟩
    simp [readLexeme, isSeparator, readString, readStringBody_escaped]
  | .ident name, hk =>
    have hread := reads_name hk.1 hrest
    rwa [hk.2] at hread
  | .keyword k, _ =>
    have hname : isName k.spelling.toList := by cases k <;> rfl
    have hread := reads_name hname hrest
    rwa [show Keyword.ofSpelling? k.spelling = some k by cases k <;> rfl] at hread
  | .punct p, _ => exact reads_punct p hrest

/-! ## Texts -/

theorem blockComment?_append (h : ¬ ['*', '/'] <:+: body) :
    blockComment? (body ++ '*' :: '/' :: rest) = some (body.length + 2) := by
  induction body with
  | nil => simp [blockComment?]
  | cons c body ih =>
    have hbody := ih fun hin ↦ h (hin.trans (List.suffix_cons c body).isInfix)
    have hmark : c = '*' → ¬ body.head?.getD '*' = '/' := by
      rintro rfl hhead
      cases body with
      | nil => cases hhead
      | cons d body =>
        obtain rfl : d = '/' := hhead
        exact h ⟨[], body, rfl⟩
    simpa [blockComment?, hbody] using hmark

variable {o : Origin} {p : Position} {s : Scanned} {k : Kind} {ks : List Kind} {text : List Char}

theorem scanFrom_nothing (h : readLexeme (p.col == 1) c (cs ++ rest) = ⟨.nothing, cs.length, []⟩) :
    scanFrom o p s (c :: (cs ++ rest)) = scanFrom o ((p.after c).skip cs.length (cs ++ rest)) s rest := by
  rw [scanFrom, h]
  simp [Scanned.report]

theorem push_tokens (loc : Location) (h : ∀ b b', k = .str b → s.tokens.head?.map (·.kind) ≠ some (.str b')) :
    s.push k loc = { s with tokens := ⟨k, loc⟩ :: s.tokens } := by
  rw [Scanned.push.eq_def]
  split <;> simp_all

theorem scanFrom_written (h : Written ks text)
    (hs : ∀ b b', ks.head? = some (.str b) → s.tokens.head?.map (·.kind) ≠ some (.str b')) :
    (scanFrom o p s text).faults = s.faults ∧
      (scanFrom o p s text).tokens.map (·.kind) = .endOfFile :: (ks.reverse ++ s.tokens.map (·.kind)) := by
  induction h generalizing p s with
  | nil => simp [scanFrom]
  | @separator c _ text hc _ ih =>
    have hread : readLexeme (p.col == 1) c ([] ++ text) = ⟨.nothing, 0, []⟩ := by simp [readLexeme, hc]
    exact scanFrom_nothing hread ▸ ih hs
  | @lineComment body _ text hbody _ ih =>
    have hread : readLexeme (p.col == 1) '/' (('/' :: body) ++ '\n' :: text) = ⟨.nothing, body.length + 1, []⟩ := by
      have hinside : ∀ c ∈ body, c != '\n' := by simpa using fun c hc ↦ ne_of_mem_of_not_mem hc hbody
      have hline : (body ++ '\n' :: text).takeWhile (· != '\n') = body := takeWhile_until hinside (by simp)
      simp [readLexeme, isSeparator, restOfLine, hline]
    exact scanFrom_nothing hread ▸ ih hs
  | @blockComment body _ text hbody _ ih =>
    have hread : readLexeme (p.col == 1) '/' (('*' :: (body ++ ['*', '/'])) ++ text) =
        ⟨.nothing, ('*' :: (body ++ ['*', '/'])).length, []⟩ := by
      simp [readLexeme, isSeparator, blockComment?_append hbody]
      omega
    have hscan := scanFrom_nothing (o := o) (s := s) hread
    simp only [List.cons_append, List.append_assoc, List.nil_append] at hscan
    exact hscan ▸ ih hs
  | @token k _ text hk hnext htext _ ih =>
    obtain ⟨c, cs, hcs, hread⟩ := reads_spelled hk (mem_ends htext)
    have hpush := push_tokens (o.locate p) fun b b' hb ↦ hs b b' (congrArg some hb)
    rw [hcs, List.cons_append, scanFrom, hread]
    simp only [Scanned.report, List.map_nil, List.reverse_nil, List.nil_append, hpush, List.drop_left]
    have hrest := ih (p := (p.after c).skip cs.length (cs ++ text))
      (s := { s with tokens := ⟨k, o.locate p⟩ :: s.tokens })
      fun b b' hb h ↦ hnext _ _ (Option.some.inj h) hb
    simpa using hrest

/-- A text that is written for tokens is scanned to them, without faults. -/
theorem scan_written (h : Written ks text) (file : String) :
    (scan (.ofList text) file).2 = [] ∧ (scan (.ofList text) file).1.map (·.kind) = ks ++ [.endOfFile] := by
  obtain ⟨hfaults, htokens⟩ := scanFrom_written (o := ⟨file, 0⟩) (p := {}) (s := {}) h (by simp)
  simp [scan, hfaults, List.map_reverse, htokens]

/-- Comments and escapes do not hide tokens. -/
theorem scan_written_comments : (scan (.ofList "x /*'*/'\\047' //\"\n7u".toList) "").1.map (·.kind) =
    [.ident "x", .char 39, .int 7 true false, .endOfFile] := by
  have hint : Written [.int 7 true false] "\n7u".toList :=
    .separator rfl (.token (by decide : 7 < twoTo 64) (by simp) (by simp) .nil)
  have hline : Written [.int 7 true false] ('/' :: '/' :: (['"'] ++ "\n7u".toList)) := .lineComment (by decide) hint
  have hchar : Written [.char 39, .int 7 true false] ("'\\047' //\"\n7u".toList) :=
    .token ⟨by decide, by decide⟩ (by simp) (by decide) (.separator rfl hline)
  have hblock : Written [.char 39, .int 7 true false] ('/' :: '*' :: (['\''] ++ '*' :: '/' :: _)) :=
    .blockComment (by decide) hchar
  exact (scan_written (.token (k := .ident "x") ⟨rfl, rfl⟩ (by simp) (by decide) (.separator rfl hblock)) "").2

end W16Compiler.Token

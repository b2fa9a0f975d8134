import W16Compiler.Token.Scan
import Mathlib.Tactic.Lemma
import Mathlib.Data.List.Induction
import Mathlib.Data.List.TakeWhile

/-!
# Where tokens stand

The physical line and column of a token are those of its first character, whatever comments, strings and faults
come before. Its file and logical line are those that the directives before it give.
-/

namespace W16Compiler.Token

open List

/-! ## Places in a text -/

/-- The physical line behind some text. -/
def lineOf (before : List Char) : Nat := 1 + before.count '\n'

/-- The column behind some text. -/
def columnOf (before : List Char) : Nat := 1 + (before.reverse.takeWhile (· != '\n')).length

/-- The text up to some place has been read as lexemes, each of which stands behind one of the given texts, the latest first. -/
inductive Lexed (text : List Char) : List Char → List (List Char) → Prop where
  | start : Lexed text [] []
  | read (h : Lexed text before places) (htext : text = before ++ c :: rest) :
    Lexed text (before ++ c :: rest.take (readLexeme (columnOf before == 1) c rest).taken) (before :: places)

/-! ## Line directives -/

def Blanks (cs : List Char) : Prop := ∀ c ∈ cs, Text.isBlank c

/-- The word that may stand before the number of a directive. -/
inductive LineWord : List Char → Prop where
  | absent : LineWord []
  | written (hgap : Blanks gap) (hne : gap ≠ []) : LineWord ("line".toList ++ gap)

/-- The file name that may stand behind the number of a directive. -/
inductive FileName : List Char → Option String → Prop where
  | absent : FileName [] none
  | quoted (hgap : Blanks gap) (hne : gap ≠ []) (hname : '"' ∉ name) :
    FileName (gap ++ '"' :: (name ++ ['"'])) (some (.ofList name))

/-- A well-formed line directive behind its mark: a number of at most sixty-three bits, perhaps the word before it and a file name
behind it, and blanks around them. -/
inductive IsDirective : List Char → Nat → Option String → Prop where
  | mk (hlead : Blanks lead) (hword : LineWord word) (hne : ds ≠ []) (hds : ∀ c ∈ ds, isDigit c)
    (hn : Text.readDigits 10 ds = some n) (hlt : n < twoTo 63) (hfile : FileName file name) (htrail : Blanks trail) :
    IsDirective (lead ++ (word ++ (ds ++ file)) ++ trail) n name

/-- A line that begins behind `before` is a line directive. -/
def Directs (text before : List Char) (n : Nat) (name : Option String) : Prop :=
  columnOf before = 1 ∧ ∃ rest, text = before ++ '#' :: rest ∧ IsDirective (restOfLine rest) n name

/-- How far logical lines are ahead behind some lexemes, and the logical file. The last directive gives its number to the line
behind it; the file is that of the last directive that names one. -/
inductive Origins (text : List Char) (file : String) : List (List Char) → Int → String → Prop where
  | start : Origins text file [] 0 file
  | directive (h : Origins text file places ahead earlier) (hdirects : Directs text before n name) :
    Origins text file (before :: places) (n - (lineOf before + 1)) (name.getD earlier)
  | other (h : Origins text file places ahead earlier) (hother : ∀ n name, ¬Directs text before n name) :
    Origins text file (before :: places) ahead earlier

/-! ## Tokens in a text -/

/-- The lexeme behind `before` is a token. -/
def Stands (text before : List Char) (kind : Kind) : Prop :=
  ∃ c rest, text = before ++ c :: rest ∧ (readLexeme (columnOf before == 1) c rest).lexeme = .token kind

/-- The location of what stands behind `before`. -/
structure Located (text : List Char) (file : String) (before : List Char) (places : List (List Char)) (loc : Location) :
    Prop where
  physical : loc.physicalLine = lineOf before
  col : loc.col = columnOf before
  logical : ∃ ahead, Origins text file places ahead loc.file ∧
    (1 ≤ lineOf before + ahead → lineOf before + ahead < twoTo 32 → loc.line = lineOf before + ahead)

/-- The tokens of some lexemes, both with the latest first: each lexeme that is a token gives it with its location, other lexemes
give none, and a string behind a string extends it. -/
inductive Yields (text : List Char) (file : String) : List (List Char) → List Token → Prop where
  | start : Yields text file [] []
  | nothing (h : Yields text file places tokens) (hnone : ∀ kind, ¬Stands text before kind) :
    Yields text file (before :: places) tokens
  | token {kind : Kind} {loc : Location} (h : Yields text file places tokens) (hstands : Stands text before kind)
    (hloc : Located text file before places loc)
    (hfirst : ∀ bytes more first earlier, kind = .str more → tokens ≠ ⟨.str bytes, first⟩ :: earlier) :
    Yields text file (before :: places) (⟨kind, loc⟩ :: tokens)
  | string {loc : Location} (h : Yields text file places (⟨.str bytes, loc⟩ :: tokens)) (hstands : Stands text before (.str more)) :
    Yields text file (before :: places) (⟨.str (bytes ++ more), loc⟩ :: tokens)

def Position.Before (p q : Position) : Prop := p.line < q.line ∨ p.line = q.line ∧ p.col < q.col

/-- The physical place of a token. -/
def position (token : Token) : Position := ⟨token.loc.physicalLine, token.loc.col⟩

variable {p q r : Position} {c : Char} {cs ds file : List Char} {n : Nat} {name : Option String}

lemma Position.Before.trans (h : p.Before q) (h' : q.Before r) : p.Before r := by
  unfold Before at *
  omega

lemma before_after (p : Position) (c : Char) : p.Before (p.after c) := by
  unfold Position.after Position.Before
  split
  · exact .inl (Nat.lt_succ_self _)
  · exact .inr ⟨rfl, Nat.lt_succ_self _⟩

lemma before_skip (p : Position) (c : Char) (n : Nat) (cs : List Char) : p.Before ((p.after c).skip n cs) := by
  have hfold : ∀ (cs : List Char) (q : Position), p.Before q → p.Before (cs.foldl Position.after q) := by
    intro cs
    induction cs with
    | nil => exact fun _ h ↦ h
    | cons d cs ih => exact fun q h ↦ ih _ (h.trans (before_after q d))
  rcases hfold (cs.take n) _ (before_after p c) with h | ⟨h, hcol⟩
  · exact .inl h
  · exact .inr ⟨h, Nat.lt_add_right _ hcol⟩

lemma foldl_after (before : List Char) : before.foldl Position.after {} = ⟨lineOf before, columnOf before⟩ := by
  induction before using reverseRecOn with
  | nil => rfl
  | append_singleton before c ih =>
    rw [foldl_append, ih, foldl_cons, foldl_nil, Position.after]
    by_cases hc : c = '\n'
    · simp [hc, lineOf, columnOf, Nat.add_assoc]
    · simp [hc, lineOf, columnOf, Nat.add_comm]

/-! ## Reading a directive -/

lemma head_not_blank (hne : ds ≠ []) (hds : ∀ c ∈ ds, isDigit c) (c : Char)
    (hc : (ds ++ file).head? = some c) : Text.isBlank c = false ∧ c ≠ 'l' := by
  obtain ⟨d, ds, rfl⟩ := exists_cons_of_ne_nil hne
  obtain rfl : d = c := Option.some.inj hc
  have hdigit := hds d mem_cons_self
  simp only [isDigit, Bool.and_eq_true, decide_eq_true_eq, Char.le_def, UInt32.le_iff_toNat_le] at hdigit
  have hlo : 48 ≤ d.toNat := hdigit.1
  have hhi : d.toNat ≤ 57 := hdigit.2
  refine ⟨?_, fun heq ↦ by simp [heq] at hhi⟩
  simp [Text.isBlank]
  omega

lemma Blanks.not_digit {cs : List Char} (h : Blanks cs) (hne : cs ≠ []) (rest : List Char) (c : Char)
    (hc : (cs ++ rest).head? = some c) : isDigit c = false := by
  by_contra hdigit
  obtain ⟨d, ds, rfl⟩ := exists_cons_of_ne_nil hne
  obtain rfl : d = c := Option.some.inj hc
  have hblank := (@head_not_blank [d] [] (by simp) (by simpa using hdigit) d rfl).1
  simp [h d mem_cons_self] at hblank

/-- What passes and comes before what does not is taken whole. -/
lemma takeWhile_append_eq {test : Char → Bool} {xs ys : List Char} (hxs : ∀ c ∈ xs, test c)
    (hys : ∀ c, ys.head? = some c → test c = false) : (xs ++ ys).takeWhile test = xs ∧ (xs ++ ys).dropWhile test = ys := by
  rw [takeWhile_append_of_pos hxs, dropWhile_append_of_pos hxs]
  cases ys with
  | nil => simp
  | cons c ys => simp [hys c rfl]

lemma exists_trimStart (cs : List Char) : ∃ lead, Blanks lead ∧ cs = lead ++ Text.trimStart cs :=
  ⟨cs.takeWhile Text.isBlank, fun _ h ↦ mem_takeWhile_imp h, takeWhile_append_dropWhile.symm⟩

lemma exists_trimEnd (cs : List Char) : ∃ trail, Blanks trail ∧ cs = Text.trimEnd cs ++ trail := by
  obtain ⟨lead, hlead, hcs⟩ := exists_trimStart cs.reverse
  refine ⟨lead.reverse, fun c hc ↦ hlead c (mem_reverse.mp hc), ?_⟩
  rw [Text.trimEnd, ← reverse_append]
  exact reverse_eq_iff.mp hcs

/-- The text of a directive behind the word `line`. -/
def behindWord (cs : List Char) : List Char :=
  if "line".toList.isPrefixOf cs && ((cs.drop 4).head?.map Text.isBlank).getD false then Text.trimStart (cs.drop 4) else cs

lemma exists_lineWord (cs : List Char) : ∃ word, LineWord word ∧ cs = word ++ behindWord cs := by
  unfold behindWord
  split
  · rename_i h
    obtain ⟨hword, hblank⟩ := Bool.and_eq_true_iff.mp h
    obtain ⟨rest, rfl⟩ := isPrefixOf_iff_prefix.mp hword
    obtain ⟨gap, hgap, hrest⟩ := exists_trimStart rest
    refine ⟨"line".toList ++ gap, .written hgap ?_, ?_⟩
    · rintro rfl
      cases rest with
      | nil => simp at hblank
      | cons c rest =>
        have hc : Text.isBlank c := by simpa using hblank
        have hlength := congrArg List.length hrest
        have hle := (dropWhile_sublist Text.isBlank (l := rest)).length_le
        simp [Text.trimStart, hc] at hlength
        omega
    · rw [append_assoc]
      exact congrArg _ hrest
  · exact ⟨[], .absent, rfl⟩

lemma behindWord_append (hword : LineWord word) (hne : ds ≠ []) (hds : ∀ c ∈ ds, isDigit c) :
    behindWord (word ++ (ds ++ file)) = ds ++ file := by
  have hhead := @head_not_blank ds file hne hds
  cases hword with
  | absent =>
    obtain ⟨d, ds, rfl⟩ := exists_cons_of_ne_nil hne
    have hd : ('l' == d) = false := beq_eq_false_iff_ne.mpr fun heq ↦ (hhead d rfl).2 heq.symm
    simp [behindWord, isPrefixOf, hd]
  | @written gap hgap hgapne =>
    obtain ⟨c, gap, rfl⟩ := exists_cons_of_ne_nil hgapne
    have hc := hgap c mem_cons_self
    have htrim := (takeWhile_append_eq hgap fun c h ↦ (hhead c h).1).2
    simpa [behindWord, isPrefixOf, hc, Text.trimStart] using htrim

lemma fileName_of_directiveFile? (h : directiveFile? cs = some name) : FileName cs name := by
  unfold directiveFile? at h
  split at h
  · rename_i hcs
    rw [List.isEmpty_iff.mp hcs, ← Option.some.inj h]
    exact .absent
  split at h
  · rename_i c rest body _ hbody
    dsimp only at h
    split at h
    · rename_i hclosed
      obtain ⟨hblank, hquote⟩ := Bool.and_eq_true_iff.mp hclosed
      obtain ⟨gap, hgap, hcs⟩ := exists_trimStart (c :: rest)
      have hsplit := (prefix_iff_eq_append.mp ( takeWhile_prefix (l := body) (· != '"'))).symm
      rw [eq_of_beq hquote] at hsplit
      have hname : '"' ∉ body.takeWhile (· != '"') := fun hmem ↦ absurd (mem_takeWhile_imp hmem) (by decide)
      generalize body.takeWhile (· != '"') = quoted at h hsplit hname
      subst hsplit
      rw [← Option.some.inj h, hcs, hbody]
      refine .quoted hgap ?_ hname
      rintro rfl
      rw [nil_append, hbody] at hcs
      cases hcs
      exact absurd hblank (by decide)
    · simp at h
  · simp at h

lemma FileName.read (h : FileName cs name) : directiveFile? cs = some name := by
  cases h with
  | absent => rfl
  | @quoted gap body hgap hne hname =>
    have hquote : Text.isBlank '"' = false := by decide
    have htrim : Text.trimStart (gap ++ '"' :: (body ++ ['"'])) = '"' :: (body ++ ['"']) := by
      refine (takeWhile_append_eq hgap fun d hd ↦ ?_).2
      rwa [← Option.some.inj hd]
    have hbody : (body ++ ['"']).takeWhile (· != '"') = body := by
      refine (takeWhile_append_eq (fun d hd ↦ bne_iff_ne.mpr (ne_of_mem_of_not_mem hd hname)) fun d hd ↦ ?_).1
      rw [← Option.some.inj hd, bne_self_eq_false]
    obtain ⟨c, gap, rfl⟩ := exists_cons_of_ne_nil hne
    have hdrop : (body ++ ['"']).drop body.length = ['"'] := drop_left
    rw [cons_append] at htrim ⊢
    unfold directiveFile?
    split
    · rename_i hempty
      exact absurd hempty (by simp)
    split
    · rename_i c' rest body' hcs hquoted
      rw [htrim] at hquoted
      injection hquoted with _ hsame
      injection hcs with hc
      simp only [← hsame, ← hc, hbody, hdrop, hgap c mem_cons_self, beq_self_eq_true, Bool.and_self, if_true]
    · rename_i hno
      exact (hno _ _ _ rfl htrim).elim

lemma exists_readDigits (hds : ∀ c ∈ ds, isDigit c) : ∃ n, Text.readDigits 10 ds = some n := by
  induction ds using reverseRecOn with
  | nil => exact ⟨0, rfl⟩
  | append_singleton ds d ih =>
    obtain ⟨n, hn⟩ := ih fun c hc ↦ hds c (mem_append_left _ hc)
    have hd : isDigit d := hds d (by simp)
    have hvalue : Text.hexValue d = some (d.toNat - '0'.toNat) := if_pos hd
    simp only [isDigit, Bool.and_eq_true, decide_eq_true_eq, Char.le_def, UInt32.le_iff_toNat_le] at hd
    have hhi : d.toNat ≤ 57 := hd.2
    have hlt : d.toNat - 48 < 10 := by omega
    unfold Text.readDigits at hn ⊢
    rw [foldl_append, hn]
    exact ⟨n * 10 + (d.toNat - 48), by simp [hvalue, hlt]⟩

/-- A directive is read behind its blanks and its word. -/
lemma readDirective_eq (text : List Char) : readDirective text =
    let cs := behindWord (Text.trimStart (Text.trimEnd text))
    let ds := cs.takeWhile isDigit
    if ds.isEmpty || (Text.readDigits 10 ds).getD 0 ≥ twoTo 63 then .nothing
    else (directiveFile? (cs.drop ds.length)).elim .nothing (.directive ((Text.readDigits 10 ds).getD 0)) := by
  unfold readDirective
  refine if_congr .rfl rfl ?_
  split <;> rename_i h <;> exact (congrArg (Option.elim · _ _) h).symm

lemma isDirective_of_readDirective (h : readDirective cs = .directive n name) : IsDirective cs n name := by
  obtain ⟨trail, htrail, hend⟩ := exists_trimEnd cs
  obtain ⟨lead, hlead, hstart⟩ := exists_trimStart (Text.trimEnd cs)
  obtain ⟨word, hword, hbehind⟩ := exists_lineWord (Text.trimStart (Text.trimEnd cs))
  rw [readDirective_eq] at h
  generalize behindWord (Text.trimStart (Text.trimEnd cs)) = rest at h hbehind
  have hds : ∀ c ∈ rest.takeWhile isDigit, isDigit c := fun _ ↦ mem_takeWhile_imp
  obtain ⟨number, hn⟩ := exists_readDigits hds
  simp only [hn, Option.getD_some] at h
  split at h
  · cases h
  rename_i hnumber
  simp only [Bool.or_eq_true, List.isEmpty_iff, ge_iff_le, decide_eq_true_eq, not_or, Nat.not_le] at hnumber
  cases hfile : directiveFile? (rest.drop (rest.takeWhile isDigit).length) with
  | none => simp [hfile] at h
  | some file =>
    rw [hfile] at h
    cases h
    rw [hend, hstart, hbehind, ← prefix_iff_eq_append.mp ( takeWhile_prefix (l := rest) isDigit)]
    exact .mk hlead hword hnumber.1 hds hn hnumber.2 (fileName_of_directiveFile? hfile) htrail

lemma IsDirective.read (h : IsDirective cs n name) : readDirective cs = .directive n name := by
  cases h with
  | @mk lead word ds _ file _ trail hlead hword hne hds hn hlt hfile htrail =>
    -- A directive ends with a digit or a quote, so only the blanks behind it are cut off.
    have hend : Text.trimEnd (lead ++ (word ++ (ds ++ file)) ++ trail) = lead ++ (word ++ (ds ++ file)) := by
      rw [Text.trimEnd, reverse_append, (takeWhile_append_eq (fun c hc ↦ htrail c (mem_reverse.mp hc)) ?_).2, reverse_reverse]
      intro c hc
      cases hfile with
      | absent =>
        refine (@head_not_blank ds.reverse (word.reverse ++ lead.reverse) (by simpa) (by simpa) c ?_).1
        simpa using hc
      | quoted => obtain rfl : '"' = c := by simpa using hc
                  decide
    have hstart : Text.trimStart (lead ++ (word ++ (ds ++ file))) = word ++ (ds ++ file) := by
      refine (takeWhile_append_eq hlead fun c hc ↦ ?_).2
      cases hword with
      | absent => exact (head_not_blank hne hds c hc).1
      | written => obtain rfl : 'l' = c := by simpa using hc
                   decide
    have hdigits : (ds ++ file).takeWhile isDigit = ds := by
      refine (takeWhile_append_eq hds fun c hc ↦ ?_).1
      cases hfile with
      | absent => cases hc
      | quoted hgap hgapne => exact hgap.not_digit hgapne _ c hc
    have hempty : ds.isEmpty = false := by simpa using hne
    rw [readDirective_eq, hend, hstart, behindWord_append hword hne hds]
    simp [hdigits, hempty, hn, Nat.not_le.mpr hlt, hfile.read]

/-- The scanner takes exactly the well-formed directives. -/
theorem readDirective_eq_directive : readDirective cs = .directive n name ↔ IsDirective cs n name :=
  ⟨isDirective_of_readDirective, IsDirective.read⟩

/-- What was read is no directive. -/
def Reading.Plain (r : Reading) : Prop := ∀ n name, r.lexeme ≠ .directive n name

lemma Reading.Plain.ite {r r' : Reading} {p : Prop} [Decidable p] (h : r.Plain) (h' : r'.Plain) :
    (if p then r else r').Plain := by
  split <;> assumption

lemma plain_readInteger (text digits : List Char) (radix : Nat) (rest : List Char) :
    (readInteger text digits radix rest).Plain := by
  unfold readInteger
  dsimp only
  split
  · exact .ite nofun nofun
  · nofun

lemma plain_readNumber (cs : List Char) : (readNumber cs).Plain :=
  .ite (plain_readInteger _ _ _ _) (.ite (.ite (plain_readInteger _ _ _ _) (plain_readInteger _ _ _ _)) nofun)

lemma plain_readCharacter (cs : List Char) : (readCharacter cs).Plain := by
  cases cs with
  | nil => nofun
  | cons c cs => exact .ite nofun (.ite nofun nofun)

lemma plain_readName (cs : List Char) : (readName cs).Plain := by
  unfold readName
  dsimp only
  split <;> nofun

/-- No lexeme but a directive is read as one. -/
lemma readLexeme_eq_directive :
    (readLexeme lineStart c cs).lexeme = .directive n name ↔ lineStart ∧ c = '#' ∧ IsDirective (restOfLine cs) n name := by
  rw [← readDirective_eq_directive]
  by_cases hmark : c = '#' ∧ lineStart
  · obtain ⟨rfl, hstart⟩ := hmark
    simp [readLexeme, isSeparator, hstart]
  refine ⟨fun h ↦ ?_, fun ⟨hstart, hc, _⟩ ↦ (hmark ⟨hc, hstart⟩).elim⟩
  have hplain : (readLexeme lineStart c cs).Plain := by
    unfold readLexeme
    dsimp only
    rw [if_neg (c := (c == '#' && lineStart) = true) (by simpa using hmark)]
    refine .ite nofun (.ite nofun (.ite ?_ (.ite (.ite nofun nofun) (.ite (plain_readCharacter cs) (.ite
      (plain_readNumber _) (.ite (plain_readName _) ?_))))))
    · split <;> nofun
    · split <;> nofun
  exact (hplain n name h).elim

/-! ## A scan -/

variable {text : List Char} {file : String} {o : Origin} {s : Scanned} {rest before : List Char} {places : List (List Char)}

lemma stands_iff (htext : text = before ++ c :: cs) {kind : Kind} :
    Stands text before kind ↔ (readLexeme (columnOf before == 1) c cs).lexeme = .token kind := by
  refine ⟨fun ⟨d, rest, hd, hkind⟩ ↦ ?_, fun h ↦ ⟨c, cs, htext, h⟩⟩
  cases append_cancel_left (htext.symm.trans hd)
  exact hkind

lemma directs_iff (htext : text = before ++ c :: cs) :
    Directs text before n name ↔ (readLexeme (columnOf before == 1) c cs).lexeme = .directive n name := by
  rw [readLexeme_eq_directive, beq_iff_eq]
  refine ⟨fun ⟨hcol, rest, hrest, h⟩ ↦ ?_, fun ⟨hcol, hc, h⟩ ↦ ⟨hcol, cs, hc ▸ htext, h⟩⟩
  cases append_cancel_left (htext.symm.trans hrest)
  exact ⟨hcol, rfl, h⟩

/-- The scanner has read a text up to some place. Behind the end the column may be one more. -/
structure Scans (text : List Char) (file : String) (o : Origin) (p : Position) (s : Scanned) (rest before : List Char)
    (places : List (List Char)) : Prop where
  lexed : Lexed text before places
  text_eq : text = before ++ rest
  line : p.line = lineOf before
  col : rest ≠ [] → p.col = columnOf before
  origins : Origins text file places o.ahead o.file
  yields : Yields text file places s.tokens
  earlier : ∀ token ∈ s.tokens, (position token).Before p
  ordered : s.tokens.Pairwise fun a b ↦ (position b).Before (position a)

lemma locate_line (h : 1 ≤ p.line + o.ahead) (hlt : p.line + o.ahead < twoTo 32) : (o.locate p).line = p.line + o.ahead := by
  have hwrap : Int.bmod (p.line + o.ahead) (twoTo 64) = p.line + o.ahead := by
    have hbound : (p.line : Int) + o.ahead < 4294967296 := hlt
    apply Int.bmod_eq_of_le <;> simp [twoTo] <;> omega
  have hmax : max 1 ((p.line : Int) + o.ahead) = p.line + o.ahead := by omega
  simp only [Origin.locate, hwrap, hmax]
  rw [Int.emod_eq_of_lt (by omega) hlt, Int.toNat_of_nonneg (by omega)]

namespace Scans

lemma read (h : Scans text file o p s (c :: cs) before places)
    (horigins : Origins text file (before :: places) o'.ahead o'.file)
    (hyields : Yields text file (before :: places) s'.tokens)
    (hearlier : ∀ token ∈ s'.tokens, (position token).Before p ∨ position token = p)
    (hordered : s'.tokens.Pairwise fun a b ↦ (position b).Before (position a)) :
    Scans text file o' ((p.after c).skip (readLexeme (p.col == 1) c cs).taken cs) s'
      (cs.drop (readLexeme (p.col == 1) c cs).taken) (before ++ c :: cs.take (readLexeme (p.col == 1) c cs).taken)
      (before :: places) := by
  have hcol := h.col (cons_ne_nil c cs)
  have hlexed := h.lexed.read h.text_eq
  rw [← hcol] at hlexed
  generalize (readLexeme (p.col == 1) c cs).taken = taken at hlexed ⊢
  have hp : p = before.foldl Position.after {} := by
    rw [foldl_after, ← h.line, ← hcol]
  have hnext : (cs.take taken).foldl Position.after (p.after c) =
      ⟨lineOf (before ++ c :: cs.take taken), columnOf (before ++ c :: cs.take taken)⟩ := by
    rw [← foldl_after, foldl_append, ← hp, foldl_cons]
  have hskip := before_skip p c taken cs
  refine ⟨hlexed, ?_, ?_, fun hrest ↦ ?_, horigins, hyields, fun token ht ↦ ?_, hordered⟩
  · rw [h.text_eq, append_assoc, cons_append, take_append_drop]
  · rw [Position.skip, hnext]
  · have hlt : taken < cs.length := by simpa using hrest
    rw [Position.skip, hnext, Nat.sub_eq_zero_of_le (Nat.le_of_lt hlt)]
    rfl
  · rcases hearlier token ht with hbefore | heq
    · exact hbefore.trans hskip
    · exact heq ▸ hskip

lemma located (h : Scans text file o p s (c :: cs) before places) : Located text file before places (o.locate p) := by
  refine ⟨h.line, h.col (cons_ne_nil c cs), o.ahead, h.origins, fun hpos hlt ↦ ?_⟩
  rw [← h.line] at hpos hlt ⊢
  exact locate_line hpos hlt

lemma push (h : Scans text file o p s (c :: cs) before places) {kind : Kind} (hstands : Stands text before kind) :
    Yields text file (before :: places) (s.push kind (o.locate p)).tokens ∧
    (∀ token ∈ (s.push kind (o.locate p)).tokens, (position token).Before p ∨ position token = p) ∧
    (s.push kind (o.locate p)).tokens.Pairwise fun a b ↦ (position b).Before (position a) := by
  rw [Scanned.push.eq_def]
  split
  · -- A string behind another one leaves the place of the first.
    rename_i more bytes first earlier htokens
    obtain ⟨hbefore, hearlier⟩ := forall_mem_cons.mp (htokens ▸ h.earlier)
    have hordered := pairwise_cons.mp (htokens ▸ h.ordered)
    exact ⟨.string (htokens ▸ h.yields) hstands, forall_mem_cons.mpr ⟨.inl hbefore, fun token ht ↦ .inl (hearlier token ht)⟩,
      pairwise_cons.mpr hordered⟩
  · rename_i hfirst
    exact ⟨.token h.yields hstands h.located fun bytes more first earlier hkind ↦ hfirst more bytes first earlier hkind,
      forall_mem_cons.mpr ⟨.inr rfl, fun token ht ↦ .inl (h.earlier token ht)⟩, pairwise_cons.mpr ⟨h.earlier, h.ordered⟩⟩

lemma scanFrom (h : Scans text file o p s rest before places) : ∃ places tokens mark, Lexed text text places ∧
    Yields text file places tokens ∧ (scanFrom o p s rest).tokens = ⟨.endOfFile, mark⟩ :: tokens ∧
    (Token.scanFrom o p s rest).tokens.Pairwise fun a b ↦ (position b).Before (position a) := by
  fun_induction Token.scanFrom o p s rest generalizing before places with
  | case1 o p s =>
    have hall : text = before := by simpa using h.text_eq
    exact ⟨places, s.tokens, o.locate p, by simpa only [← hall] using h.lexed, h.yields, rfl,
      pairwise_cons.mpr ⟨h.earlier, h.ordered⟩⟩
  | case2 o p s c cs r =>
    rename_i hr ih
    have hcol := h.col (cons_ne_nil c cs)
    have hread : (readLexeme (columnOf before == 1) c cs).lexeme = .nothing := hcol ▸ hr
    refine ih (h.read (.other h.origins fun n name hd ↦ ?_) (.nothing h.yields fun kind hs ↦ ?_)
      (fun token ht ↦ .inl (h.earlier token ht)) h.ordered)
    · simp [(directs_iff h.text_eq).mp hd] at hread
    · simp [(stands_iff h.text_eq).mp hs] at hread
  | case3 o p s c cs r loc s' _ _ kind =>
    rename_i hr ih
    have hread : (readLexeme (columnOf before == 1) c cs).lexeme = .token kind := h.col (cons_ne_nil c cs) ▸ hr
    have h' : Scans text file o p s' (c :: cs) before places := { h with }
    obtain ⟨hyields, hearlier, hordered⟩ := h'.push ((stands_iff h.text_eq).mpr hread)
    refine ih (h.read (.other h.origins fun n name hd ↦ ?_) hyields hearlier hordered)
    simp [(directs_iff h.text_eq).mp hd] at hread
  | case4 o p s c cs r _ _ _ _ line name =>
    rename_i hr ih
    have hread : (readLexeme (columnOf before == 1) c cs).lexeme = .directive line name := h.col (cons_ne_nil c cs) ▸ hr
    have horigins := h.origins.directive ((directs_iff h.text_eq).mpr hread)
    rw [← h.line] at horigins
    refine ih (h.read horigins (.nothing h.yields fun kind hs ↦ ?_) (fun token ht ↦ .inl (h.earlier token ht)) h.ordered)
    simp [(stands_iff h.text_eq).mp hs] at hread

end Scans

/-- The tokens of a text are those of its lexemes, from the first character to the last, each where it says that it stands, with
the end mark behind them; they come in the order of the text. -/
theorem scan_located (source file : String) : ∃ places tokens mark, Lexed source.toList source.toList places ∧
    Yields source.toList file places tokens ∧ (scan source file).1 = tokens.reverse ++ [⟨.endOfFile, mark⟩] ∧
    (scan source file).1.Pairwise fun a b ↦ (position a).Before (position b) := by
  have hstart : Scans source.toList file ⟨file, 0⟩ {} {} source.toList [] [] :=
    ⟨.start, rfl, rfl, fun _ ↦ rfl, .start, .start, by simp, .nil⟩
  obtain ⟨places, tokens, mark, hlexed, hyields, htokens, hordered⟩ := hstart.scanFrom
  refine ⟨places, tokens, mark, hlexed, hyields, ?_, ?_⟩
  · rw [scan, htokens, reverse_cons]
  · rw [scan, pairwise_reverse]
    exact hordered

theorem scan_located_included : Directs "#line 7 \"a.h\"\nx".toList [] 7 (some "a.h") ∧
    ∃ places, Yields "#line 7 \"a.h\"\nx".toList "t.c" places [⟨.ident "x", ⟨"a.h", 7, 1, 2⟩⟩] := by
  refine ⟨⟨rfl, "line 7 \"a.h\"\nx".toList, rfl, readDirective_eq_directive.mp ?_⟩, ?_⟩
  · decide +kernel
  · obtain ⟨places, tokens, mark, _, hyields, htokens, _⟩ := scan_located "#line 7 \"a.h\"\nx" "t.c"
    have hscan : (scan "#line 7 \"a.h\"\nx" "t.c").1 = [⟨.ident "x", ⟨"a.h", 7, 1, 2⟩⟩, ⟨.endOfFile, ⟨"a.h", 7, 2, 2⟩⟩] := by
      decide +kernel
    have hsame := htokens.symm.trans (hscan.trans singleton_append.symm)
    obtain rfl : [⟨.ident "x", ⟨"a.h", 7, 1, 2⟩⟩] = tokens := (reverse_eq_iff.mp (append_inj' hsame rfl).1).symm
    exact ⟨places, hyields⟩

end W16Compiler.Token

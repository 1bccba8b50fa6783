import MyDB.Lib.Fallible
import MyDB.Parser.ParserTotal

/-! The tokens of a text without their lines. They are read off the text one by one,
and a text that is written from tokens, with any layout between them, gives these tokens
back. -/

namespace MyDB.Parser
open Lib

/-- What the parser reads of a token: its type and its value. -/
abbrev Lexeme := TokenType × Str

def Token.lexeme (t : Token) : Lexeme := (t.type, t.value)

namespace Lexer

def lexemes (s : Str) : Except Fault (List Lexeme) := (tokenize s).map (·.map Token.lexeme)

def skip (s : Str) : Str := (skipWhitespace s 1).input

def unlined (r : Result) : Except Fault (Lexeme × Str) := r.map fun r => (r.1.lexeme, r.2.input)

def token : Str → Except Fault (Lexeme × Str)
  | [] => .ok ((.eofToken, []), [])
  | c :: s =>
    if isDigit c then unlined (readNumber ⟨c :: s, 1⟩)
    else if c = quote then unlined (readString ⟨s, 1⟩)
    else if isAlpha c || c == underscore then unlined (readIdentifierOrKeyword ⟨c :: s, 1⟩)
    else unlined (readSymbol c ⟨s, 1⟩)

/-! ## Lines do not matter -/

mutual

theorem skipWhitespace_line (s : Str) (line line' : Nat) :
    (skipWhitespace s line).input = (skipWhitespace s line').input := by
  cases s with
  | nil => rfl
  | cons c s =>
    rw [skipWhitespace, skipWhitespace]
    split_ifs
    · exact skipWhitespace_line s _ _
    · exact skipWhitespace_line s _ _
    · exact skipComment_line s _ _
    · rfl

theorem skipComment_line (s : Str) (line line' : Nat) :
    (skipComment s line).input = (skipComment s line').input := by
  cases s with
  | nil => rfl
  | cons c s =>
    rw [skipComment, skipComment]
    split_ifs
    · exact skipWhitespace_line s _ _
    · exact skipComment_line s _ _

end

theorem unlined_readString (s : Str) (line : Nat) : unlined (readString ⟨s, line⟩) = unlined (readString ⟨s, 1⟩) := by
  unfold readString
  dsimp only
  cases s.dropWhile (· ≠ quote) with
  | nil => rfl
  | cons x xs => rfl

theorem unlined_readIdentifierOrKeyword (s : Str) (line : Nat) :
    unlined (readIdentifierOrKeyword ⟨s, line⟩) = unlined (readIdentifierOrKeyword ⟨s, 1⟩) := by
  unfold readIdentifierOrKeyword
  dsimp only
  cases keywords.lookup ((s.takeWhile isIdentifierChar).map toUpper) with
  | none => rfl
  | some type => rfl

theorem unlined_readSymbol (c : UInt8) (s : Str) (line : Nat) :
    unlined (readSymbol c ⟨s, line⟩) = unlined (readSymbol c ⟨s, 1⟩) := by
  unfold readSymbol
  dsimp only
  split <;> rfl

theorem unlined_nextToken (s : Str) (line : Nat) : unlined (nextToken ⟨s, line⟩) = token (skip s) := by
  have hskip : (skipWhitespace s line).input = skip s := skipWhitespace_line s _ _
  unfold nextToken
  rcases hs : skipWhitespace s line with ⟨_ | ⟨c, s'⟩, line'⟩
  · rw [← hskip, hs]
    rfl
  · rw [← hskip, hs]
    dsimp only [token]
    split_ifs
    · rfl
    · exact unlined_readString s' line'
    · exact unlined_readIdentifierOrKeyword (c :: s') line'
    · exact unlined_readSymbol c s' line'

/-! ## One token after the other -/

def proceed (rest : Str → Except Fault (List Lexeme)) (acc : List Lexeme) (r : Lexeme × Str) :
    Except Fault (List Lexeme) :=
  if r.1.1 = .eofToken then .ok (acc ++ [r.1]) else (rest r.2).map (acc ++ [r.1] ++ ·)

theorem token_length {s s' : Str} {k : Lexeme} (h : token (skip s) = .ok (k, s')) (hk : k.1 ≠ .eofToken) :
    s'.length < s.length := by
  rw [← unlined_nextToken s 1] at h
  obtain ⟨⟨t, l⟩, hn, heq⟩ := map_eq_ok.mp h
  cases heq
  exact nextToken_length hn hk

theorem tokenizeLoop_step {s : Str} {fuel line : Nat} {acc : List Token}
    (ih : ∀ s', s'.length < s.length → ∀ line acc, (tokenizeLoop fuel ⟨s', line⟩ acc).map (·.map Token.lexeme) =
      (lexemes s').map (acc.map Token.lexeme ++ ·)) :
    (tokenizeLoop (fuel + 1) ⟨s, line⟩ acc).map (·.map Token.lexeme) =
      token (skip s) >>= proceed lexemes (acc.map Token.lexeme) := by
  rw [← unlined_nextToken s line, tokenizeLoop]
  cases hn : nextToken ⟨s, line⟩ with
  | error e => rfl
  | ok r =>
    obtain ⟨t, l⟩ := r
    show Except.map _ (if t.type = .eofToken then Except.ok (acc ++ [t]) else tokenizeLoop fuel l (acc ++ [t])) =
      proceed lexemes (acc.map Token.lexeme) (t.lexeme, l.input)
    unfold proceed
    by_cases ht : t.type = .eofToken
    · rw [if_pos ht, if_pos (show t.lexeme.1 = .eofToken from ht)]
      simp [Except.map]
    · rw [if_neg ht, if_neg (show ¬ t.lexeme.1 = .eofToken from ht)]
      have hrest := ih l.input (nextToken_length hn ht) l.line (acc ++ [t])
      rw [List.map_append] at hrest
      exact hrest

theorem bind_proceed (rest : Str → Except Fault (List Lexeme)) (acc : List Lexeme) (r : Except Fault (Lexeme × Str)) :
    r >>= proceed rest acc = (r >>= proceed rest []).map (acc ++ ·) := by
  cases r with
  | error e => rfl
  | ok r =>
    show proceed rest acc r = (proceed rest [] r).map (acc ++ ·)
    unfold proceed
    by_cases hr : r.1.1 = .eofToken
    · rw [if_pos hr, if_pos hr]
      rfl
    · rw [if_neg hr, if_neg hr]
      cases rest r.2 with
      | error e => rfl
      | ok ks => simp [Except.map]

theorem tokenizeLoop_lexemes {s : Str} {fuel : Nat} (hfuel : s.length < fuel) (line : Nat) (acc : List Token) :
    (tokenizeLoop fuel ⟨s, line⟩ acc).map (·.map Token.lexeme) = (lexemes s).map (acc.map Token.lexeme ++ ·) ∧
      lexemes s = token (skip s) >>= proceed lexemes [] := by
  induction hn : s.length using Nat.strong_induction_on generalizing s fuel line acc with
  | _ n ih =>
    subst hn
    have hstep (fuel line : Nat) (acc : List Token) (hfuel : s.length ≤ fuel) :
        (tokenizeLoop (fuel + 1) ⟨s, line⟩ acc).map (·.map Token.lexeme) =
          token (skip s) >>= proceed lexemes (acc.map Token.lexeme) :=
      tokenizeLoop_step fun s' hs' line acc => (ih _ hs' (hs'.trans_le hfuel) line acc rfl).1
    have hself : lexemes s = token (skip s) >>= proceed lexemes [] := hstep s.length 1 [] le_rfl
    obtain ⟨fuel, rfl⟩ := Nat.exists_eq_succ_of_ne_zero (Nat.ne_zero_of_lt hfuel)
    refine ⟨?_, hself⟩
    rw [hstep fuel line acc (Nat.le_of_lt_succ hfuel), bind_proceed, ← hself]

theorem lexemes_eq (s : Str) : lexemes s = token (skip s) >>= proceed lexemes [] :=
  (tokenizeLoop_lexemes (Nat.lt_succ_self s.length) 1 []).2

theorem lexemes_skip {s s' : Str} (h : skip s = skip s') : lexemes s = lexemes s' := by
  rw [lexemes_eq s, lexemes_eq s', h]

theorem lexemes_eof {s s' : Str} {k : Lexeme} (h : token (skip s) = .ok (k, s')) (hk : k.1 = .eofToken) :
    lexemes s = .ok [k] := by
  rw [lexemes_eq, h]
  exact if_pos hk

theorem lexemes_end {s : Str} (h : skip s = []) : lexemes s = .ok [(.eofToken, [])] := by
  apply lexemes_eof
  · rw [h]
    rfl
  · rfl

theorem lexemes_cons {s s' : Str} {k : Lexeme} (h : token (skip s) = .ok (k, s')) (hk : k.1 ≠ .eofToken) :
    lexemes s = (lexemes s').map (k :: ·) := by
  rw [lexemes_eq, h]
  exact if_neg hk

/-! ## Written tokens -/

/-- What stands between tokens: blanks, and comments up to the end of their line. -/
inductive Layout : Str → Prop
  | nil : Layout []
  | space {c : UInt8} {s : Str} (hc : isSpace c) (hs : Layout s) : Layout (c :: s)
  | comment {body s : Str} (hbody : newline ∉ body) (hs : Layout s) :
      Layout (dash :: dash :: (body ++ newline :: s))

/-- A token and a text that is written for it: a keyword in any case, a string between
quotes, and the value itself else. -/
inductive Written : Lexeme → Str → Prop
  | keyword {word text : Str} {type : TokenType} (hword : (word, type) ∈ keywords)
      (htext : text.map toUpper = word) : Written (type, word) text
  | number {s : Str} (hne : s ≠ []) (hs : ∀ c ∈ s, isDigit c) : Written (.intLiteral, s) s
  | string {s : Str} (hs : quote ∉ s) : Written (.stringLiteral, s) (quote :: (s ++ [quote]))
  | identifier {c : UInt8} {s : Str} (hc : isAlpha c || c == underscore) (hs : ∀ c ∈ s, isIdentifierChar c)
      (hkey : (c :: s).map toUpper ∉ keywords.map Prod.fst) : Written (.identifier, c :: s) (c :: s)
  | symbol {c : UInt8} {type : TokenType} (h : (c, type) ∈ symbols ++ symbolHeads) : Written (type, [c]) [c]
  | symbolPair {c c' : UInt8} {type : TokenType} (h : ((c, c'), type) ∈ symbolPairs) :
      Written (type, [c, c']) [c, c']

/-- Texts of tokens with layout between them. -/
inductive Rendered : List Lexeme → Str → Prop
  | nil : Rendered [] []
  | single {k : Lexeme} {text : Str} (h : Written k text) : Rendered [k] text
  | cons {k k' : Lexeme} {ks : List Lexeme} {text sep rest : Str} (h : Written k text) (hsep : Layout sep)
      (hne : sep ≠ []) (hrest : Rendered (k' :: ks) rest) : Rendered (k :: k' :: ks) (text ++ (sep ++ rest))

def Stops (rest : Str) : Prop := ∀ c ∈ rest.head?, isSpace c ∨ c = dash

theorem Layout.stops {s : Str} (h : Layout s) : Stops s := by
  cases h with
  | nil => exact nofun
  | space hc _ => exact fun c hc' => .inl (Option.some.inj hc' ▸ hc)
  | comment _ _ => exact fun c hc' => .inr (Option.some.inj hc').symm

theorem Stops.append {s rest : Str} (h : Stops s) (hne : s ≠ []) : Stops (s ++ rest) := by
  unfold Stops
  rw [List.head?_append_of_ne_nil _ hne]
  exact h

theorem skipComment_append {body : Str} (h : newline ∉ body) (s : Str) (line : Nat) :
    skipComment (body ++ newline :: s) line = skipWhitespace s (line + 1) := by
  induction body with
  | nil =>
    rw [List.nil_append, skipComment]
    exact if_pos rfl
  | cons c body ih =>
    simp only [List.mem_cons, not_or] at h
    rw [List.cons_append, skipComment, if_neg (Ne.symm h.1)]
    exact ih h.2

theorem skip_comment {body : Str} (h : newline ∉ body) (s : Str) :
    skip (dash :: dash :: (body ++ newline :: s)) = skip s := by
  have hbody : newline ∉ dash :: body := by
    simp only [List.mem_cons, not_or]
    exact ⟨by decide, h⟩
  unfold skip
  rw [skipWhitespace, if_neg (by decide), if_neg (by decide), if_pos ⟨rfl, rfl⟩]
  exact (congrArg Lexer.input (skipComment_append hbody s 1)).trans (skipWhitespace_line s _ _)

theorem skip_space {c : UInt8} (hc : isSpace c) (s : Str) : skip (c :: s) = skip s := by
  unfold skip
  rw [skipWhitespace]
  split_ifs
  · exact skipWhitespace_line s _ _
  · rfl

theorem skip_layout {s : Str} (h : Layout s) (rest : Str) : skip (s ++ rest) = skip rest := by
  induction h with
  | nil => rfl
  | space hc _ ih => exact (skip_space hc _).trans ih
  | comment hbody _ ih =>
    rw [List.cons_append, List.cons_append, List.append_assoc, List.cons_append, skip_comment hbody, ih]

theorem skip_start {c : UInt8} {s : Str} (hspace : isSpace c = false) (hdash : ¬ (c = dash ∧ s.head? = some dash)) :
    skip (c :: s) = c :: s := by
  have hnewline : c ≠ newline := by
    rintro rfl
    cases hspace
  unfold skip
  rw [skipWhitespace, if_neg hnewline, if_neg (by rw [hspace]; decide), if_neg hdash]

theorem skip_self {c : UInt8} (hspace : isSpace c = false) (hdash : c ≠ dash) (s : Str) : skip (c :: s) = c :: s :=
  skip_start hspace fun h => hdash h.1

theorem span_of_stops {p : UInt8 → Bool} {s rest : Str} (hp : ∀ c, isSpace c ∨ c = dash → p c = false)
    (hs : ∀ c ∈ s, p c) (hrest : Stops rest) :
    (s ++ rest).takeWhile p = s ∧ (s ++ rest).dropWhile p = rest := by
  rw [List.takeWhile_append_of_pos hs, List.dropWhile_append_of_pos hs]
  cases rest with
  | nil => exact ⟨List.append_nil s, rfl⟩
  | cons c rest =>
    have hc : ¬ p c := by rw [hp c (hrest c rfl)]; decide
    rw [List.takeWhile_cons_of_neg hc, List.dropWhile_cons_of_neg hc]
    exact ⟨List.append_nil s, rfl⟩

/-! ## The token at the start of a text -/

theorem word_start : ∀ c, isAlpha c || c == underscore →
    isDigit c = false ∧ c ≠ quote ∧ isSpace c = false ∧ c ≠ dash ∧ isIdentifierChar c := by decide +kernel

theorem digit_start (c : UInt8) (h : isDigit c) : isSpace c = false ∧ c ≠ dash := by
  refine ⟨not_isSpace_of_isDigit h, ?_⟩
  rintro rfl
  exact absurd h (by decide)

theorem isAlpha_of_toUpper : ∀ c, isUpper (toUpper c) → isAlpha c := by decide +kernel

theorem keywords_upper : ∀ p ∈ keywords, p.1 ≠ [] ∧ (∀ c ∈ p.1, isUpper c) ∧ keywords.lookup p.1 = some p.2 ∧
    p.2 ≠ .eofToken := by
  have hupper : ∀ p ∈ keywords, p.1.all isUpper := by decide +kernel
  have hrest : ∀ p ∈ keywords, p.1 ≠ [] ∧ keywords.lookup p.1 = some p.2 ∧ p.2 ≠ .eofToken := by decide +kernel
  intro p hp
  obtain ⟨hne, hlookup, heof⟩ := hrest p hp
  exact ⟨hne, List.all_eq_true.mp (hupper p hp), hlookup, heof⟩

/-- The keyword or the identifier that is spelled `raw`. -/
def word (raw : Str) : Lexeme :=
  match keywords.lookup (raw.map toUpper) with
  | some type => (type, raw.map toUpper)
  | none => (.identifier, raw)

theorem token_digit {c : UInt8} (hc : isDigit c) (s : Str) :
    token (c :: s) = .ok ((.intLiteral, (c :: s).takeWhile isDigit), (c :: s).dropWhile isDigit) := by
  unfold token
  exact if_pos hc

theorem token_quote (s : Str) : token (quote :: s) =
    match s.dropWhile (· ≠ quote) with
    | [] => .error (.runtimeError (lit "Unterminated string literal"))
    | _ :: rest => .ok ((.stringLiteral, s.takeWhile (· ≠ quote)), rest) := by
  have htoken : token (quote :: s) = unlined (readString ⟨s, 1⟩) := rfl
  rw [htoken, readString]
  dsimp only
  cases s.dropWhile (· ≠ quote) with
  | nil => rfl
  | cons c rest => rfl

theorem token_word {c : UInt8} (hc : isAlpha c || c == underscore) (s : Str) : token (c :: s) =
    .ok (word ((c :: s).takeWhile isIdentifierChar), (c :: s).dropWhile isIdentifierChar) := by
  obtain ⟨hdigit, hquote, -⟩ := word_start c hc
  have htoken : token (c :: s) = unlined (readIdentifierOrKeyword ⟨c :: s, 1⟩) := by
    rw [token, hdigit, if_neg Bool.false_ne_true, if_neg hquote, if_pos hc]
  rw [htoken, readIdentifierOrKeyword, word]
  dsimp only
  cases keywords.lookup (((c :: s).takeWhile isIdentifierChar).map toUpper) with
  | none => rfl
  | some type => rfl

theorem token_symbol {c : UInt8} (hdigit : isDigit c = false) (hquote : c ≠ quote)
    (hword : (isAlpha c || c == underscore) = false) (s : Str) : token (c :: s) = unlined (readSymbol c ⟨s, 1⟩) := by
  rw [token, hdigit, hword, if_neg Bool.false_ne_true, if_neg hquote, if_neg Bool.false_ne_true]

/-- `token` reads `k` from a text that has no layout before it. -/
structure Reads (k : Lexeme) (s rest : Str) : Prop where
  skip_eq : skip s = s
  token_eq : token s = .ok (k, rest)
  ne_eof : k.1 ≠ .eofToken

variable {rest : Str}

theorem reads_word {c : UInt8} {s : Str} (hc : isAlpha c || c == underscore) (hs : ∀ c ∈ s, isIdentifierChar c)
    (hword : (word (c :: s)).1 ≠ .eofToken) (hrest : Stops rest) : Reads (word (c :: s)) (c :: s ++ rest) rest := by
  obtain ⟨-, -, hspace, hdash, hident⟩ := word_start c hc
  have hchars : ∀ c' ∈ c :: s, isIdentifierChar c' := List.forall_mem_cons.mpr ⟨hident, hs⟩
  obtain ⟨htake, hdrop⟩ := span_of_stops (by decide +kernel) hchars hrest
  refine ⟨skip_self hspace hdash _, ?_, hword⟩
  rw [List.cons_append, token_word hc, ← List.cons_append, htake, hdrop]

theorem reads_keyword {p : Str × TokenType} {text : Str} (hp : p ∈ keywords) (htext : text.map toUpper = p.1)
    (hrest : Stops rest) : Reads (p.2, p.1) (text ++ rest) rest := by
  obtain ⟨hne, hupper, hlookup, heof⟩ := keywords_upper p hp
  cases text with
  | nil => exact absurd htext.symm hne
  | cons c s =>
    have halpha : ∀ c' ∈ c :: s, isAlpha c' := by
      intro c' hc'
      apply isAlpha_of_toUpper
      apply hupper
      rw [← htext]
      exact List.mem_map_of_mem hc'
    have hident : ∀ c' ∈ s, isIdentifierChar c' := by
      intro c' hc'
      simp [isIdentifierChar, halpha c' (List.mem_cons_of_mem _ hc')]
    have hc : isAlpha c || c == underscore := by simp [halpha c List.mem_cons_self]
    have hword : word (c :: s) = (p.2, p.1) := by
      rw [word, htext, hlookup]
    rw [← hword]
    exact reads_word hc hident (hword ▸ heof) hrest

theorem reads_identifier {c : UInt8} {s : Str} (hc : isAlpha c || c == underscore) (hs : ∀ c ∈ s, isIdentifierChar c)
    (hkey : (c :: s).map toUpper ∉ keywords.map Prod.fst) (hrest : Stops rest) :
    Reads (.identifier, c :: s) (c :: s ++ rest) rest := by
  have hlookup : keywords.lookup ((c :: s).map toUpper) = none := by
    rw [List.lookup_eq_none_iff]
    intro p hp
    rw [bne_iff_ne]
    exact fun heq => hkey (heq ▸ List.mem_map_of_mem hp)
  have hword : word (c :: s) = (.identifier, c :: s) := by rw [word, hlookup]
  rw [← hword]
  exact reads_word hc hs (hword ▸ nofun) hrest

theorem reads_number {s : Str} (hne : s ≠ []) (hs : ∀ c ∈ s, isDigit c) (hrest : Stops rest) :
    Reads (.intLiteral, s) (s ++ rest) rest := by
  obtain ⟨htake, hdrop⟩ := span_of_stops (by decide +kernel) hs hrest
  cases s with
  | nil => exact absurd rfl hne
  | cons c s =>
    have hc := hs c List.mem_cons_self
    obtain ⟨hspace, hdash⟩ := digit_start c hc
    refine ⟨skip_self hspace hdash _, ?_, nofun⟩
    rw [List.cons_append, token_digit hc, ← List.cons_append, htake, hdrop]

theorem reads_string {s : Str} (hs : quote ∉ s) (rest : Str) :
    Reads (.stringLiteral, s) (quote :: (s ++ [quote]) ++ rest) rest := by
  have hne : ∀ c ∈ s, decide (c ≠ quote) := fun c hc => decide_eq_true (ne_of_mem_of_not_mem hc hs)
  refine ⟨skip_self rfl (by decide) _, ?_, nofun⟩
  rw [List.cons_append, List.append_assoc, token_quote, List.takeWhile_append_of_pos hne,
    List.dropWhile_append_of_pos hne]
  simp

theorem lookup_symbolPairs_eq_none {c' : UInt8} (h : isSpace c' ∨ c' = dash) (c : UInt8) :
    symbolPairs.lookup (c, c') = none := by
  have hpairs : ∀ p ∈ symbolPairs, ¬ (isSpace p.1.2 ∨ p.1.2 = dash) := by decide
  rw [List.lookup_eq_none_iff]
  intro p hp
  rw [bne_iff_ne]
  rintro heq
  exact hpairs p hp (heq ▸ h)

theorem readSymbol_head {p : UInt8 × TokenType} (hp : p ∈ symbolHeads) (hrest : Stops rest) :
    readSymbol p.1 ⟨rest, 1⟩ = .ok (⟨p.2, [p.1], 1⟩, ⟨rest, 1⟩) := by
  have hheads : ∀ p ∈ symbolHeads, symbols.lookup p.1 = none ∧ symbolHeads.lookup p.1 = some p.2 := by decide
  obtain ⟨hsymbol, hhead⟩ := hheads p hp
  have hpair : rest.head?.bind (fun c' => symbolPairs.lookup (p.1, c')) = none := by
    rw [Option.bind_eq_none_iff]
    exact fun c' hc' => lookup_symbolPairs_eq_none (hrest c' hc') p.1
  unfold readSymbol
  rw [hsymbol, hhead, hpair]

theorem reads_symbol {p : UInt8 × TokenType} (hp : p ∈ symbols ++ symbolHeads) (hrest : Stops rest) :
    Reads (p.2, [p.1]) ([p.1] ++ rest) rest := by
  have hstart : ∀ p ∈ symbols ++ symbolHeads, isDigit p.1 = false ∧ p.1 ≠ quote ∧
      (isAlpha p.1 || p.1 == underscore) = false ∧ isSpace p.1 = false ∧ p.1 ≠ dash ∧ p.2 ≠ .eofToken := by decide
  obtain ⟨hdigit, hquote, hword, hspace, hdash, heof⟩ := hstart p hp
  refine ⟨skip_self hspace hdash _, ?_, heof⟩
  rw [List.singleton_append, token_symbol hdigit hquote hword]
  rcases List.mem_append.mp hp with hp | hp
  · have hsymbols : ∀ p ∈ symbols, symbols.lookup p.1 = some p.2 := by decide
    rw [readSymbol, hsymbols p hp]
    rfl
  · rw [readSymbol_head hp hrest]
    rfl

theorem reads_symbolPair {p : (UInt8 × UInt8) × TokenType} (hp : p ∈ symbolPairs) (rest : Str) :
    Reads (p.2, [p.1.1, p.1.2]) ([p.1.1, p.1.2] ++ rest) rest := by
  simp only [symbolPairs, List.mem_cons, List.not_mem_nil, or_false] at hp
  rcases hp with rfl | rfl | rfl | rfl <;> exact ⟨rfl, rfl, nofun⟩

theorem Written.reads {k : Lexeme} {text : Str} (h : Written k text) (hrest : Stops rest) :
    Reads k (text ++ rest) rest := by
  cases h with
  | keyword hword htext => exact reads_keyword hword htext hrest
  | number hne hs => exact reads_number hne hs hrest
  | string hs => exact reads_string hs rest
  | identifier hc hs hkey => exact reads_identifier hc hs hkey hrest
  | symbol h => exact reads_symbol h hrest
  | symbolPair h => exact reads_symbolPair h rest

theorem lexemes_rendered {ks : List Lexeme} {text trail : Str} (h : Rendered ks text) (htrail : Layout trail) :
    lexemes (text ++ trail) = .ok (ks ++ [(.eofToken, [])]) := by
  have hend : lexemes trail = .ok [(.eofToken, [])] := by
    apply lexemes_end
    have hskip := skip_layout htrail []
    rwa [List.append_nil] at hskip
  induction h with
  | nil => exact hend
  | single hk =>
    have hreads := hk.reads htrail.stops
    rw [lexemes_cons (hreads.skip_eq ▸ hreads.token_eq) hreads.ne_eof, hend]
    rfl
  | @cons k k' ks text sep rest hk hsep hne _ ih =>
    have hstops : Stops (sep ++ (rest ++ trail)) := hsep.stops.append hne
    have hreads := hk.reads hstops
    rw [List.append_assoc, List.append_assoc, lexemes_cons (hreads.skip_eq ▸ hreads.token_eq) hreads.ne_eof,
      lexemes_skip (skip_layout hsep _), ih]
    rfl

/-- Every list of tokens, written in any way with any layout between them, before them and
after them, is what the lexer returns, and then the end. -/
theorem tokenize_rendered {ks : List Lexeme} {lead text trail : Str} (hlead : Layout lead) (h : Rendered ks text)
    (htrail : Layout trail) : ∃ tokens, tokenize (lead ++ (text ++ trail)) = .ok tokens ∧
      tokens.map Token.lexeme = ks ++ [(.eofToken, [])] := by
  have hlex : lexemes (lead ++ (text ++ trail)) = .ok (ks ++ [(.eofToken, [])]) :=
    (lexemes_skip (skip_layout hlead _)).trans (lexemes_rendered h htrail)
  exact map_eq_ok.mp hlex

theorem tokenize_rendered_select :
    ∃ tokens, tokenize (lit "select -- it's\n '--' >= a_1\t") = .ok tokens ∧ tokens.map Token.lexeme =
      [(.select, lit "SELECT"), (.stringLiteral, lit "--"), (.geq, lit ">="), (.identifier, lit "a_1"), (.eofToken, [])] := by
  have hselect : Written (.select, lit "SELECT") (lit "select") := .keyword (by decide +kernel) (by decide +kernel)
  have hstring : Written (.stringLiteral, lit "--") (lit "'--'") := .string (by decide +kernel)
  have hgeq : Written (.geq, lit ">=") (lit ">=") := .symbolPair (by decide +kernel)
  have hname : Written (.identifier, lit "a_1") (lit "a_1") :=
    .identifier (by decide +kernel) (by decide +kernel) (by decide +kernel)
  have hspace {s : Str} (hs : Layout s) : Layout (32 :: s) := .space (by decide) hs
  have hcomment : Layout (32 :: dash :: dash :: (lit " it's" ++ newline :: [32])) :=
    hspace (.comment (by decide +kernel) (hspace .nil))
  have htext := Rendered.cons hselect hcomment nofun (.cons hstring (hspace .nil) nofun
    (.cons hgeq (hspace .nil) nofun (.single hname)))
  have htrail : Layout [9] := .space (by decide) .nil
  have hall : lit "select -- it's\n '--' >= a_1\t" = [] ++ (lit "select" ++ (32 :: dash :: dash ::
      (lit " it's" ++ newline :: [32]) ++ (lit "'--'" ++ ([32] ++ (lit ">=" ++ ([32] ++ lit "a_1"))))) ++ [9]) := by
    decide +kernel
  rw [hall]
  exact tokenize_rendered .nil htext htrail

end Lexer
end MyDB.Parser

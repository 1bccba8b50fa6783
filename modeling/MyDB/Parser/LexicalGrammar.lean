import MyDB.Parser.Lexemes

/-! The lexical grammar. A text is layout and texts of tokens in turn, each as long as it
can be, and the line of a token is the one that it ends in. The lexer accepts just such
texts, and returns just those tokens. -/

namespace MyDB.Parser.Lexer
open MyDB.Lib

def Longest (text rest : Str) : Prop := ∀ ext more k, rest = ext ++ more → ext ≠ [] → ¬ Written k (text ++ ext)

/-- What may stand after the last token: layout, and a comment that the input ends in. -/
inductive Trailing : Str → Prop
  | layout {s : Str} (h : Layout s) : Trailing s
  | comment {s body : Str} (h : Layout s) (hbody : newline ∉ body) : Trailing (s ++ dash :: dash :: body)

/-- The tokens of a text that starts in the given line. -/
inductive Lexes : Nat → Str → List Token → Prop
  | eof {line : Nat} {s : Str} (h : Trailing s) : Lexes line s [⟨.eofToken, [], line + s.count newline⟩]
  | token {line : Nat} {gap text rest : Str} {k : Lexeme} {tokens : List Token} (hgap : Layout gap) (h : Written k text)
      (hlong : Longest text rest) (hrest : Lexes (line + (gap ++ text).count newline) rest tokens) :
      Lexes line (gap ++ (text ++ rest)) (⟨k.1, k.2, line + (gap ++ text).count newline⟩ :: tokens)

/-! ## Layout -/

theorem skipComment_of_not_mem {s : Str} (h : newline ∉ s) (line : Nat) : skipComment s line = ⟨[], line⟩ := by
  induction s with
  | nil => rfl
  | cons c s ih =>
    rw [List.mem_cons, not_or] at h
    rw [skipComment, if_neg (Ne.symm h.1), ih h.2]

theorem skipWhitespace_layout {gap : Str} (h : Layout gap) (s : Str) (line : Nat) :
    skipWhitespace (gap ++ s) line = skipWhitespace s (line + gap.count newline) := by
  induction h generalizing line with
  | nil => rfl
  | @space c gap hc _ ih =>
    rw [List.cons_append, skipWhitespace]
    by_cases hnl : c = newline
    · rw [if_pos hnl, ih, hnl, List.count_cons_self, Nat.add_assoc, Nat.add_comm 1]
    · rw [if_neg hnl, if_pos hc, ih, List.count_cons_of_ne hnl]
  | @comment body gap hbody _ ih =>
    have hdash : dash ≠ newline := by decide
    have hbody' : newline ∉ dash :: body := List.not_mem_cons_of_ne_of_not_mem hdash.symm hbody
    rw [List.cons_append, List.cons_append, List.append_assoc, List.cons_append, skipWhitespace, if_neg hdash,
      if_neg (by decide), if_pos ⟨rfl, rfl⟩, ← List.cons_append, skipComment_append hbody', ih]
    simp [List.count_append, List.count_eq_zero_of_not_mem hbody, hdash, Nat.add_assoc, Nat.add_comm 1]

theorem skipWhitespace_trailing {s : Str} (h : Trailing s) (line : Nat) :
    skipWhitespace s line = ⟨[], line + s.count newline⟩ := by
  cases h with
  | layout h =>
    have hskip := skipWhitespace_layout h [] line
    rwa [List.append_nil] at hskip
  | @comment s body h hbody =>
    have hdash : dash ≠ newline := by decide
    have hbody' : newline ∉ dash :: body := List.not_mem_cons_of_ne_of_not_mem hdash.symm hbody
    rw [skipWhitespace_layout h, skipWhitespace, if_neg hdash, if_neg (by decide), if_pos ⟨rfl, rfl⟩,
      skipComment_of_not_mem hbody']
    simp [List.count_append, List.count_eq_zero_of_not_mem hbody, hdash]

def Split (s : Str) : Prop := Trailing s ∨ ∃ gap c rest, Layout gap ∧ s = gap ++ c :: rest ∧
  isSpace c = false ∧ ¬ (c = dash ∧ rest.head? = some dash)

theorem Split.space {c : UInt8} {s : Str} (hc : isSpace c) (h : Split s) : Split (c :: s) := by
  rcases h with (hs | ⟨hs, hbody⟩) | ⟨gap, c', rest, hgap, rfl, hspace, hdash⟩
  · exact Or.inl (.layout (.space hc hs))
  · exact Or.inl (Trailing.comment (.space hc hs) hbody)
  · exact Or.inr ⟨c :: gap, c', rest, .space hc hgap, rfl, hspace, hdash⟩

theorem Split.comment {body s : Str} (hbody : newline ∉ body) (h : Split s) :
    Split (dash :: dash :: (body ++ newline :: s)) := by
  rcases h with (hs | @⟨s, body', hs, hbody'⟩) | ⟨gap, c', rest, hgap, rfl, hspace, hdash⟩
  · exact Or.inl (.layout (.comment hbody hs))
  · have h := Trailing.comment (Layout.comment hbody hs) hbody'
    simp only [List.cons_append, List.append_assoc] at h
    exact Or.inl h
  · refine Or.inr ⟨_, c', rest, .comment hbody hgap, ?_, hspace, hdash⟩
    simp only [List.cons_append, List.append_assoc]

theorem split (s : Str) : Split s := by
  induction hn : s.length using Nat.strong_induction_on generalizing s with
  | h n ih =>
    cases s with
    | nil => exact Or.inl (.layout .nil)
    | cons c s =>
      rw [List.length_cons] at hn
      by_cases hc : isSpace c = true
      · exact (ih s.length (by omega) s rfl).space hc
      by_cases hdash : c = dash ∧ s.head? = some dash
      · obtain ⟨rfl, hhead⟩ := hdash
        obtain ⟨s, rfl⟩ := List.head?_eq_some_iff.mp hhead
        by_cases hmem : newline ∈ s
        · obtain ⟨body, rest, rfl, hbody⟩ := List.eq_append_cons_of_mem hmem
          simp only [List.length_cons, List.length_append] at hn
          exact (ih rest.length (by omega) rest rfl).comment hbody
        · exact Or.inl (.comment .nil hmem)
      · exact Or.inr ⟨[], c, s, .nil, rfl, Bool.eq_false_iff.mpr hc, hdash⟩

/-! ## Texts of tokens -/

theorem mem_of_lookup {α β : Type} [BEq α] [LawfulBEq α] {l : List (α × β)} {a : α} {b : β} (h : l.lookup a = some b) :
    (a, b) ∈ l := by
  obtain ⟨l₁, l₂, rfl, -⟩ := List.lookup_eq_some_iff.mp h
  exact List.mem_append_cons_self

theorem written_word {c : UInt8} {s : Str} (hc : isAlpha c || c == underscore) (hs : ∀ c ∈ s, isIdentifierChar c) :
    Written (word (c :: s)) (c :: s) := by
  unfold word
  cases hlookup : keywords.lookup ((c :: s).map toUpper) with
  | some type => exact .keyword (mem_of_lookup hlookup) rfl
  | none =>
    refine .identifier hc hs fun hmem => ?_
    obtain ⟨p, hp, hword⟩ := List.mem_map.mp hmem
    have hne := List.lookup_eq_none_iff.mp hlookup p hp
    rw [hword, bne_self_eq_false] at hne
    cases hne

inductive Starts (c : UInt8) : Str → Lexeme → Prop
  | word {s : Str} (hc : isAlpha c || c == underscore) (hs : ∀ c ∈ s, isIdentifierChar c) : Starts c s (word (c :: s))
  | number {s : Str} (hc : isDigit c) (hs : ∀ c ∈ s, isDigit c) : Starts c s (.intLiteral, c :: s)
  | string {v : Str} (hc : c = quote) (hv : quote ∉ v) : Starts c (v ++ [quote]) (.stringLiteral, v)
  | symbol {type : TokenType} (h : (c, type) ∈ symbols ++ symbolHeads) : Starts c [] (type, [c])
  | symbolPair {c' : UInt8} {type : TokenType} (h : ((c, c'), type) ∈ symbolPairs) : Starts c [c'] (type, [c, c'])

theorem Written.starts {k : Lexeme} {c : UInt8} {s : Str} (h : Written k (c :: s)) : Starts c s k := by
  generalize htext : c :: s = text at h
  cases h with
  | @keyword word text type hword hupper =>
    subst htext
    obtain ⟨-, hletters, hlookup, -⟩ := keywords_upper (word, type) hword
    have halpha : ∀ c' ∈ c :: s, isAlpha c' := by
      intro c' hc'
      apply isAlpha_of_toUpper
      apply hletters
      rw [← hupper]
      exact List.mem_map_of_mem hc'
    have hword : Lexer.word (c :: s) = (type, word) := by rw [Lexer.word, hupper, hlookup]
    rw [← hword]
    refine .word (by simp [halpha c List.mem_cons_self]) fun c' hc' => ?_
    simp [isIdentifierChar, halpha c' (List.mem_cons_of_mem _ hc')]
  | number hne hs =>
    subst htext
    obtain ⟨hc, hs⟩ := List.forall_mem_cons.mp hs
    exact .number hc hs
  | string hs =>
    obtain ⟨rfl, rfl⟩ := List.cons.inj htext
    exact .string rfl hs
  | identifier hc hs hkey =>
    obtain ⟨rfl, rfl⟩ := List.cons.inj htext
    have hlookup : keywords.lookup ((c :: s).map toUpper) = none := by
      rw [List.lookup_eq_none_iff]
      intro p hp
      rw [bne_iff_ne]
      exact fun heq => hkey (heq ▸ List.mem_map_of_mem hp)
    have hword : Lexer.word (c :: s) = (.identifier, c :: s) := by rw [Lexer.word, hlookup]
    rw [← hword]
    exact .word hc hs
  | symbol h =>
    obtain ⟨rfl, rfl⟩ := List.cons.inj htext
    exact .symbol h
  | symbolPair h =>
    obtain ⟨rfl, rfl⟩ := List.cons.inj htext
    exact .symbolPair h

def IsSymbol (c : UInt8) : Prop := isDigit c = false ∧ c ≠ quote ∧ (isAlpha c || c == underscore) = false

instance : DecidablePred IsSymbol := fun _ => inferInstanceAs (Decidable (_ ∧ _ ∧ _))

theorem isSymbol_symbols : ∀ p ∈ symbols ++ symbolHeads, IsSymbol p.1 := by decide

theorem isSymbol_symbolPairs : ∀ p ∈ symbolPairs, IsSymbol p.1.1 := by decide

namespace Starts
variable {c : UInt8} {s : Str} {k : Lexeme}

theorem digits (h : Starts c s k) (hc : isDigit c) : ∀ d ∈ s, isDigit d := by
  cases h with
  | word hc' hs => exact absurd hc (by simp [(word_start c hc').1])
  | number _ hs => exact hs
  | string hc' hv => exact absurd (hc' ▸ hc) (by decide)
  | symbol h => exact absurd hc (by simp [(isSymbol_symbols _ h).1])
  | symbolPair h => exact absurd hc (by simp [(isSymbol_symbolPairs _ h).1])

theorem word_chars (h : Starts c s k) (hc : isAlpha c || c == underscore) : ∀ d ∈ s, isIdentifierChar d := by
  cases h with
  | word _ hs => exact hs
  | number hc' hs => exact absurd hc' (by simp [(word_start c hc).1])
  | string hc' hv => exact absurd hc' (word_start c hc).2.1
  | symbol h => exact absurd hc (by simp [(isSymbol_symbols _ h).2.2])
  | symbolPair h => exact absurd hc (by simp [(isSymbol_symbolPairs _ h).2.2])

theorem string_end (h : Starts quote s k) : ∃ v, s = v ++ [quote] ∧ quote ∉ v := by
  cases h with
  | word hc hs => exact absurd hc (by decide)
  | number hc hs => exact absurd hc (by decide)
  | string _ hv => exact ⟨_, rfl, hv⟩
  | symbol h => exact absurd rfl (isSymbol_symbols _ h).2.1
  | symbolPair h => exact absurd rfl (isSymbol_symbolPairs _ h).2.1

theorem symbol_end (h : Starts c s k) (hc : IsSymbol c) : s = [] ∨ ∃ c' type, s = [c'] ∧ ((c, c'), type) ∈ symbolPairs := by
  cases h with
  | word hc' hs => exact absurd hc' (by simp [hc.2.2])
  | number hc' hs => exact absurd hc' (by simp [hc.1])
  | string hc' hv => exact absurd hc' hc.2.1
  | symbol h => exact Or.inl rfl
  | symbolPair h => exact Or.inr ⟨_, _, rfl, h⟩

end Starts

theorem longest_of_starts {c : UInt8} {t rest : Str}
    (h : ∀ e ext more k, rest = e :: (ext ++ more) → ¬ Starts c (t ++ e :: ext) k) : Longest (c :: t) rest := by
  intro ext more k hrest hne hw
  obtain ⟨e, ext, rfl⟩ := List.exists_cons_of_ne_nil hne
  exact h e ext more k hrest hw.starts

theorem longest_run {p : UInt8 → Bool} {c : UInt8} {t rest : Str} (hrun : ∀ s k, Starts c s k → ∀ d ∈ s, p d)
    (hrest : ∀ e ∈ rest.head?, p e = false) : Longest (c :: t) rest := by
  refine longest_of_starts fun e ext more k heq hstarts => ?_
  have he : p e = true := hrun _ k hstarts e (List.mem_append_right _ List.mem_cons_self)
  rw [hrest e (heq ▸ rfl)] at he
  cases he

theorem longest_string {v rest : Str} : Longest (quote :: (v ++ [quote])) rest := by
  refine longest_of_starts fun e ext more k _ hstarts => ?_
  obtain ⟨v', heq, hv'⟩ := hstarts.string_end
  -- the quote that ends the text stands before the last character of the longer one
  have hmem : quote ∈ (v ++ [quote] ++ e :: ext).dropLast := by
    rw [List.dropLast_append_of_ne_nil (List.cons_ne_nil e ext)]
    exact List.mem_append_left _ (List.mem_append_right _ List.mem_cons_self)
  rw [heq, List.dropLast_concat] at hmem
  exact hv' hmem

theorem longest_symbol {c : UInt8} {rest : Str} (hc : IsSymbol c)
    (hpair : ∀ c' type, rest.head? = some c' → ((c, c'), type) ∉ symbolPairs) : Longest [c] rest := by
  refine longest_of_starts fun e ext more k heq hstarts => ?_
  rcases hstarts.symbol_end hc with hnil | ⟨c', type, hcons, hmem⟩
  · cases hnil
  · obtain ⟨rfl, -⟩ := List.cons.inj hcons
    exact hpair e type (heq ▸ rfl) hmem

theorem longest_symbolPair {c c' : UInt8} {rest : Str} (hc : IsSymbol c) : Longest [c, c'] rest := by
  refine longest_of_starts fun e ext more k _ hstarts => ?_
  rcases hstarts.symbol_end hc with hnil | ⟨c', type, hcons, -⟩
  · cases hnil
  · cases hcons

/-! ## One token -/

theorem head_dropWhile {p : UInt8 → Bool} {l : Str} : ∀ e ∈ (l.dropWhile p).head?, p e = false := by
  intro e he
  have h := List.head?_dropWhile_not p l
  rw [Option.mem_def.mp he] at h
  simpa using h

theorem readSymbol_split {c : UInt8} {s rest : Str} {k : Lexeme} (hc : IsSymbol c)
    (h : unlined (readSymbol c ⟨s, 1⟩) = .ok (k, rest)) : ∃ text, Written k text ∧ Longest text rest ∧ c :: s = text ++ rest := by
  have hsingle : ∀ p ∈ symbols, ∀ q ∈ symbolPairs, q.1.1 ≠ p.1 := by decide
  rw [readSymbol] at h
  split at h
  · next type hlookup =>
    cases h
    refine ⟨[c], .symbol (List.mem_append_left _ (mem_of_lookup hlookup)), longest_symbol hc ?_, rfl⟩
    intro c' type' _ hmem
    exact hsingle _ (mem_of_lookup hlookup) _ hmem rfl
  · next type _ hpair =>
    obtain ⟨c', hhead, hlookup⟩ := Option.bind_eq_some_iff.mp hpair
    obtain ⟨s, rfl⟩ := List.head?_eq_some_iff.mp hhead
    cases h
    exact ⟨[c, c'], .symbolPair (mem_of_lookup hlookup), longest_symbolPair hc, rfl⟩
  · next type _ hpair hlookup =>
    cases h
    refine ⟨[c], .symbol (List.mem_append_right _ (mem_of_lookup hlookup)), longest_symbol hc ?_, rfl⟩
    intro c' type' hhead hmem
    rw [hhead] at hpair
    have hne := List.lookup_eq_none_iff.mp hpair _ hmem
    rw [bne_self_eq_false] at hne
    cases hne
  · cases h

theorem token_split {c : UInt8} {s rest : Str} {k : Lexeme} (h : token (c :: s) = .ok (k, rest)) :
    ∃ text, Written k text ∧ Longest text rest ∧ c :: s = text ++ rest := by
  by_cases hdigit : isDigit c = true
  · rw [token_digit hdigit] at h
    cases h
    refine ⟨_, .number ?_ fun d hd => List.mem_takeWhile_imp hd, ?_, List.takeWhile_append_dropWhile.symm⟩
    · rw [List.takeWhile_cons_of_pos hdigit]
      exact List.cons_ne_nil _ _
    · rw [List.takeWhile_cons_of_pos hdigit]
      exact longest_run (fun _ _ hs => hs.digits hdigit) head_dropWhile
  by_cases hquote : c = quote
  · rw [hquote, token_quote] at h
    rw [hquote]
    have hsplit : s = s.takeWhile (· ≠ quote) ++ s.dropWhile (· ≠ quote) := List.takeWhile_append_dropWhile.symm
    have hv : quote ∉ s.takeWhile (· ≠ quote) := fun hmem => by simpa using List.mem_takeWhile_imp hmem
    cases hdrop : s.dropWhile (· ≠ quote) with
    | nil =>
      rw [hdrop] at h
      cases h
    | cons q rest' =>
      have hhead : q ∈ (s.dropWhile (· ≠ quote)).head? := by
        rw [hdrop]
        rfl
      have hq : q = quote := by simpa using head_dropWhile q hhead
      rw [hdrop] at h
      cases h
      refine ⟨_, .string hv, longest_string, ?_⟩
      rw [hdrop, hq] at hsplit
      rw [List.cons_append, List.append_assoc]
      exact congrArg _ hsplit
  by_cases hword : (isAlpha c || c == underscore) = true
  · have hident : isIdentifierChar c = true := (word_start c hword).2.2.2.2
    rw [token_word hword] at h
    cases h
    rw [List.takeWhile_cons_of_pos hident]
    refine ⟨_, written_word hword fun d hd => List.mem_takeWhile_imp hd, ?_, ?_⟩
    · exact longest_run (fun _ _ hs => hs.word_chars hword) head_dropWhile
    · rw [← List.takeWhile_cons_of_pos hident, List.takeWhile_append_dropWhile]
  · have hsymbol : IsSymbol c := ⟨Bool.eq_false_iff.mpr hdigit, hquote, Bool.eq_false_iff.mpr hword⟩
    rw [token_symbol hsymbol.1 hsymbol.2.1 hsymbol.2.2] at h
    exact readSymbol_split hsymbol h

theorem Written.ne_nil {k : Lexeme} {text : Str} (h : Written k text) : text ≠ [] := by
  rintro rfl
  generalize htext : ([] : Str) = text at h
  cases h with
  | keyword hword hupper =>
    subst htext
    exact (keywords_upper _ hword).1 hupper.symm
  | number hne hs => exact hne htext.symm
  | string hs => cases htext
  | identifier hc hs hkey => cases htext
  | symbol h => cases htext
  | symbolPair h => cases htext

theorem Written.ne_eof {k : Lexeme} {text : Str} (h : Written k text) : k.1 ≠ .eofToken := by
  have hsymbols : ∀ p ∈ symbols ++ symbolHeads, p.2 ≠ .eofToken := by decide
  have hpairs : ∀ p ∈ symbolPairs, p.2 ≠ .eofToken := by decide
  cases h with
  | keyword hword hupper => exact (keywords_upper _ hword).2.2.2
  | number hne hs => exact TokenType.noConfusion
  | string hs => exact TokenType.noConfusion
  | identifier hc hs hkey => exact TokenType.noConfusion
  | symbol h => exact hsymbols _ h
  | symbolPair h => exact hpairs _ h

theorem span_of_head {p : UInt8 → Bool} {s rest : Str} (hs : ∀ c ∈ s, p c) (hrest : ∀ e ∈ rest.head?, p e = false) :
    (s ++ rest).takeWhile p = s ∧ (s ++ rest).dropWhile p = rest := by
  rw [List.takeWhile_append_of_pos hs, List.dropWhile_append_of_pos hs]
  cases rest with
  | nil => exact ⟨List.append_nil s, rfl⟩
  | cons e rest =>
    have he : ¬ p e = true := Bool.eq_false_iff.mp (hrest e rfl)
    rw [List.takeWhile_cons_of_neg he, List.dropWhile_cons_of_neg he]
    exact ⟨List.append_nil s, rfl⟩

theorem Longest.head {p : UInt8 → Bool} {text rest : Str} (h : Longest text rest)
    (hp : ∀ e, p e = true → ∃ k, Written k (text ++ [e])) : ∀ e ∈ rest.head?, p e = false := by
  intro e he
  obtain ⟨rest, rfl⟩ := List.head?_eq_some_iff.mp (Option.mem_def.mp he)
  rw [Bool.eq_false_iff]
  intro hpe
  obtain ⟨k, hk⟩ := hp e hpe
  exact h [e] rest k rfl (List.cons_ne_nil _ _) hk

theorem Longest.no_pair {c : UInt8} {rest : Str} (h : Longest [c] rest) :
    rest.head?.bind (fun c' => symbolPairs.lookup (c, c')) = none := by
  rw [Option.bind_eq_none_iff]
  intro c' hc'
  obtain ⟨rest, rfl⟩ := List.head?_eq_some_iff.mp hc'
  cases hlookup : symbolPairs.lookup (c, c') with
  | none => rfl
  | some type => exact absurd (.symbolPair (mem_of_lookup hlookup)) (h [c'] rest _ rfl (List.cons_ne_nil _ _))

theorem Written.token_eq {k : Lexeme} {text rest : Str} (h : Written k text) (hlong : Longest text rest) :
    token (text ++ rest) = .ok (k, rest) := by
  obtain ⟨c, s, rfl⟩ := List.exists_cons_of_ne_nil h.ne_nil
  cases h.starts with
  | word hc hs =>
    have hrest := hlong.head (p := isIdentifierChar) fun e he =>
      ⟨_, written_word hc (List.forall_mem_append.mpr ⟨hs, List.forall_mem_singleton.mpr he⟩)⟩
    have hchars : ∀ d ∈ c :: s, isIdentifierChar d := List.forall_mem_cons.mpr ⟨(word_start c hc).2.2.2.2, hs⟩
    obtain ⟨htake, hdrop⟩ := span_of_head hchars hrest
    rw [List.cons_append] at htake hdrop
    rw [List.cons_append, token_word hc, htake, hdrop]
  | number hc hs =>
    have hchars : ∀ d ∈ c :: s, isDigit d := List.forall_mem_cons.mpr ⟨hc, hs⟩
    have hrest := hlong.head (p := isDigit) fun e he =>
      ⟨_, .number (List.cons_ne_nil _ _) (List.forall_mem_append.mpr ⟨hchars, List.forall_mem_singleton.mpr he⟩)⟩
    obtain ⟨htake, hdrop⟩ := span_of_head hchars hrest
    rw [List.cons_append] at htake hdrop
    rw [List.cons_append, token_digit hc, htake, hdrop]
  | string hc hv =>
    rw [hc]
    exact (reads_string hv rest).token_eq
  | symbol hmem =>
    obtain ⟨hdigit, hquote, hword⟩ := isSymbol_symbols _ hmem
    rw [List.cons_append, List.nil_append, token_symbol hdigit hquote hword, readSymbol, hlong.no_pair]
    rcases List.mem_append.mp hmem with hmem | hmem
    · have hsymbols : ∀ p ∈ symbols, symbols.lookup p.1 = some p.2 := by decide
      rw [hsymbols _ hmem]
      rfl
    · have hheads : ∀ p ∈ symbolHeads, symbols.lookup p.1 = none ∧ symbolHeads.lookup p.1 = some p.2 := by decide
      rw [(hheads _ hmem).1, (hheads _ hmem).2]
      rfl
  | symbolPair hmem => exact (reads_symbolPair hmem rest).token_eq

/-! ## Lines -/

theorem skipWhitespace_of_start {c : UInt8} {s : Str} (hspace : isSpace c = false) (hdash : ¬ (c = dash ∧ s.head? = some dash))
    (line : Nat) : skipWhitespace (c :: s) line = ⟨c :: s, line⟩ := by
  have hnl : c ≠ newline := by
    rintro rfl
    exact absurd hspace (by decide)
  rw [skipWhitespace, if_neg hnl, if_neg (by simp [hspace]), if_neg hdash]

theorem count_takeWhile {p : UInt8 → Bool} (hp : p newline = false) (s : Str) : (s.takeWhile p).count newline = 0 := by
  rw [List.count_eq_zero]
  intro hmem
  rw [List.mem_takeWhile_imp hmem] at hp
  cases hp

structure EndsLine (s : Str) (line : Nat) (t : Token) (l : Lexer) : Prop where
  line_eq : l.line = t.line
  count_eq : ∃ text, s = text ++ l.input ∧ t.line = line + text.count newline

theorem readString_line {s : Str} {line : Nat} {t : Token} {l : Lexer} (h : readString ⟨s, line⟩ = .ok (t, l)) :
    EndsLine (quote :: s) line t l := by
  rw [readString] at h
  dsimp only at h
  split at h
  · cases h
  · next q rest hdrop =>
    cases h
    refine ⟨rfl, quote :: (s.takeWhile (· ≠ quote) ++ [q]), ?_, ?_⟩
    · rw [List.cons_append, List.append_assoc, List.singleton_append, ← hdrop, List.takeWhile_append_dropWhile]
    · have hhead : q ∈ (s.dropWhile (· ≠ quote)).head? := by
        rw [hdrop]
        rfl
      have hq : q = quote := by simpa using head_dropWhile q hhead
      have hnl : quote ≠ newline := by decide
      simp [hq, hnl]

theorem readSymbol_line {c : UInt8} {s : Str} {line : Nat} {t : Token} {l : Lexer} (hc : c ≠ newline)
    (h : readSymbol c ⟨s, line⟩ = .ok (t, l)) : EndsLine (c :: s) line t l := by
  have hpairs : ∀ p ∈ symbolPairs, p.1.2 ≠ newline := by decide
  rw [readSymbol] at h
  split at h
  · cases h
    exact ⟨rfl, [c], rfl, by simp [hc]⟩
  · next type _ hpair =>
    obtain ⟨c', hhead, hlookup⟩ := Option.bind_eq_some_iff.mp hpair
    obtain ⟨s, rfl⟩ := List.head?_eq_some_iff.mp hhead
    cases h
    exact ⟨rfl, [c, c'], rfl, by simp [hc, hpairs _ (mem_of_lookup hlookup)]⟩
  · cases h
    exact ⟨rfl, [c], rfl, by simp [hc]⟩
  · cases h

theorem nextToken_line {c : UInt8} {s : Str} {line : Nat} {t : Token} {l : Lexer} (hspace : isSpace c = false)
    (hdash : ¬ (c = dash ∧ s.head? = some dash)) (h : nextToken ⟨c :: s, line⟩ = .ok (t, l)) : EndsLine (c :: s) line t l := by
  have hnl : c ≠ newline := by
    rintro rfl
    exact absurd hspace (by decide)
  rw [nextToken, skipWhitespace_of_start hspace hdash] at h
  dsimp only at h
  split_ifs at h with hdigit hquote hword
  · cases h
    refine ⟨rfl, (c :: s).takeWhile isDigit, List.takeWhile_append_dropWhile.symm, ?_⟩
    rw [count_takeWhile (by decide)]
    rfl
  · rw [hquote]
    exact readString_line h
  · rw [readIdentifierOrKeyword] at h
    have hcount := count_takeWhile (p := isIdentifierChar) (by decide) (c :: s)
    have hsplit : c :: s = (c :: s).takeWhile isIdentifierChar ++ (c :: s).dropWhile isIdentifierChar :=
      List.takeWhile_append_dropWhile.symm
    cases hlookup : keywords.lookup (((c :: s).takeWhile isIdentifierChar).map toUpper) with
    | none =>
      rw [hlookup] at h
      cases h
      exact ⟨rfl, _, hsplit, by rw [hcount]; rfl⟩
    | some type =>
      rw [hlookup] at h
      cases h
      exact ⟨rfl, _, hsplit, by rw [hcount]; rfl⟩
  · exact readSymbol_line hnl h

/-! ## The lexer -/

theorem nextToken_layout {gap : Str} (h : Layout gap) (s : Str) (line : Nat) :
    nextToken ⟨gap ++ s, line⟩ = nextToken ⟨s, line + gap.count newline⟩ := by
  rw [nextToken, nextToken, skipWhitespace_layout h]

theorem nextToken_cases {s : Str} {line : Nat} {t : Token} {l : Lexer} (h : nextToken ⟨s, line⟩ = .ok (t, l)) :
    (Trailing s ∧ t = ⟨.eofToken, [], line + s.count newline⟩) ∨
    ∃ gap text, Layout gap ∧ Written t.lexeme text ∧ Longest text l.input ∧ s = gap ++ (text ++ l.input) ∧
      t.line = line + (gap ++ text).count newline ∧ l.line = t.line := by
  rcases split s with htrail | ⟨gap, c, rest, hgap, rfl, hspace, hdash⟩
  · rw [nextToken, skipWhitespace_trailing htrail] at h
    cases h
    exact Or.inl ⟨htrail, rfl⟩
  · rw [nextToken_layout hgap] at h
    have htoken : token (c :: rest) = .ok (t.lexeme, l.input) := by
      have hunlined := unlined_nextToken (c :: rest) (line + gap.count newline)
      rw [h, skip_start hspace hdash] at hunlined
      exact hunlined.symm
    obtain ⟨text, hw, hlong, hsplit⟩ := token_split htoken
    obtain ⟨hline, text', hsplit', hcount⟩ := nextToken_line hspace hdash h
    have htext : text = text' := List.append_cancel_right (hsplit.symm.trans hsplit')
    refine Or.inr ⟨gap, text, hgap, hw, hlong, congrArg _ hsplit, ?_, hline⟩
    rw [hcount, htext, List.count_append, Nat.add_assoc]

theorem Written.head {k : Lexeme} {c : UInt8} {s : Str} (h : Written k (c :: s)) : isSpace c = false ∧ c ≠ dash := by
  have hsymbols : ∀ p ∈ symbols ++ symbolHeads, isSpace p.1 = false ∧ p.1 ≠ dash := by decide
  have hpairs : ∀ p ∈ symbolPairs, isSpace p.1.1 = false ∧ p.1.1 ≠ dash := by decide
  cases h.starts with
  | word hc hs => exact ⟨(word_start c hc).2.2.1, (word_start c hc).2.2.2.1⟩
  | number hc hs => exact digit_start c hc
  | string hc hv =>
    rw [hc]
    decide
  | symbol hmem => exact hsymbols _ hmem
  | symbolPair hmem => exact hpairs _ hmem

theorem nextToken_written {gap text rest : Str} {k : Lexeme} (hgap : Layout gap) (h : Written k text)
    (hlong : Longest text rest) (line : Nat) : nextToken ⟨gap ++ (text ++ rest), line⟩ =
      .ok (⟨k.1, k.2, line + (gap ++ text).count newline⟩, ⟨rest, line + (gap ++ text).count newline⟩) := by
  have htoken := h.token_eq hlong
  obtain ⟨c, s, rfl⟩ := List.exists_cons_of_ne_nil h.ne_nil
  obtain ⟨hspace, hdash⟩ := h.head
  have hdash' : ¬ (c = dash ∧ (s ++ rest).head? = some dash) := fun hc => hdash hc.1
  have hunlined := unlined_nextToken (c :: (s ++ rest)) (line + gap.count newline)
  rw [skip_start hspace hdash', ← List.cons_append, htoken] at hunlined
  obtain ⟨⟨t, l⟩, hnext, heq⟩ := map_eq_ok.mp hunlined
  obtain ⟨hline, text, hsplit, hcount⟩ := nextToken_line hspace hdash' hnext
  obtain ⟨rfl, rfl⟩ := Prod.mk.inj heq
  have htext : c :: s = text := List.append_cancel_right hsplit
  have hend : t.line = line + (gap ++ c :: s).count newline := by
    rw [hcount, ← htext, List.count_append, Nat.add_assoc]
  rw [nextToken_layout hgap, hnext, ← hend]
  exact congrArg (fun n => Except.ok (t, Lexer.mk l.input n)) hline

theorem tokenizeLoop_lexes {s : Str} {line fuel : Nat} {acc tokens : List Token}
    (h : tokenizeLoop fuel ⟨s, line⟩ acc = .ok tokens) : ∃ rest, tokens = acc ++ rest ∧ Lexes line s rest := by
  induction fuel generalizing s line acc with
  | zero => cases h
  | succ fuel ih =>
    rw [tokenizeLoop] at h
    obtain ⟨⟨t, l⟩, hnext, hloop⟩ := bind_eq_ok.mp h
    rcases nextToken_cases hnext with ⟨htrail, rfl⟩ | ⟨gap, text, hgap, hw, hlong, rfl, hline, hl⟩
    · cases pure_eq_ok.mp hloop
      exact ⟨_, rfl, .eof htrail⟩
    · have hne : t.type ≠ .eofToken := hw.ne_eof
      dsimp only at hloop
      rw [if_neg hne] at hloop
      obtain ⟨rest, rfl, hrest⟩ := ih hloop
      have ht : t = ⟨t.lexeme.1, t.lexeme.2, line + (gap ++ text).count newline⟩ := by
        rw [← hline]
        rfl
      refine ⟨t :: rest, List.append_assoc .., ?_⟩
      rw [ht]
      refine .token hgap hw hlong ?_
      rw [← hline, ← hl]
      exact hrest

theorem Lexes.tokenizeLoop {s : Str} {line fuel : Nat} {tokens : List Token} (h : Lexes line s tokens)
    (hfuel : s.length < fuel) (acc : List Token) : tokenizeLoop fuel ⟨s, line⟩ acc = .ok (acc ++ tokens) := by
  induction h generalizing fuel acc with
  | @eof line s htrail =>
    cases fuel with
    | zero => cases hfuel
    | succ fuel =>
      have hnext : nextToken ⟨s, line⟩ = .ok (⟨.eofToken, [], line + s.count newline⟩, ⟨[], line + s.count newline⟩) := by
        rw [nextToken, skipWhitespace_trailing htrail]
      rw [Lexer.tokenizeLoop, hnext]
      rfl
  | @token line gap text rest k tokens hgap hw hlong hrest ih =>
    cases fuel with
    | zero => cases hfuel
    | succ fuel =>
      have hpos : 0 < text.length := List.length_pos_of_ne_nil hw.ne_nil
      rw [List.length_append, List.length_append] at hfuel
      have hround : Lexer.tokenizeLoop (fuel + 1) ⟨gap ++ (text ++ rest), line⟩ acc =
          if k.1 = .eofToken then .ok (acc ++ [⟨k.1, k.2, line + (gap ++ text).count newline⟩])
          else Lexer.tokenizeLoop fuel ⟨rest, line + (gap ++ text).count newline⟩
            (acc ++ [⟨k.1, k.2, line + (gap ++ text).count newline⟩]) := by
        rw [Lexer.tokenizeLoop, nextToken_written hgap hw hlong]
        rfl
      rw [hround, if_neg hw.ne_eof, ih (by omega), List.append_assoc, List.singleton_append]

/-- The lexer accepts just the texts of the lexical grammar, with the tokens and the lines
that the grammar gives them. -/
theorem tokenize_iff_lexes (s : Str) (tokens : List Token) : tokenize s = .ok tokens ↔ Lexes 1 s tokens := by
  constructor
  · intro h
    obtain ⟨rest, rfl, hrest⟩ := tokenizeLoop_lexes h
    exact hrest
  · intro h
    exact h.tokenizeLoop (Nat.lt_succ_self _) []

end MyDB.Parser.Lexer

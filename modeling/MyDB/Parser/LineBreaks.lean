import MyDB.Parser.Lexemes

/-! A text whose line breaks are replaced by blanks has the tokens of the text, unless
a string goes over a line break or a comment ends at one. -/

namespace MyDB.Parser
open Lib

def blank (c : UInt8) : UInt8 := if c = newline then 32 else c

def unbroken (s : Str) : Str := s.map blank

def Lexeme.unbroken (k : Lexeme) : Lexeme := (k.1, Parser.unbroken k.2)

theorem blank_ne_newline (c : UInt8) : blank c ≠ newline := by
  unfold blank
  split
  · decide
  · assumption

theorem newline_not_mem_unbroken (s : Str) : newline ∉ unbroken s := by
  intro h
  obtain ⟨c, -, hc⟩ := List.mem_map.mp h
  exact blank_ne_newline c hc

theorem unbroken_eq_self_iff {s : Str} : unbroken s = s ↔ newline ∉ s := by
  constructor
  · intro h
    rw [← h]
    exact newline_not_mem_unbroken s
  · intro h
    exact (List.map_congr_left fun c hc => if_neg (ne_of_mem_of_not_mem hc h)).trans (List.map_id' s)

theorem unbroken_cons {c : UInt8} (h : c ≠ newline) (s : Str) : unbroken (c :: s) = c :: unbroken s :=
  congrArg (· :: unbroken s) (if_neg h)

namespace Lexer

/-- A comment before the next token ends at a line break, and `rest` is what follows. -/
inductive Cuts : Str → Str → Prop
  | comment {body rest : Str} (h : newline ∉ body) : Cuts (dash :: dash :: (body ++ newline :: rest)) rest
  | space {c : UInt8} {s rest : Str} (hc : isSpace c) (h : Cuts s rest) : Cuts (c :: s) rest

/-- The lexer stands at `r` after some of the tokens of a text. -/
inductive Reached : Str → Str → Prop
  | refl {s : Str} : Reached s s
  | step {s s' r : Str} {k : Lexeme} (h : token (skip s) = .ok (k, s')) (hk : k.1 ≠ .eofToken) (hr : Reached s' r) :
      Reached s r

/-- No string goes over a line break, and after a comment that ends at one there is no token. -/
structure Breakable (s : Str) : Prop where
  strings : ∀ ks, lexemes s = .ok ks → ∀ k ∈ ks, newline ∉ k.2
  comments : ∀ r rest, Reached s r → Cuts r rest → lexemes rest = .ok [(.eofToken, [])]

/-! ## Layout -/

theorem skipComment_eq_nil {s : Str} (h : newline ∉ s) (line : Nat) : (skipComment s line).input = [] := by
  induction s with
  | nil => rfl
  | cons c s ih =>
    simp only [List.mem_cons, not_or] at h
    rw [skipComment, if_neg (Ne.symm h.1)]
    exact ih h.2

theorem skip_open_comment {s : Str} (h : newline ∉ s) : skip (dash :: dash :: s) = [] := by
  unfold skip
  rw [skipWhitespace, if_neg (by decide), if_neg (by decide), if_pos ⟨rfl, rfl⟩]
  apply skipComment_eq_nil
  simp only [List.mem_cons, not_or]
  exact ⟨by decide, h⟩

theorem skip_unbroken_space {c : UInt8} (hc : isSpace c) (s : Str) : skip (unbroken (c :: s)) = skip (unbroken s) := by
  apply skip_space
  unfold blank
  split
  · rfl
  · exact hc

theorem Cuts.skip_eq {s rest : Str} (h : Cuts s rest) : skip s = skip rest := by
  induction h with
  | comment h => exact skip_comment h _
  | space hc _ ih => exact (skip_space hc _).trans ih

theorem Cuts.skip_unbroken {s rest : Str} (h : Cuts s rest) : skip (unbroken s) = [] := by
  induction h with
  | comment h =>
    rw [unbroken_cons (by decide), unbroken_cons (by decide)]
    exact skip_open_comment (newline_not_mem_unbroken _)
  | space hc _ ih => exact (skip_unbroken_space hc _).trans ih

theorem blank_eq_dash {c : UInt8} (h : blank c = dash) : c = dash := by
  unfold blank at h
  split at h
  · cases h
  · exact h

theorem skip_unbroken {s : Str} (h : ∀ rest, ¬ Cuts s rest) : skip (unbroken s) = unbroken (skip s) := by
  induction s with
  | nil => rfl
  | cons c s ih =>
    cases hspace : isSpace c with
    | true =>
      rw [skip_unbroken_space hspace, skip_space hspace]
      exact ih fun rest hcut => h rest (.space hspace hcut)
    | false =>
      have hc : c ≠ newline := by
        rintro rfl
        cases hspace
      by_cases hdash : c = dash ∧ s.head? = some dash
      · obtain ⟨rfl, hhead⟩ := hdash
        obtain ⟨s, rfl⟩ := List.head?_eq_some_iff.mp hhead
        have hs : newline ∉ s := by
          intro hmem
          obtain ⟨body, rest, rfl, hbody⟩ := List.eq_append_cons_of_mem hmem
          exact h rest (.comment hbody)
        have hopen : skip (dash :: dash :: s) = [] := skip_open_comment hs
        rw [unbroken_cons hc, unbroken_cons hc, unbroken_eq_self_iff.mpr hs, hopen]
        rfl
      · have hdash' : ¬ (c = dash ∧ (unbroken s).head? = some dash) := by
          rintro ⟨hc, hhead⟩
          unfold unbroken at hhead
          rw [List.head?_map] at hhead
          obtain ⟨c', hc', hblank⟩ := Option.map_eq_some_iff.mp hhead
          exact hdash ⟨hc, hc'.trans (congrArg some (blank_eq_dash hblank))⟩
        rw [skip_start hspace hdash, unbroken_cons hc, skip_start hspace hdash']

/-! ## Tokens -/

section unbroken
variable {p : UInt8 → Bool} (hp : p 32 = p newline)
include hp

theorem comp_blank : p ∘ blank = p := by
  funext c
  unfold blank
  simp only [Function.comp_apply]
  split
  · next h => rw [h, hp]
  · rfl

theorem takeWhile_unbroken (s : Str) : (unbroken s).takeWhile p = unbroken (s.takeWhile p) := by
  unfold unbroken
  rw [List.takeWhile_map, comp_blank hp]

theorem dropWhile_unbroken (s : Str) : (unbroken s).dropWhile p = unbroken (s.dropWhile p) := by
  unfold unbroken
  rw [List.dropWhile_map, comp_blank hp]

end unbroken

theorem word_unbroken {raw : Str} (h : ∀ c ∈ raw, isIdentifierChar c) : word (unbroken raw) = (word raw).unbroken := by
  have hupper : ∀ c, isIdentifierChar c → c ≠ newline ∧ toUpper c ≠ newline := by decide +kernel
  have hraw : unbroken raw = raw := unbroken_eq_self_iff.mpr fun hmem => (hupper _ (h _ hmem)).1 rfl
  have hmap : unbroken (raw.map toUpper) = raw.map toUpper := by
    rw [unbroken_eq_self_iff]
    intro hmem
    obtain ⟨c, hc, heq⟩ := List.mem_map.mp hmem
    exact (hupper c (h c hc)).2 heq
  rw [hraw, word]
  cases keywords.lookup (raw.map toUpper) with
  | none => exact congrArg (Prod.mk _) hraw.symm
  | some type => exact congrArg (Prod.mk _) hmap.symm

def unbrokenResult (r : Except Fault (Lexeme × Str)) : Except Fault (Lexeme × Str) :=
  r.map fun r => (r.1.unbroken, unbroken r.2)

theorem readSymbol_unbroken {c : UInt8} (hc : c ≠ newline) (s : Str) :
    unlined (readSymbol c ⟨unbroken s, 1⟩) = unbrokenResult (unlined (readSymbol c ⟨s, 1⟩)) := by
  have hpair : (unbroken s).head?.bind (fun c' => symbolPairs.lookup (c, c')) =
      s.head?.bind fun c' => symbolPairs.lookup (c, c') := by
    cases s with
    | nil => rfl
    | cons c' s =>
      show symbolPairs.lookup (c, blank c') = symbolPairs.lookup (c, c')
      unfold blank
      split
      · next h => rw [h, lookup_symbolPairs_eq_none (.inl rfl), lookup_symbolPairs_eq_none (.inl rfl)]
      · rfl
  have hone : unbroken [c] = [c] := unbroken_cons hc []
  have htake : unbroken (c :: s.take 1) = c :: (unbroken s).take 1 := by
    rw [unbroken_cons hc, unbroken, unbroken, List.map_take]
  have htail : unbroken s.tail = (unbroken s).tail := by
    rw [unbroken, unbroken, List.map_tail]
  unfold readSymbol
  dsimp only
  rw [hpair]
  split
  · simp [unlined, unbrokenResult, Except.map, Token.lexeme, Lexeme.unbroken, hone]
  · simp [unlined, unbrokenResult, Except.map, Token.lexeme, Lexeme.unbroken, htake, htail]
  · simp [unlined, unbrokenResult, Except.map, Token.lexeme, Lexeme.unbroken, hone]
  · rfl

theorem token_unbroken {c : UInt8} (hspace : isSpace c = false) (s : Str) :
    token (unbroken (c :: s)) = unbrokenResult (token (c :: s)) := by
  have hc : c ≠ newline := by
    rintro rfl
    cases hspace
  rw [unbroken_cons hc]
  by_cases hdigit : isDigit c
  · rw [token_digit hdigit, token_digit hdigit, ← unbroken_cons hc, takeWhile_unbroken rfl, dropWhile_unbroken rfl]
    rfl
  by_cases hquote : c = quote
  · subst hquote
    rw [token_quote, token_quote, takeWhile_unbroken rfl, dropWhile_unbroken rfl]
    cases s.dropWhile (· ≠ quote) with
    | nil => rfl
    | cons c rest => rfl
  by_cases hword : isAlpha c || c == underscore
  · rw [token_word hword, token_word hword, ← unbroken_cons hc, takeWhile_unbroken rfl, dropWhile_unbroken rfl,
      word_unbroken fun c hc => List.mem_takeWhile_imp hc]
    rfl
  · rw [Bool.not_eq_true] at hdigit hword
    rw [token_symbol hdigit hquote hword, token_symbol hdigit hquote hword, readSymbol_unbroken hc]

/-! ## Texts -/

mutual

theorem skipWhitespace_start (s : Str) (line : Nat) :
    ∀ c ∈ (skipWhitespace s line).input.head?, isSpace c = false := by
  cases s with
  | nil => exact nofun
  | cons c s =>
    rw [skipWhitespace]
    split_ifs with hnewline hspace hdash
    · exact skipWhitespace_start s _
    · exact skipWhitespace_start s _
    · exact skipComment_start s _
    · intro c' hc'
      cases hc'
      exact Bool.not_eq_true _ ▸ hspace

theorem skipComment_start (s : Str) (line : Nat) :
    ∀ c ∈ (skipComment s line).input.head?, isSpace c = false := by
  cases s with
  | nil => exact nofun
  | cons c s =>
    rw [skipComment]
    split_ifs
    · exact skipWhitespace_start s _
    · exact skipComment_start s _

end

theorem token_skip_unbroken {s : Str} (h : ∀ rest, ¬ Cuts s rest) :
    token (skip (unbroken s)) = unbrokenResult (token (skip s)) := by
  rw [skip_unbroken h]
  cases hs : skip s with
  | nil => rfl
  | cons c s' =>
    refine token_unbroken ?_ s'
    apply skipWhitespace_start s 1
    rw [skip] at hs
    rw [hs]
    rfl

theorem unbroken_lexeme_iff {k : Lexeme} : k.unbroken = k ↔ newline ∉ k.2 := by
  rw [← unbroken_eq_self_iff]
  exact ⟨congrArg Prod.snd, congrArg (Prod.mk k.1)⟩

theorem map_cons_eq_iff {k k' : Lexeme} {x y : Except Fault (List Lexeme)} :
    x.map (k :: ·) = y.map (k' :: ·) ↔ x = y ∧ ∀ ks, y = .ok ks → k = k' := by
  cases x with
  | error e =>
    cases y with
    | error e' => simp [Except.map]
    | ok ks => simp [Except.map]
  | ok ks =>
    cases y with
    | error e' => simp [Except.map]
    | ok ks' => simp [Except.map, and_comm]

section step
variable {s s' : Str} {k : Lexeme}

theorem Reached.eq_or {r : Str} (hr : Reached s r) :
    r = s ∨ ∃ k s', token (skip s) = .ok (k, s') ∧ k.1 ≠ .eofToken ∧ Reached s' r := by
  cases hr with
  | refl => exact .inl rfl
  | step h hk hr => exact .inr ⟨_, _, h, hk, hr⟩

theorem breakable_of_cuts {rest : Str} (hcut : Cuts s rest) : lexemes (unbroken s) = lexemes s ↔ Breakable s := by
  rw [lexemes_end hcut.skip_unbroken]
  constructor
  · intro heq
    refine ⟨fun ks hks => ?_, fun r rest' hr hcut' => ?_⟩
    · cases heq.trans hks
      simp
    · rcases hr.eq_or with rfl | ⟨k, s', h, hk, -⟩
      · rw [heq, lexemes_skip hcut'.skip_eq]
      · rw [lexemes_cons h hk] at heq
        obtain ⟨ks, -, hks⟩ := map_eq_ok.mp heq.symm
        cases hks
        exact absurd rfl hk
  · intro hb
    rw [lexemes_skip hcut.skip_eq, hb.comments s rest .refl hcut]

variable (hcut : ∀ rest, ¬ Cuts s rest)
include hcut

theorem breakable_step (h : token (skip s) = .ok (k, s')) (hk : k.1 ≠ .eofToken) :
    Breakable s ↔ Breakable s' ∧ ∀ ks, lexemes s' = .ok ks → newline ∉ k.2 := by
  have hlex := lexemes_cons h hk
  constructor
  · intro hb
    refine ⟨⟨fun ks hks k' hk' => ?_, fun r rest hr => hb.comments r rest (.step h hk hr)⟩, fun ks hks => ?_⟩
    · rw [hks] at hlex
      exact hb.strings _ hlex k' (List.mem_cons_of_mem k hk')
    · rw [hks] at hlex
      exact hb.strings _ hlex k List.mem_cons_self
  · rintro ⟨hb, hnewline⟩
    refine ⟨fun ks hks => ?_, fun r rest hr hcut' => ?_⟩
    · rw [hlex] at hks
      obtain ⟨ks', hks', rfl⟩ := map_eq_ok.mp hks
      exact List.forall_mem_cons.mpr ⟨hnewline ks' hks', hb.strings ks' hks'⟩
    · rcases hr.eq_or with rfl | ⟨k₁, s₁, h₁, -, hr⟩
      · exact absurd hcut' (hcut rest)
      · cases h.symm.trans h₁
        exact hb.comments r rest hr hcut'

theorem breakable_end (h : ∀ k s', token (skip s) = .ok (k, s') → k.1 = .eofToken) :
    Breakable s ↔ ∀ ks, lexemes s = .ok ks → ∀ k ∈ ks, newline ∉ k.2 := by
  refine ⟨Breakable.strings, fun hstrings => ⟨hstrings, fun r rest hr hcut' => ?_⟩⟩
  rcases hr.eq_or with rfl | ⟨k, s', hk, hne, -⟩
  · exact absurd hcut' (hcut rest)
  · exact absurd (h k s' hk) hne

end step

/-- A text keeps its tokens without its line breaks exactly if no string goes over one and
nothing comes after a comment that ends at one. -/
theorem lexemes_unbroken_iff (s : Str) : lexemes (unbroken s) = lexemes s ↔ Breakable s := by
  induction hn : s.length using Nat.strong_induction_on generalizing s with
  | _ n ih =>
    subst hn
    by_cases hcut : ∃ rest, Cuts s rest
    · exact breakable_of_cuts hcut.choose_spec
    rw [not_exists] at hcut
    have hunbroken := token_skip_unbroken hcut
    cases htoken : token (skip s) with
    | error e =>
      have hend := breakable_end hcut fun k s' h => nomatch htoken.symm.trans h
      rw [htoken] at hunbroken
      rw [hend, lexemes_eq s, lexemes_eq (unbroken s), htoken, hunbroken]
      exact ⟨fun _ => nofun, fun _ => rfl⟩
    | ok r =>
      obtain ⟨k, s'⟩ := r
      rw [htoken] at hunbroken
      by_cases hk : k.1 = .eofToken
      · have hend := breakable_end hcut fun k' s₁ h => by
          cases htoken.symm.trans h
          exact hk
        rw [hend, lexemes_eof htoken hk, lexemes_eof hunbroken hk]
        rw [Except.ok.injEq, List.singleton_inj, unbroken_lexeme_iff]
        constructor
        · intro hnewline ks hks
          cases hks
          exact List.forall_mem_singleton.mpr hnewline
        · intro hstrings
          exact hstrings [k] rfl k List.mem_cons_self
      · have hstep := breakable_step hcut htoken hk
        rw [hstep, lexemes_cons htoken hk, lexemes_cons hunbroken hk, map_cons_eq_iff, ih _ (token_length htoken hk) s' rfl]
        simp only [unbroken_lexeme_iff]

end Lexer
end MyDB.Parser

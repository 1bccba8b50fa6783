import MyDB.Database
import MyDB.Parser.LineBreaks

/-! The loop of `main`: lines are gathered until one ends with a semicolon, and the
text that is gathered is executed. The lines are joined with blanks, so a statement of
several lines is not always executed as it was typed. -/

namespace MyDB.Repl
open MyDB.Parser MyDB.Parser.Lexer

def semicolon : UInt8 := 59

/-- `accumulated += (accumulated.empty() ? "" : " ") + line`. -/
def gather (accumulated line : Str) : Str := accumulated ++ ((if accumulated = [] then [] else lit " ") ++ line)

/-- `.quit` or `.exit`. -/
def Ends (line : Str) : Prop := line = lit ".quit" ∨ line = lit ".exit"

instance : DecidablePred Ends := fun _ => inferInstanceAs (Decidable (_ ∨ _))

section loop
variable {S : Type} (execute : Str → EStateM Fault S QueryResult)

/-- The `try` block: an exception is reported, and the loop goes on. -/
def attempt (sql : Str) : EStateM Fault S (Except Fault QueryResult) := fun s =>
  match execute sql s with
  | .ok result s => .ok (.ok result) s
  | .error e s => if e.IsException then .ok (.error e) s else .error e s

/-- The loop of `main` over the lines of the input, and what it prints. -/
def loop : Str → List Str → EStateM Fault S (List (Except Fault QueryResult))
  | _, [] => return []
  | accumulated, line :: lines =>
    if Ends line then return []
    else if line = [] then loop accumulated lines
    else if (gather accumulated line).getLast? = some semicolon then do
      let shown ← attempt execute (gather accumulated line)
      return shown :: (← loop [] lines)
    else loop (gather accumulated line) lines

end loop

/-- The texts that the loop passes to `Execute`. -/
def statements : Str → List Str → List Str
  | _, [] => []
  | accumulated, line :: lines =>
    if Ends line then []
    else if line = [] then statements accumulated lines
    else if (gather accumulated line).getLast? = some semicolon then gather accumulated line :: statements [] lines
    else statements (gather accumulated line) lines

theorem loop_eq_mapM {S : Type} (execute : Str → EStateM Fault S QueryResult) (accumulated : Str) (lines : List Str) :
    loop execute accumulated lines = (statements accumulated lines).mapM (attempt execute) := by
  induction lines generalizing accumulated with
  | nil => rfl
  | cons line lines ih =>
    unfold loop statements
    split_ifs
    · rfl
    · exact ih accumulated
    · rw [List.mapM_cons, ih]
    · exact ih _

/-! ## One statement -/

/-- Lines that are typed for one statement: only the last one ends with a semicolon. -/
structure OneStatement (lines : List Str) : Prop where
  ne_nil : ∀ line ∈ lines, line ≠ []
  newline_not_mem : ∀ line ∈ lines, newline ∉ line
  ends : ∃ init last, lines = init ++ [last] ∧ last.getLast? = some semicolon ∧
    ∀ line ∈ init, line.getLast? ≠ some semicolon

theorem getLast_gather {accumulated line : Str} (h : line ≠ []) : (gather accumulated line).getLast? = line.getLast? := by
  unfold gather
  rw [← List.append_assoc, List.getLast?_append_of_ne_nil _ h]

theorem not_ends {line : Str} (h : line.getLast? = some semicolon) : ¬ Ends line := by
  rintro (rfl | rfl)
  · exact absurd h (by decide +kernel)
  · exact absurd h (by decide +kernel)

theorem statements_concat {accumulated last : Str} {init : List Str} (hne : ∀ line ∈ init ++ [last], line ≠ [])
    (hinit : ∀ line ∈ init, line.getLast? ≠ some semicolon ∧ ¬ Ends line) (hlast : last.getLast? = some semicolon) :
    statements accumulated (init ++ [last]) = [(init ++ [last]).foldl gather accumulated] := by
  induction init generalizing accumulated with
  | nil =>
    have hline : last ≠ [] := hne last List.mem_cons_self
    rw [List.nil_append, statements, if_neg (not_ends hlast), if_neg hline, if_pos ((getLast_gather hline).trans hlast)]
    rfl
  | cons line init ih =>
    rw [List.cons_append, List.forall_mem_cons] at hne
    obtain ⟨⟨hsemicolon, hends⟩, hrest⟩ := List.forall_mem_cons.mp hinit
    rw [List.cons_append, statements, if_neg hends, if_neg hne.1, getLast_gather hne.1, if_neg hsemicolon]
    exact ih hne.2 hrest

theorem statements_of_ends {accumulated : Str} {init lines : List Str} {line : Str}
    (hinit : ∀ line ∈ init, line.getLast? ≠ some semicolon) (hline : line ∈ init) (hends : Ends line) :
    statements accumulated (init ++ lines) = [] := by
  induction init generalizing accumulated with
  | nil => cases hline
  | cons first init ih =>
    obtain ⟨hsemicolon, hrest⟩ := List.forall_mem_cons.mp hinit
    rw [List.cons_append, statements]
    by_cases hfirst : Ends first
    · exact if_pos hfirst
    have hmem : line ∈ init := by
      rcases List.mem_cons.mp hline with rfl | hmem
      · exact absurd hends hfirst
      · exact hmem
    rw [if_neg hfirst]
    by_cases hnil : first = []
    · rw [if_pos hnil]
      exact ih hrest hmem
    · rw [if_neg hnil, getLast_gather hnil, if_neg hsemicolon]
      exact ih hrest hmem

theorem intercalate_cons (c : UInt8) (line : Str) (lines : List Str) :
    List.intercalate [c] (line :: lines) = line ++ lines.flatMap (c :: ·) := by
  induction lines generalizing line with
  | nil => simp [List.intercalate]
  | cons next lines ih =>
    have hnext := ih next
    rw [List.flatMap_cons, List.cons_append, ← hnext]
    simp [List.intercalate]

theorem foldl_gather {accumulated : Str} (hacc : accumulated ≠ []) (lines : List Str) :
    lines.foldl gather accumulated = accumulated ++ lines.flatMap (32 :: ·) := by
  induction lines generalizing accumulated with
  | nil => exact (List.append_nil _).symm
  | cons line lines ih =>
    have hgather : gather accumulated line = accumulated ++ 32 :: line := by
      rw [gather, if_neg hacc]
      rfl
    rw [List.foldl_cons, hgather, ih (by simp), List.flatMap_cons, List.append_assoc]

theorem foldl_gather_nil {lines : List Str} (hne : ∀ line ∈ lines, line ≠ []) :
    lines.foldl gather [] = List.intercalate [32] lines := by
  cases lines with
  | nil => rfl
  | cons line lines =>
    have hline : gather [] line = line := by simp [gather]
    rw [List.foldl_cons, hline, foldl_gather (hne line List.mem_cons_self), intercalate_cons]

theorem unbroken_intercalate {lines : List Str} (h : ∀ line ∈ lines, newline ∉ line) :
    unbroken (List.intercalate [newline] lines) = List.intercalate [32] lines := by
  cases lines with
  | nil => rfl
  | cons line lines =>
    obtain ⟨hline, hrest⟩ := List.forall_mem_cons.mp h
    have hlines : unbroken (lines.flatMap (newline :: ·)) = lines.flatMap (32 :: ·) := by
      unfold unbroken
      rw [List.map_flatMap]
      apply List.flatMap_congr
      intro line hmem
      exact congrArg (32 :: ·) (unbroken_eq_self_iff.mpr (hrest line hmem))
    have happend (a b : Str) : unbroken (a ++ b) = unbroken a ++ unbroken b := List.map_append
    rw [intercalate_cons, intercalate_cons, happend, unbroken_eq_self_iff.mpr hline, hlines]

/-- The text of a statement has the tokens of its lines exactly if no line ends the session,
no string goes over a line break and nothing comes after a comment that ends at one. -/
theorem statements_lexemes_iff {lines : List Str} (h : OneStatement lines) :
    (∃ sql, statements [] lines = [sql] ∧ lexemes sql = lexemes (List.intercalate [newline] lines)) ↔
      (∀ line ∈ lines, ¬ Ends line) ∧ Breakable (List.intercalate [newline] lines) := by
  obtain ⟨init, last, rfl, hlast, hinit⟩ := h.ends
  rw [← lexemes_unbroken_iff, unbroken_intercalate h.newline_not_mem]
  by_cases hends : ∀ line ∈ init ++ [last], ¬ Ends line
  · have hstatements : statements [] (init ++ [last]) = [List.intercalate [32] (init ++ [last])] := by
      rw [← foldl_gather_nil h.ne_nil]
      exact statements_concat h.ne_nil (fun line hl => ⟨hinit line hl, hends line (List.mem_append_left _ hl)⟩) hlast
    rw [hstatements, and_iff_right hends]
    simp
  · have hquit : ∃ line ∈ init, Ends line := by
      push Not at hends
      obtain ⟨line, hmem, hline⟩ := hends
      rcases List.mem_append.mp hmem with hmem | hmem
      · exact ⟨line, hmem, hline⟩
      · exact absurd hline (not_ends (List.mem_singleton.mp hmem ▸ hlast))
    obtain ⟨line, hmem, hline⟩ := hquit
    rw [statements_of_ends hinit hmem hline]
    constructor
    · rintro ⟨sql, hsql, -⟩
      cases hsql
    · exact fun hall => absurd hall.1 hends

theorem statements_lexemes_two : let lines := [lit "SELECT a", lit "FROM t;"]
    statements [] lines = [lit "SELECT a FROM t;"] ∧ (∀ line ∈ lines, ¬ Ends line) ∧
      Breakable (List.intercalate [newline] lines) := by
  intro lines
  have hone : OneStatement lines := ⟨by decide +kernel, by decide +kernel, [lit "SELECT a"], lit "FROM t;", rfl,
    by decide +kernel, by decide +kernel⟩
  have hsql : statements [] lines = [lit "SELECT a FROM t;"] := by decide +kernel
  exact ⟨hsql, (statements_lexemes_iff hone).mp ⟨_, hsql, by decide +kernel⟩⟩

/-- A comment takes the lines after it. -/
theorem comment_takes_lines : ∃ lines, OneStatement lines ∧ lines = [lit "SELECT a -- all", lit "FROM t;"] ∧
    statements [] lines = [lit "SELECT a -- all FROM t;"] ∧
    lexemes (lit "SELECT a -- all FROM t;") = .ok [(.select, lit "SELECT"), (.identifier, lit "a"), (.eofToken, [])] ∧
    lexemes (List.intercalate [newline] lines) = .ok [(.select, lit "SELECT"), (.identifier, lit "a"),
      (.from, lit "FROM"), (.identifier, lit "t"), (.semicolon, lit ";"), (.eofToken, [])] := by
  refine ⟨_, ⟨?_, ?_, [lit "SELECT a -- all"], lit "FROM t;", rfl, ?_, ?_⟩, rfl, ?_, ?_, ?_⟩ <;> decide +kernel

end MyDB.Repl

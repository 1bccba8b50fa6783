import MyDB.Database
import MyDB.Executor.Columns

/-! Which column a reference stands for. A column matches a reference by its full
name, and an unqualified reference also by the part after the dot. `GetColumnIdx`
takes the first column with that full name, counts the others only where there is
none, and for a qualified reference falls back to the bare name. -/

namespace MyDB.Schema
open Lib
variable {schema : Schema} {name : Str} {i : Nat} {c : Column}

def Matches (name : Str) (c : Column) : Prop := c.name = name ∨ dotChar ∉ name ∧ afterDot c.name = some name

instance (name : Str) (c : Column) : Decidable (Matches name c) := inferInstanceAs (Decidable (_ ∨ _))

def matching (schema : Schema) (name : Str) : List Nat := schema.columns.findIdxs fun c => Matches name c

/-- An index is returned for the only column that matches. -/
def Unique (schema : Schema) (name : Str) : Prop := ∀ i, schema.getColumnIdx name = .ok i → schema.matching name = [i]

theorem mem_matching : i ∈ schema.matching name ↔ ∃ c, schema.columns[i]? = some c ∧ Matches name c := by
  unfold matching
  rw [List.mem_findIdxs_iff_exists_getElem_pos]
  constructor
  · rintro ⟨hlt, hm⟩
    exact ⟨_, List.getElem?_eq_getElem hlt, of_decide_eq_true hm⟩
  · rintro ⟨c, hc, hm⟩
    obtain ⟨hlt, rfl⟩ := List.getElem?_eq_some_iff.mp hc
    exact ⟨hlt, decide_eq_true hm⟩

theorem findIdxs_congr {α : Type} {p q : α → Bool} {l : List α} (h : ∀ x ∈ l, p x = q x) (start : Nat) :
    l.findIdxs p start = l.findIdxs q start := by
  induction l generalizing start with
  | nil => rfl
  | cons x l ih =>
    simp only [List.findIdxs_cons]
    rw [h x List.mem_cons_self, ih fun y hy => h y (List.mem_cons_of_mem x hy)]

theorem findIdx?_name (h : schema.columns.findIdx? (·.name = name) = some i) :
    ∃ c, schema.columns[i]? = some c ∧ c.name = name := by
  obtain ⟨hlt, hname, -⟩ := List.findIdx?_eq_some_iff_getElem.mp h
  exact ⟨_, List.getElem?_eq_getElem hlt, of_decide_eq_true hname⟩

theorem exists_findIdx? (hc : c ∈ schema.columns) (hname : c.name = name) :
    ∃ j, schema.columns.findIdx? (·.name = name) = some j := by
  apply Option.isSome_iff_exists.mp
  rw [List.findIdx?_isSome, List.any_eq_true]
  exact ⟨c, hc, decide_eq_true hname⟩

theorem findIdx?_eq_none : schema.columns.findIdx? (·.name = name) = none ↔ ∀ c ∈ schema.columns, c.name ≠ name := by
  simp

theorem matching_of_none (hnone : ∀ c ∈ schema.columns, c.name ≠ name) (hdot : afterDot name = none) :
    schema.matching name = schema.unqualified name := by
  have hplain : dotChar ∉ name := by
    intro hmem
    simp [afterDot, hmem] at hdot
  apply findIdxs_congr
  intro c hc
  simp [Matches, hnone c hc, hplain]

theorem getColumnIdx_of_matching (h : schema.matching name = [i]) : schema.getColumnIdx name = .ok i := by
  obtain ⟨c, hc, hmatch⟩ := mem_matching.mp (h ▸ List.mem_singleton_self i)
  by_cases hnone : ∀ c ∈ schema.columns, c.name ≠ name
  · rcases hmatch with hname | ⟨hdot, -⟩
    · exact absurd hname (hnone c (List.mem_of_getElem? hc))
    · have hafter : afterDot name = none := if_neg hdot
      rw [matching_of_none hnone hafter] at h
      exact getColumnIdx_eq_ok.mpr (Or.inr ⟨findIdx?_eq_none.mpr hnone, Or.inl ⟨hafter, h⟩⟩)
  · simp only [ne_eq, not_forall, not_not] at hnone
    obtain ⟨c', hc', hname⟩ := hnone
    obtain ⟨j, hj⟩ := exists_findIdx? hc' hname
    obtain ⟨d, hd, hdname⟩ := findIdx?_name hj
    have hmem : j ∈ schema.matching name := mem_matching.mpr ⟨d, hd, Or.inl hdname⟩
    rw [h, List.mem_singleton] at hmem
    exact getColumnIdx_eq_ok.mpr (Or.inl (hmem ▸ hj))

/-- For every schema and reference: an index is returned only for a single match,
exactly if a column with the full name of the reference is the only match, and a
qualified reference without such a column has no column with the bare name. -/
theorem getColumnIdx_unique_iff : schema.Unique name ↔
    (∀ (i : Nat) c, schema.columns[i]? = some c → c.name = name → schema.matching name = [i]) ∧
    ∀ unqual, afterDot name = some unqual → (∀ c ∈ schema.columns, c.name ≠ name) → ∀ c ∈ schema.columns, c.name ≠ unqual := by
  constructor
  · intro h
    constructor
    · intro i c hc hname
      obtain ⟨j, hj⟩ := exists_findIdx? (List.mem_of_getElem? hc) hname
      have hone := h j (getColumnIdx_eq_ok.mpr (Or.inl hj))
      have hi : i ∈ schema.matching name := mem_matching.mpr ⟨c, hc, Or.inl hname⟩
      rw [hone, List.mem_singleton] at hi
      rw [hone, hi]
    · intro unqual hunqual hnone c hc hname
      obtain ⟨j, hj⟩ := exists_findIdx? hc hname
      have hone := h j (getColumnIdx_eq_ok.mpr (Or.inr ⟨findIdx?_eq_none.mpr hnone, Or.inr ⟨unqual, hunqual, hj⟩⟩))
      obtain ⟨c', hc', hmatch⟩ := mem_matching.mp (hone ▸ List.mem_singleton_self j)
      rcases hmatch with hfull | ⟨hdot, -⟩
      · exact hnone c' (List.mem_of_getElem? hc') hfull
      · simp [afterDot, hdot] at hunqual
  · rintro ⟨hfull, hbare⟩ i hi
    rcases getColumnIdx_eq_ok.mp hi with hfound | ⟨hnone, ⟨hdot, hone⟩ | ⟨unqual, hunqual, hfound⟩⟩
    · obtain ⟨c, hc, hname⟩ := findIdx?_name hfound
      exact hfull i c hc hname
    · rw [matching_of_none (findIdx?_eq_none.mp hnone) hdot, hone]
    · obtain ⟨c, hc, hname⟩ := findIdx?_name hfound
      exact absurd hname (hbare unqual hunqual (findIdx?_eq_none.mp hnone) c (List.mem_of_getElem? hc))

end MyDB.Schema

namespace MyDB.Planner
open MyDB.Parser MyDB.Executor

/-- `SELECT t.x FROM t JOIN t ON t.x = t.x`. -/
def selfJoin : SelectStmt :=
  ⟨[⟨.columnRef (lit "t") (lit "x"), []⟩], lit "t", [],
    [⟨lit "t", [], .binaryOp .eq (.columnRef (lit "t") (lit "x")) (.columnRef (lit "t") (lit "x"))⟩], none, [], []⟩

/-- Both columns of the join are `t.x`, and the first is taken. -/
theorem selfJoin_first : Database.parseSql (lit "SELECT t.x FROM t JOIN t ON t.x = t.x") = .ok (.select selfJoin) ∧
    ∃ input, planInput ⟨[⟨lit "t", ⟨[⟨lit "x", .int⟩]⟩, ⟨⟨[⟨lit "x", .int⟩]⟩, 0, 0⟩⟩]⟩ selfJoin = .ok input ∧
      input.outputSchema.getColumnIdx (lit "t.x") = .ok 0 ∧ input.outputSchema.matching (lit "t.x") = [0, 1] := by
  refine ⟨by decide +kernel, _, rfl, ?_, ?_⟩
  · decide +kernel
  · decide +kernel

end MyDB.Planner

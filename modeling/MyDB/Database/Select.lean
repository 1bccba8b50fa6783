import MyDB.Database
import MyDB.Parser.Names
import MyDB.Planner.PlanRows

/-! What a `SELECT` answers: the rows of its plan, as text. -/

namespace MyDB.Database
open MyDB.Storage MyDB.Parser MyDB.Executor MyDB.Lib

/-- The statement returns the rows of text `cells`. -/
def Returns {σ : Type} (env : Env σ) (catalog : Catalog) (stmt : SelectStmt) (s : σ) (cells : List (List Str)) (s' : σ) :
    Prop :=
  ∃ op out, Planner.plan catalog stmt = .ok op ∧ op.Evaluates env s out s' ∧
    out.mapM (rowCells op.outputSchema) = .ok cells

theorem Returns.unique {σ : Type} {env : Env σ} {catalog : Catalog} {stmt : SelectStmt} {s s₁ s₂ : σ}
    {cells₁ cells₂ : List (List Str)} (h₁ : Returns env catalog stmt s cells₁ s₁)
    (h₂ : Returns env catalog stmt s cells₂ s₂) : cells₁ = cells₂ ∧ s₁ = s₂ := by
  obtain ⟨op₁, out₁, hplan₁, hrun₁, hcells₁⟩ := h₁
  obtain ⟨op₂, out₂, hplan₂, hrun₂, hcells₂⟩ := h₂
  cases hplan₁.symm.trans hplan₂
  obtain ⟨rfl, rfl⟩ := hrun₁.unique hrun₂
  exact ⟨Except.ok.inj (hcells₁.symm.trans hcells₂), rfl⟩

theorem rowCells_eq {schema : Schema} {t : Tuple} {vs : List Value} (h : rowValues schema t = .ok vs) :
    rowCells schema t = .ok (vs.map Value.toString) := by
  rw [rowValues, mapM_eq_ok] at h
  rw [rowCells, mapM_eq_ok, List.forall₂_map_right_iff]
  refine List.Forall₂.imp (fun i v hv => ?_) h
  rw [hv]
  rfl

theorem onPages_eq_ok {σ α : Type} {x : EStateM Fault σ α} {db db' : Database σ} {a : α} :
    onPages x db = .ok a db' ↔ ∃ pages, x db.pages = .ok a pages ∧ db' = { db with pages } := by
  rw [onPages]
  cases x db.pages with
  | ok b pages =>
    constructor
    · intro h
      cases h
      exact ⟨pages, rfl, rfl⟩
    · rintro ⟨_, h, rfl⟩
      cases h
      rfl
  | error e pages =>
    constructor
    · intro h
      cases h
    · rintro ⟨_, h, -⟩
      cases h

theorem parseSql_plain {sql : Str} {stmt : Statement} (h : parseSql sql = .ok stmt) : stmt.Plain := by
  rw [parseSql] at h
  cases htok : Lexer.tokenize sql with
  | error e =>
    simp only [htok] at h
    cases h
  | ok tokens =>
    simp only [htok] at h
    cases hparse : Parser.parse tokens with
    | error e rest =>
      rw [hparse] at h
      cases h
    | ok stmt' rest =>
      rw [hparse] at h
      cases h
      exact parse_plain htok hparse

section select
variable {σ P : Type} {bpm : PageStore σ HeapPage P} {outside : Env σ} {stmt : SelectStmt} {db db' : Database σ}

theorem execSelect_eq_ok (hstd : Operator.Lawful outside.std) {result : QueryResult} :
    execSelect bpm outside stmt db = .ok result db' ↔
      ∃ op out pages cells, Planner.plan db.catalog stmt = .ok op ∧
        op.Evaluates (env bpm outside) db.pages out pages ∧ out.mapM (rowCells op.outputSchema) = .ok cells ∧
        result = ⟨op.outputSchema.columns.map (·.name), cells, []⟩ ∧ db' = { db with pages } := by
  have hbody (op : Operator) : ∀ acc t, addRow op.outputSchema acc t =
      (rowCells op.outputSchema t).map fun cells => acc ++ [cells] := by
    intro acc t
    rw [addRow]
    cases rowCells op.outputSchema t with
    | ok cells => rfl
    | error e => rfl
  have hstd' : Operator.Lawful (env bpm outside).std := hstd
  constructor
  · intro h
    obtain ⟨op, hplan, h⟩ := ofExcept_bind_eq_ok.mp h
    obtain ⟨st, db₁, hpages, h⟩ := run_bind_eq_ok.mp h
    obtain ⟨pages, hinit, rfl⟩ := onPages_eq_ok.mp hpages
    obtain ⟨⟨cells, st'⟩, hc, h⟩ := ofExcept_bind_eq_ok.mp h
    cases h
    obtain ⟨out, hout, hfold⟩ := (Operator.feeds_iff hstd').mp ⟨st, st', hinit, hc⟩
    obtain ⟨_, hcells, rfl⟩ := (foldlM_append_eq_ok (hbody op)).mp hfold
    exact ⟨op, out, pages, _, hplan, hout, hcells, rfl, rfl⟩
  · rintro ⟨op, out, pages, cells, hplan, hout, hcells, rfl, rfl⟩
    obtain ⟨st, st', hinit, hc⟩ := (Operator.feeds_iff hstd').mpr
      ⟨out, hout, (foldlM_append_eq_ok (hbody op)).mpr ⟨cells, hcells, rfl⟩⟩
    refine ofExcept_bind_eq_ok.mpr ⟨op, hplan, ?_⟩
    refine run_bind_eq_ok.mpr ⟨st, _, onPages_eq_ok.mpr ⟨pages, hinit, rfl⟩, ?_⟩
    exact ofExcept_bind_eq_ok.mpr ⟨_, hc, rfl⟩

end select

/-- The answers to statements given one after the other to a new database with a pool
of one frame. -/
def answers (sqls : List Str) : Except Fault (List QueryResult) :=
  let outside : Env (BufferPool HeapPage 1) :=
    ⟨fun _ => pure [], fun _ _ => pure [], fun _ _ _ _ => pure [], Operator.insertionStd⟩
  match (sqls.mapM (execute BufferPool.store outside)) ⟨⟨[]⟩, BufferPool.init 1 ⟨0, fun _ => 0⟩⟩ with
  | .ok results _ => .ok results
  | .error e _ => .error e

end MyDB.Database

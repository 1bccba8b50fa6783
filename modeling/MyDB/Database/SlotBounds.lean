import MyDB.Database

/-! The sizes of tuples that `CREATE TABLE` lets through. `InsertTuple` stays within
its page exactly when a tuple has at least one byte and fits behind the header. -/

namespace MyDB.Database
open MyDB.Storage MyDB.Storage.HeapFile MyDB.Parser MyDB.Lib

variable {n : Nat} {s : BufferPool HeapPage n} {m : PageMap HeapPage} {schema : Schema}

/-- `InsertTuple` on a heap file of the schema, in any state of the file and of the
pool, divides by a size that is not zero and writes within the page. -/
def InBounds (schema : Schema) : Prop :=
  ∀ (n : Nat) (s s' : BufferPool HeapPage n) (m : PageMap HeapPage) (hf : HeapFile) (ids : List PageId)
    (tuple : Tuple) (e : Fault), Holds s m → Represents m hf ids → hf.schema = schema →
    tuple.length = schema.getTupleSize → hf.insertTuple BufferPool.store tuple s = .error e s' →
    e ≠ .divisionByZero ∧ e ≠ .outOfBounds

theorem insertTuple_pool_error (hs : Holds s m) {hf : HeapFile} {tuple : Tuple} {e : Fault} {m' : PageMap HeapPage}
    (hrun : hf.insertTuple PageMap.store tuple m = .error e m') (he : e ≠ .lostWrite) :
    ∃ s', hf.insertTuple BufferPool.store tuple s = .error e s' := by
  obtain ⟨s', h, -⟩ := (insertTuple_refines hf tuple).error (live_nil.mpr hs) hrun he
  exact ⟨s', h⟩

theorem create_insertTuple_sizeZero (schema : Schema) (hs : Holds s m) (hfree : m.free ≠ 0) (hzero : schema.getTupleSize = 0)
    (tuple : Tuple) : ∃ hf s₁ s₂, HeapFile.create BufferPool.store schema s = .ok hf s₁ ∧
      hf.insertTuple BufferPool.store tuple s₁ = .error .divisionByZero s₂ := by
  obtain ⟨s₁, hrun, hs₁⟩ := create_pool hs hfree schema
  have hfree₁ : (m.grow { (0 : HeapPage) with nextPageId := invalidPageId }).free ≠ 0 := hfree
  have herr := insertTuple_sizeZero hfree₁ (create_represents m schema) hzero tuple
  obtain ⟨s₂, h⟩ := insertTuple_pool_error hs₁ herr (by decide)
  exact ⟨_, s₁, s₂, hrun, h⟩

theorem create_insertTuple_oversize (schema : Schema) (hs : Holds s m) (hfree : m.free ≠ 0)
    (hsize : pageSize - heapHeaderSize < schema.getTupleSize) (tuple : Tuple) :
    ∃ hf s₁ s₂, HeapFile.create BufferPool.store schema s = .ok hf s₁ ∧
      hf.insertTuple BufferPool.store tuple s₁ = .error .outOfBounds s₂ := by
  obtain ⟨s₁, hrun, hs₁⟩ := create_pool hs hfree schema
  obtain ⟨m₂, hm₂⟩ := insertTuple_oversize hs₁.wf hfree (create_represents m schema) hsize tuple
  obtain ⟨s₂, h⟩ := insertTuple_pool_error hs₁ hm₂ (by decide)
  exact ⟨_, s₁, s₂, hrun, h⟩

theorem inBounds_of_size (hpos : 0 < schema.getTupleSize)
    (hsize : schema.getTupleSize ≤ pageSize - heapHeaderSize) : InBounds schema := by
  intro n s s' m hf ids tuple e hs hrep hschema htuple herr
  subst hschema
  obtain ⟨r, m', hm'⟩ := insertTuple_returns hs.wf hrep hpos hsize htuple
  obtain ⟨_, s'', hok, -⟩ := (insertTuple_refines hf tuple).ok (live_nil.mpr hs) hm'
  cases herr.symm.trans hok

theorem not_inBounds_of_error (hs : Holds s m) (hfree : m.free ≠ 0) {hf : HeapFile} {s₁ s₂ : BufferPool HeapPage n}
    {tuple : Tuple} (htuple : tuple.length = schema.getTupleSize) {e : Fault}
    (hcreate : HeapFile.create BufferPool.store schema s = .ok hf s₁)
    (hinsert : hf.insertTuple BufferPool.store tuple s₁ = .error e s₂)
    (he : e = .divisionByZero ∨ e = .outOfBounds) : ¬ InBounds schema := by
  intro h
  obtain ⟨_, hrun, hs₁⟩ := create_pool hs hfree schema
  cases hcreate.symm.trans hrun
  obtain ⟨h1, h2⟩ := h n s₁ s₂ _ _ _ tuple e hs₁ (create_represents m schema) rfl htuple hinsert
  exact he.elim h1 h2

theorem insertTuple_inBounds_iff (stmt : CreateTableStmt) :
    InBounds (createSchema stmt) ↔
      1 ≤ (createSchema stmt).getTupleSize ∧ (createSchema stmt).getTupleSize ≤ 4088 := by
  constructor
  · intro h
    have hs := holds_init (n := 1) (D := HeapPage) ⟨0, fun _ => 0⟩
    have hfree : (BufferPool.init 1 ⟨0, fun _ => 0⟩ : BufferPool HeapPage 1).view.free ≠ 0 := by decide
    have htuple : (List.replicate (createSchema stmt).getTupleSize (0 : UInt8)).length = _ := List.length_replicate
    by_contra hsize
    rcases Nat.eq_zero_or_pos (createSchema stmt).getTupleSize with hzero | hpos
    · obtain ⟨hf, s₁, s₂, hcreate, hinsert⟩ := create_insertTuple_sizeZero _ hs hfree hzero (List.replicate _ 0)
      exact not_inBounds_of_error hs hfree htuple hcreate hinsert (Or.inl rfl) h
    · have hover : pageSize - heapHeaderSize < (createSchema stmt).getTupleSize :=
        Nat.lt_of_not_le fun hle => hsize ⟨hpos, hle⟩
      obtain ⟨hf, s₁, s₂, hcreate, hinsert⟩ := create_insertTuple_oversize _ hs hfree hover (List.replicate _ 0)
      exact not_inBounds_of_error hs hfree htuple hcreate hinsert (Or.inr rfl) h
  · rintro ⟨hpos, hsize⟩
    exact inBounds_of_size hpos hsize

/-- A table with one empty column, and one whose tuples are longer than a page. -/
theorem insertTuple_varchar_sizes :
    (∃ stmt hf s₁ s₂, parseSql (lit "CREATE TABLE t (a VARCHAR(0))") = .ok (.createTable stmt) ∧
      HeapFile.create BufferPool.store (createSchema stmt) (BufferPool.init 1 ⟨0, fun _ => 0⟩) = .ok hf s₁ ∧
      hf.insertTuple BufferPool.store [] s₁ = .error .divisionByZero s₂) ∧
    ∃ stmt hf s₁ s₂, parseSql (lit "CREATE TABLE t (a VARCHAR(5000))") = .ok (.createTable stmt) ∧
      HeapFile.create BufferPool.store (createSchema stmt) (BufferPool.init 1 ⟨0, fun _ => 0⟩) = .ok hf s₁ ∧
      hf.insertTuple BufferPool.store (List.replicate 5000 120) s₁ = .error .outOfBounds s₂ := by
  have hs := holds_init (n := 1) (D := HeapPage) ⟨0, fun _ => 0⟩
  have hfree : (BufferPool.init 1 ⟨0, fun _ => 0⟩ : BufferPool HeapPage 1).view.free ≠ 0 := by decide
  constructor
  · obtain ⟨hf, s₁, s₂, hcreate, hinsert⟩ := create_insertTuple_sizeZero
      (createSchema ⟨lit "t", [⟨lit "a", .varchar, 0⟩]⟩) hs hfree (by decide) []
    exact ⟨_, hf, s₁, s₂, by decide +kernel, hcreate, hinsert⟩
  · obtain ⟨hf, s₁, s₂, hcreate, hinsert⟩ := create_insertTuple_oversize
      (createSchema ⟨lit "t", [⟨lit "a", .varchar, 5000⟩]⟩) hs hfree (by decide) (List.replicate 5000 120)
    exact ⟨_, hf, s₁, s₂, by decide +kernel, hcreate, hinsert⟩

end MyDB.Database

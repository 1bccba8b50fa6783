import MyDB.Lib.Fallible
import MyDB.Storage.HeapRows
import MyDB.Storage.PoolClients

/-! The heap file as an append-only log. Other clients may pin and unpin pages
between any two of its calls on the pool, and so `InsertTuple` may fail at each of
them: it has then appended nothing, or an empty page. -/

namespace MyDB.Storage.HeapFile
open Lib PageMap
variable {n : Nat} {m m' : PageMap HeapPage} {hf : HeapFile} {ids : List PageId} {c : Clients HeapPage n}

/-! ## One call -/

theorem Represents.keeps (h : Represents m hf ids) (hk : m.Keeps m') : Appended m hf ids [] m' hf ids := by
  have heq (p : PageId) (hp : p ∈ ids) : m'.contents p = m.contents p := hk.contents_eq p (h.chain.range p hp).2
  obtain ⟨hrep, hentries⟩ := h.congr hk.numPages_le heq
  refine ⟨rfl, rfl, hrep, ?_, ⟨hk.numPages_le, fun p hp _ => hk.contents_eq p hp, fun p hp => Or.inl hp⟩⟩
  rw [hentries, List.append_nil]

theorem Appended.keeps {hf' : HeapFile} {ids' : List PageId} {more : List (RID × Tuple)} {m'' : PageMap HeapPage}
    (h : Appended m hf ids more m' hf' ids') (hk : m'.Keeps m'') : Appended m hf ids more m'' hf' ids' := by
  have htrans := h.trans (h.represents.keeps hk)
  rwa [List.append_nil] at htrans

theorem allocateHeapPage_shared (h : Sharing none false c m) :
    ∃ c' m', Sharing none false c' m' ∧ ((allocateHeapPage Clients.store c = .ok none c' ∧ m.Keeps m') ∨
      ∃ m₁, m.Keeps m₁ ∧ allocateHeapPage Clients.store c = .ok (some (m₁.numPages : PageId)) c' ∧
        (m₁.grow { (0 : HeapPage) with nextPageId := invalidPageId }).Keeps m') := by
  obtain ⟨c₁, m₁, hk, ⟨hnew, h₁⟩ | ⟨f, hnew, h₁⟩⟩ := h.newPage
  · refine ⟨c₁, m₁, h₁, Or.inl ⟨?_, hk⟩⟩
    rw [allocateHeapPage, bind_ok hnew]
    rfl
  · have hzero : m₁.alloc.contents m₁.numPages = 0 := Function.update_self ..
    obtain ⟨c₂, hwrite, h₂⟩ := h₁.writeData { (0 : HeapPage) with numTuples := 0, nextPageId := invalidPageId }
    obtain ⟨b, c₃, m₃, hunpin, h₃, hk₃⟩ := h₂.unpinPage true fun _ => rfl
    refine ⟨c₃, m₃, h₃, Or.inr ⟨m₁, hk, ?_, ⟨hk₃.numPages_le, fun p hp => ?_⟩⟩⟩
    · rw [allocateHeapPage, bind_ok hnew]
      dsimp only
      rw [bind_ok h₁.readData, hzero, bind_ok hwrite, bind_ok hunpin]
      rfl
    · rw [hk₃.contents_eq p hp]
      exact congrFun (Function.update_idem ..) p

theorem insertAt_shared {f : Fin n} (h : Sharing (some (hf.lastPageId, f)) false c m) (hrep : Represents m hf ids)
    {tuple : Tuple} (ht : tuple.length = hf.schema.getTupleSize)
    (hroom : ((m.contents hf.lastPageId).numTuples + 1) * hf.schema.getTupleSize ≤ pageSize - heapHeaderSize) :
    ∃ rid c' m', insertAt Clients.store hf f tuple c = .ok (some rid, hf) c' ∧ Sharing none false c' m' ∧
      Appended m hf ids [(rid, tuple)] m' hf ids := by
  obtain ⟨d, hput, hnext, hfits, hmore⟩ := put_slot ht hroom hf.lastPageId
  let d' : HeapPage := { d with numTuples := (m.contents hf.lastPageId).numTuples + 1 }
  obtain ⟨c₁, hwrite, h₁⟩ := h.writeData d'
  obtain ⟨b, c₂, m₂, hunpin, h₂, hk⟩ := h₁.unpinPage true fun _ => rfl
  have hput' : (m.put hf.lastPageId d').Keeps m₂ := ⟨hk.numPages_le, hk.contents_eq⟩
  refine ⟨_, c₂, m₂, ?_, h₂, (hrep.put_last (d := d') hnext hfits hmore).keeps hput'⟩
  rw [insertAt, bind_ok h.readData, if_neg ht.not_lt, List.take_of_length_le ht.le, hput]
  dsimp only
  rw [bind_ok hwrite, bind_ok hunpin]
  rfl

theorem Represents.linked_keeps (h : Represents m hf ids) {m₁ : PageMap HeapPage}
    (hk : (m.grow { (0 : HeapPage) with nextPageId := invalidPageId }).Keeps m₁) (hk₁ : (m₁.write hf.lastPageId
      { m₁.contents hf.lastPageId with nextPageId := m.numPages }).Keeps m') : (HeapFile.linked m hf).Keeps m' := by
  have hlast : m₁.contents hf.lastPageId = m.contents hf.lastPageId := by
    rw [hk.contents_eq _ (h.last_range.2.trans (Int.ofNat_lt.mpr (Nat.lt_succ_self _)))]
    exact Function.update_of_ne h.last_range.2.ne _ _
  rw [hlast] at hk₁
  have hwrite : (HeapFile.linked m hf).Keeps (m₁.write hf.lastPageId
      { m.contents hf.lastPageId with nextPageId := m.numPages }) := hk.update rfl rfl rfl rfl
  exact hwrite.trans hk₁

/-- Whatever the others do, `InsertTuple` returns; it has appended the tuple if it
returns true, and nothing otherwise. -/
theorem insertTuple_shared (h : Sharing none false c m) (hrep : Represents m hf ids)
    (hpos : 0 < hf.schema.getTupleSize) (hsize : hf.schema.getTupleSize ≤ pageSize - heapHeaderSize) {tuple : Tuple}
    (ht : tuple.length = hf.schema.getTupleSize) :
    ∃ r hf' c' m' ids', insertTuple Clients.store hf tuple c = .ok (r, hf') c' ∧ Sharing none false c' m' ∧
      Appended m hf ids (r.toList.map (·, tuple)) m' hf' ids' := by
  obtain ⟨r, c₁, m₁, hfetch, h₁, hk₁⟩ := h.fetchPage hrep.last_range
  have hrep₁ := hrep.keeps hk₁
  rw [insertTuple, bind_ok hfetch]
  cases r with
  | none => exact ⟨none, hf, c₁, m₁, ids, rfl, h₁, hrep₁⟩
  | some f =>
    dsimp only
    rw [bind_ok h₁.readData, bind_ok (ofExcept_ok (maxTuplesPerPage_ok hpos) _)]
    split_ifs with hroom
    · obtain ⟨rid, c₂, m₂, hrun, h₂, happ⟩ :=
        insertAt_shared h₁ hrep₁.represents ht ((Nat.le_div_iff_mul_le hpos).mp hroom)
      exact ⟨some rid, hf, c₂, m₂, ids, hrun, h₂, hrep₁.trans happ⟩
    · obtain ⟨_, c₂, m₂, hunpin, h₂, hk₂⟩ := h₁.unpinPage false fun e => absurd e Bool.false_ne_true
      rw [bind_ok hunpin]
      obtain ⟨c₃, m₃, h₃, ⟨halloc, hk₃⟩ | ⟨m₀, hk₀, halloc, hk₃⟩⟩ := allocateHeapPage_shared h₂
      · rw [bind_ok halloc]
        exact ⟨none, hf, c₃, m₃, ids, rfl, h₃, hrep₁.keeps (hk₂.trans hk₃)⟩
      rw [bind_ok halloc]
      dsimp only
      -- the new page exists, and is not linked yet
      have hrep₀ := hrep₁.keeps (hk₂.trans hk₀)
      have hgrow : m₀.Keeps (m₀.grow { (0 : HeapPage) with nextPageId := invalidPageId }) :=
        ⟨Nat.le_succ _, fun p hp => Function.update_of_ne hp.ne _ _⟩
      have hrep₃ := hrep₀.keeps (hgrow.trans hk₃)
      obtain ⟨r, c₄, m₄, hfetch, h₄, hk₄⟩ := h₃.fetchPage hrep₃.represents.last_range
      rw [bind_ok hfetch]
      cases r with
      | none => exact ⟨none, hf, c₄, m₄, ids, rfl, h₄, hrep₃.keeps hk₄⟩
      | some f =>
        dsimp only
        obtain ⟨c₅, hwrite, h₅⟩ := h₄.writeData { m₄.contents hf.lastPageId with nextPageId := m₀.numPages }
        obtain ⟨_, c₆, m₆, hunpin, h₆, hk₆⟩ := h₅.unpinPage true fun _ => rfl
        rw [bind_ok h₄.readData, bind_ok hwrite, bind_ok hunpin]
        have hlinked := hrep₀.represents.linked_keeps (hk₃.trans hk₄) hk₆
        have hrep₆ := (hrep₀.trans hrep₀.represents.linked).keeps hlinked
        obtain ⟨r, c₇, m₇, hfetch, h₇, hk₇⟩ := h₆.fetchPage hrep₆.represents.last_range
        rw [bind_ok hfetch]
        have hrep₇ := hrep₆.keeps hk₇
        cases r with
        | none => exact ⟨none, _, c₇, m₇, _, rfl, h₇, hrep₇⟩
        | some f =>
          have hnew : m₇.contents m₀.numPages = { (0 : HeapPage) with nextPageId := invalidPageId } := by
            rw [(hlinked.trans hk₇).contents_eq _ (Int.ofNat_lt.mpr (Nat.lt_succ_self _))]
            exact contents_linked hrep₀.represents
          have hroom : ((m₇.contents m₀.numPages).numTuples + 1) * hf.schema.getTupleSize ≤ pageSize - heapHeaderSize := by
            rw [hnew]
            exact (Nat.one_mul _).le.trans hsize
          obtain ⟨rid, c₈, m₈, hrun, h₈, happ⟩ := insertAt_shared h₇ hrep₇.represents ht hroom
          exact ⟨some rid, _, c₈, m₈, _, hrun, h₈, hrep₇.trans happ⟩

/-! ## Runs -/

/-- Calls of `InsertTuple`, each under a schedule of its own; one that returns false
has no `RID`. -/
inductive Inserts : Clients HeapPage n → HeapFile → List (Tuple × Option RID) → Clients HeapPage n → HeapFile → Prop
  | nil (c : Clients HeapPage n) (hf : HeapFile) : Inserts c hf [] c hf
  | call {c c₁ c₂ : Clients HeapPage n} {hf hf₁ hf₂ : HeapFile} {log : List (Tuple × Option RID)} {tuple : Tuple}
      {r : Option RID} (h : Inserts c hf log c₁ hf₁) (schedule : List (List ClientCall))
      (ht : tuple.length = hf.schema.getTupleSize)
      (hrun : insertTuple Clients.store hf₁ tuple { c₁ with schedule } = .ok (r, hf₂) c₂) :
      Inserts c hf (log ++ [(tuple, r)]) c₂ hf₂

def inserted (log : List (Tuple × Option RID)) : List (RID × Tuple) := log.filterMap fun x => x.2.map (·, x.1)

theorem inserted_concat (log : List (Tuple × Option RID)) (tuple : Tuple) (r : Option RID) :
    inserted (log ++ [(tuple, r)]) = inserted log ++ r.toList.map (·, tuple) := by
  rw [inserted, inserted, List.filterMap_append]
  cases r with
  | none => rfl
  | some rid => rfl

section runs
variable {c' : Clients HeapPage n} {hf' : HeapFile} {log : List (Tuple × Option RID)}

theorem Inserts.appended (hruns : Inserts c hf log c' hf') (h : Sharing none false c m) (hrep : Represents m hf ids)
    (hpos : 0 < hf.schema.getTupleSize) (hsize : hf.schema.getTupleSize ≤ pageSize - heapHeaderSize) :
    ∃ m' ids', Sharing none false c' m' ∧ Appended m hf ids (inserted log) m' hf' ids' := by
  induction hruns with
  | nil => exact ⟨m, ids, h, hrep.keeps (.refl m)⟩
  | @call c₁ c₂ hf hf₁ hf₂ log tuple r _ schedule ht hrun ih =>
    obtain ⟨m₁, ids₁, h₁, happ⟩ := ih hrep hpos hsize
    have h₁' : Sharing none false { c₁ with schedule } m₁ := ⟨h₁.live, h₁.pins_eq, h₁.pending⟩
    rw [← happ.schema_eq] at hpos hsize ht
    obtain ⟨_, _, _, m₂, ids₂, hrun', h₂, happ'⟩ := insertTuple_shared h₁' happ.represents hpos hsize ht
    cases hrun.symm.trans hrun'
    refine ⟨m₂, ids₂, h₂, ?_⟩
    rw [inserted_concat]
    exact happ.trans happ'

end runs

/-! ## Scans -/

/-- A callback that keeps what it is called with, and returns what `go` says of that. -/
def record (go : List (RID × Tuple) → Bool) (seen : List (RID × Tuple)) (rid : RID) (t : Tuple) :
    List (RID × Tuple) × Bool := (seen ++ [(rid, t)], go (seen ++ [(rid, t)]))

theorem visit_record (seen es : List (RID × Tuple)) : visit (record fun _ => true) seen es = (seen ++ es, true) := by
  induction es generalizing seen with
  | nil => rw [visit, List.append_nil]
  | cons e es ih =>
    change visit (record fun _ => true) (seen ++ [e]) es = _
    rw [ih, List.append_assoc]
    rfl

/-- The callback returns false on its call number `k`, for the first time. -/
structure StopsAt (go : List (RID × Tuple) → Bool) (es : List (RID × Tuple)) (k : Nat) : Prop where
  pos : 1 ≤ k
  le : k ≤ es.length
  go_on : ∀ j, 1 ≤ j → j < k → go (es.take j) = true
  stop : go (es.take k) = false

theorem visit_stopsAt {go : List (RID × Tuple) → Bool} {seen es : List (RID × Tuple)} {k : Nat}
    (h : StopsAt (fun xs => go (seen ++ xs)) es k) : (visit (record go) seen es).1 = seen ++ es.take k := by
  induction es generalizing seen k with
  | nil => exact absurd (h.pos.trans h.le) (Nat.not_succ_le_zero 0)
  | cons e es ih =>
    obtain ⟨k, rfl⟩ := Nat.exists_eq_succ_of_ne_zero (Nat.one_le_iff_ne_zero.mp h.pos)
    rw [List.take_succ_cons]
    cases k with
    | zero =>
      have hstop : go (seen ++ [e]) = false := h.stop
      rw [visit, record, hstop]
      rfl
    | succ k =>
      have hgo : go (seen ++ [e]) = true := h.go_on 1 le_rfl (by omega)
      have hrest : StopsAt (fun xs => go (seen ++ [e] ++ xs)) es (k + 1) := by
        refine ⟨Nat.le_add_left 1 k, Nat.le_of_succ_le_succ h.le, fun j _ hjk => ?_, ?_⟩
        · have hj := h.go_on (j + 1) (Nat.le_add_left 1 j) (by omega)
          rwa [List.take_succ_cons, List.append_cons] at hj
        · have hstop := h.stop
          rwa [List.take_succ_cons, List.append_cons] at hstop
      rw [visit, record, hgo]
      change (visit (record go) (seen ++ [e]) es).1 = _
      rw [ih hrest, List.append_assoc]
      rfl

theorem Represents.nodup_rids (h : Represents m hf ids) : ((entries m hf ids).map Prod.fst).Nodup := by
  have hfst (p : PageId) : (pageEntries hf.schema.getTupleSize p (m.contents p)).map Prod.fst =
      (List.range (m.contents p).numTuples).map (RID.mk p) := by
    rw [pageEntries, List.map_map]
    rfl
  rw [entries, chainEntries, List.map_flatMap]
  simp only [hfst]
  rw [List.nodup_flatMap]
  constructor
  · intro p _
    exact List.nodup_range.map fun a b e => (RID.mk.inj e).2
  · refine h.chain.nodup.imp fun {p q} hpq => ?_
    intro rid hp hq
    obtain ⟨i, -, rfl⟩ := List.mem_map.mp hp
    obtain ⟨j, -, e⟩ := List.mem_map.mp hq
    exact hpq (RID.mk.inj e).1.symm

theorem scan_pool {β : Type} {s : BufferPool HeapPage n} (callback : β → RID → Tuple → β × Bool) (hs : Holds s m)
    (hfree : s.unpinned ≠ 0) (hrep : Represents m hf ids) (b : β) :
    ∃ s', scan BufferPool.store hf callback b s = .ok (visit callback b (entries m hf ids)).1 s' ∧ Holds s' m := by
  rw [← hs.free_eq] at hfree
  obtain ⟨a, s', hrun, rfl, hlive⟩ :=
    (scan_refines hf callback b).ok (live_nil.mpr hs) (scan_entries callback hs.wf hfree hrep b)
  exact ⟨s', hrun, live_nil.mp hlive⟩

/-! ## The log -/

section log
variable {s s' : BufferPool HeapPage n} {schema : Schema} {c' : Clients HeapPage n} {hf₀ hf' : HeapFile}
  {log : List (Tuple × Option RID)}

theorem sharing_start (hs : Holds s m) (schedule : List (List ClientCall)) :
    Sharing none false ⟨s, s.pins, m.pending, schedule⟩ m := by
  refine ⟨live_nil.mpr hs, fun p => (hs.pins_eq p).trans (Nat.zero_add _).symm, fun p hp => Or.inr ⟨hp, ?_⟩⟩
  change s.pins p ≠ 0
  rw [← hs.pins_eq]
  exact (hs.pending_pinned p hp).ne'

theorem create_eq_ok (hs : Holds s m) (h : create BufferPool.store schema s = .ok hf s') :
    ∃ m' ids', Holds s' m' ∧ m'.pending = m.pending ∧ hf.schema = schema ∧ Represents m' hf ids' ∧
      entries m' hf ids' = [] := by
  by_cases hfree : m.free = 0
  · have hfull : create PageMap.store schema m =
        .error (.runtimeError (lit "Buffer pool full — cannot allocate heap page")) m := by
      rw [create, bind_ok (allocateHeapPage_none hfree)]
      rfl
    obtain ⟨_, herr, -⟩ := (create_refines schema).error (live_nil.mpr hs) hfull Fault.noConfusion
    cases h.symm.trans herr
  · obtain ⟨_, hrun, hs'⟩ := create_pool hs hfree schema
    cases h.symm.trans hrun
    refine ⟨_, _, hs', rfl, rfl, create_represents m schema, ?_⟩
    apply List.map_eq_nil_iff.mp
    rw [map_snd_entries, rows_create]

theorem Inserts.represents (hs : Holds s m) (hpos : 1 ≤ schema.getTupleSize) (hsize : schema.getTupleSize ≤ 4088)
    (hcreate : create BufferPool.store schema s = .ok hf₀ s') (hruns : Inserts ⟨s', s'.pins, m.pending, []⟩ hf₀ log c hf) :
    ∃ m' ids', Sharing none false c m' ∧ Represents m' hf ids' ∧ hf.schema = schema ∧ entries m' hf ids' = inserted log := by
  obtain ⟨m₁, ids₁, hs₁, hpend, rfl, hrep, hempty⟩ := create_eq_ok hs hcreate
  have hstart : Sharing none false ⟨s', s'.pins, m.pending, []⟩ m₁ := hpend ▸ sharing_start hs₁ []
  obtain ⟨m', ids', h', happ⟩ := hruns.appended hstart hrep hpos hsize
  refine ⟨m', ids', h', happ.represents, happ.schema_eq, ?_⟩
  rw [happ.entries_eq, hempty, List.nil_append]

/-- One call of `InsertTuple` after another. -/
def insertAll {σ P : Type} (bpm : PageStore σ HeapPage P) (hf : HeapFile) :
    List Tuple → EStateM Fault σ (List (Option RID) × HeapFile)
  | [] => return ([], hf)
  | tuple :: tuples => do
    let (r, hf) ← insertTuple bpm hf tuple
    let (rs, hf) ← insertAll bpm hf tuples
    return (r :: rs, hf)

theorem Inserts.insertAll {c c₁ c₂ : Clients HeapPage n} {hf₁ hf₂ : HeapFile} (h : Inserts c hf₀ log c₁ hf₁)
    {tuples : List Tuple} (hlen : ∀ t ∈ tuples, t.length = hf₀.schema.getTupleSize) {rs : List (Option RID)}
    (hrun : insertAll Clients.store hf₁ tuples c₁ = .ok (rs, hf₂) c₂) : Inserts c hf₀ (log ++ tuples.zip rs) c₂ hf₂ := by
  induction tuples generalizing log c₁ hf₁ rs with
  | nil =>
    cases hrun
    rw [List.zip_nil_left, List.append_nil]
    exact h
  | cons t tuples ih =>
    obtain ⟨ht, hrest⟩ := List.forall_mem_cons.mp hlen
    obtain ⟨⟨r, hf'⟩, c', hcall, hrun⟩ := run_bind_eq_ok.mp hrun
    obtain ⟨⟨rs', hf''⟩, c'', hcalls, hrun⟩ := run_bind_eq_ok.mp hrun
    cases hrun
    have hall := ih (h.call c₁.schedule ht hcall) hrest hcalls
    rwa [List.append_assoc] at hall

def emptyPool : BufferPool HeapPage 1 := .init 1 ⟨0, fun _ => 0⟩

/-- A table with two tuples on a page, and three tuples for it. -/
def wideTable : Schema := ⟨[⟨lit "v", ⟨.varchar, 2044⟩⟩]⟩

def wideTuples : List Tuple := [List.replicate 2044 1, List.replicate 2044 2, List.replicate 2044 3]

def wideRids : List RID := [⟨0, 0⟩, ⟨0, 1⟩, ⟨1, 0⟩]

def wideRun : Option (List (Option RID) × Nat) :=
  match create BufferPool.store wideTable emptyPool with
  | .ok hf s =>
    match insertAll Clients.store hf wideTuples ⟨s, s.pins, fun _ => false, []⟩ with
    | .ok (rs, _) c => some (rs, c.pool.unpinned)
    | .error _ _ => none
  | .error _ _ => none

theorem inserts_wide : ∃ hf₀ s hf c, create BufferPool.store wideTable emptyPool = .ok hf₀ s ∧
    Inserts ⟨s, s.pins, fun _ => false, []⟩ hf₀ (wideTuples.zip (wideRids.map some)) c hf ∧ c.pool.unpinned ≠ 0 := by
  have hrun : wideRun = some (wideRids.map some, 1) := by decide +kernel
  unfold wideRun at hrun
  split at hrun
  · next hf₀ s hcreate =>
    split at hrun
    · next rs hf c hall =>
      obtain ⟨rfl, hfree⟩ := Prod.mk.inj (Option.some.inj hrun)
      obtain ⟨-, -, -, -, hschema, -⟩ := create_eq_ok (holds_init ⟨0, fun _ => 0⟩) hcreate
      refine ⟨hf₀, s, hf, c, hcreate, (Inserts.nil _ hf₀).insertAll ?_ hall, hfree.trans_ne Nat.one_ne_zero⟩
      rw [hschema]
      decide +kernel
    · cases hrun
  · cases hrun

/-- `Scan` of a heap file calls back with the inserted tuples, in order and with their
`RID`s, up to the call that returns false. -/
theorem scan_inserted (hs : Holds s m) (hpos : 1 ≤ schema.getTupleSize) (hsize : schema.getTupleSize ≤ 4088)
    (hcreate : create BufferPool.store schema s = .ok hf₀ s') (hruns : Inserts ⟨s', s'.pins, m.pending, []⟩ hf₀ log c hf)
    (hfree : c.pool.unpinned ≠ 0) :
    (∃ t, scan BufferPool.store hf (record fun _ => true) [] c.pool = .ok (inserted log) t) ∧
    ((inserted log).map Prod.fst).Nodup ∧
    (∀ go k, StopsAt go (inserted log) k →
      ∃ t, scan BufferPool.store hf (record go) [] c.pool = .ok ((inserted log).take k) t) ∧
    ∀ more c' hf', Inserts c hf more c' hf' → c'.pool.unpinned ≠ 0 →
      ∃ t, scan BufferPool.store hf' (record fun _ => true) [] c'.pool = .ok (inserted log ++ inserted more) t := by
  obtain ⟨m', ids', h', hrep, rfl, hentries⟩ := hruns.represents hs hpos hsize hcreate
  have hscan (go : List (RID × Tuple) → Bool) := scan_pool (record go) h'.live.1 hfree hrep []
  rw [hentries] at hscan
  refine ⟨?_, ?_, fun go k hk => ?_, fun more c' hf' hmore hfree' => ?_⟩
  · obtain ⟨t, ht, -⟩ := hscan fun _ => true
    rw [visit_record] at ht
    exact ⟨t, ht⟩
  · rw [← hentries]
    exact hrep.nodup_rids
  · obtain ⟨t, ht, -⟩ := hscan go
    rw [visit_stopsAt hk] at ht
    exact ⟨t, ht⟩
  · obtain ⟨m'', ids'', h'', happ⟩ := hmore.appended h' hrep hpos hsize
    obtain ⟨t, ht, -⟩ := scan_pool (record fun _ => true) h''.live.1 hfree' happ.represents []
    rw [visit_record, happ.entries_eq, hentries] at ht
    exact ⟨t, ht⟩

theorem scan_inserted_wide : ∃ hf₀ s hf c t, create BufferPool.store wideTable emptyPool = .ok hf₀ s ∧
    Inserts ⟨s, s.pins, fun _ => false, []⟩ hf₀ (wideTuples.zip (wideRids.map some)) c hf ∧
    scan BufferPool.store hf (record fun _ => true) [] c.pool = .ok (wideRids.zip wideTuples) t := by
  obtain ⟨hf₀, s, hf, c, hcreate, hruns, hfree⟩ := inserts_wide
  obtain ⟨⟨t, ht⟩, -⟩ := scan_inserted (holds_init ⟨0, fun _ => 0⟩) (by decide) (by decide) hcreate hruns hfree
  exact ⟨hf₀, s, hf, c, t, hcreate, hruns, ht⟩

end log

/-! ## Opening a heap file -/

theorem lastPage_chain (hwf : m.WF) (hfree : m.free ≠ 0) {cur last : PageId} (hchain : PageChain m cur ids)
    (hlast : ids.getLast? = some last) {fuel : Nat} (hfuel : ids.length ≤ fuel) :
    lastPage store fuel cur m = .ok last m := by
  induction ids generalizing cur fuel with
  | nil => cases hlast
  | cons p ids ih =>
    obtain ⟨fuel, rfl⟩ := Nat.exists_eq_succ_of_ne_zero (Nat.ne_of_gt ((Nat.succ_pos _).trans_le hfuel))
    obtain ⟨rfl, hr, hchain⟩ := hchain
    rw [lastPage, bind_ok (fetchPage_ok hr (Or.inr hfree))]
    dsimp only
    rw [bind_ok (readData_pin rfl), bind_ok (unpin_pin hwf (Or.inr hfree))]
    cases ids with
    | nil =>
      have hend : (m.contents cur).nextPageId = invalidPageId := hchain
      obtain rfl : cur = last := Option.some.inj hlast
      rw [if_pos hend]
      rfl
    | cons q ids =>
      have hnext : (m.contents cur).nextPageId ≠ invalidPageId := by
        rw [hchain.1]
        exact fun e => absurd (e ▸ hchain.2.1.1) (by decide)
      rw [if_neg hnext]
      rw [List.getLast?_cons_cons] at hlast
      exact ih hchain hlast (Nat.le_of_succ_le_succ hfuel)

theorem lastPage_refines (fuel : Nat) (cur : PageId) :
    RefinesStore [] (lastPage (BufferPool.store (n := n)) fuel cur) (lastPage PageMap.store fuel cur) Agree := by
  induction fuel generalizing cur with
  | zero => exact refines_throw _
  | succ fuel ih =>
    unfold lastPage
    refine fetchPage_bind (refines_throw _) fun f => readData_bind List.mem_cons_self fun d => ?_
    refine unpinLast_bind fun _ => ?_
    split_ifs
    · exact refines_return _
    · exact ih _

theorem reopen_pool {s : BufferPool HeapPage n} (hs : Holds s m) (hfree : s.unpinned ≠ 0) (hrep : Represents m hf ids) :
    ∃ s', reopen BufferPool.store hf.schema hf.firstPageId s = .ok hf s' ∧ Holds s' m := by
  rw [← hs.free_eq] at hfree
  have hlast := lastPage_chain hs.wf hfree hrep.chain hrep.last (hrep.chain.length_le.trans (Nat.le_succ _))
  obtain ⟨_, s', hrun, rfl, hlive⟩ := (lastPage_refines (n := n) _ _).ok (live_nil.mpr hs) hlast
  refine ⟨s', ?_, live_nil.mp hlive⟩
  have hnum : BufferPool.store.numPages s = .ok m.numPages s := by
    rw [hs.numPages_eq]
    rfl
  rw [reopen, bind_ok hnum, bind_ok hrun]
  rfl

theorem insertAll_cons {σ P : Type} {bpm : PageStore σ HeapPage P} {tuple : Tuple} {tuples : List Tuple} {s s₁ s₂ : σ}
    {r : Option RID} {rs : List (Option RID)} {hf₁ hf₂ : HeapFile} (h : insertTuple bpm hf tuple s = .ok (r, hf₁) s₁)
    (hrest : insertAll bpm hf₁ tuples s₁ = .ok (rs, hf₂) s₂) :
    insertAll bpm hf (tuple :: tuples) s = .ok (r :: rs, hf₂) s₂ := by
  rw [insertAll, bind_ok h]
  dsimp only
  rw [bind_ok hrest]
  rfl

theorem insertAll_pool {s s' : BufferPool HeapPage n} (hs : Holds s m) (hs' : Holds s' m) (hfree : m.free ≠ 0)
    (hrep : Represents m hf ids) (hpos : 0 < hf.schema.getTupleSize)
    (hsize : hf.schema.getTupleSize ≤ pageSize - heapHeaderSize) {tuples : List Tuple}
    (ht : ∀ t ∈ tuples, t.length = hf.schema.getTupleSize) :
    ∃ rs hf₁ t t' m₁ ids₁, insertAll BufferPool.store hf tuples s = .ok (rs, hf₁) t ∧
      insertAll BufferPool.store hf tuples s' = .ok (rs, hf₁) t' ∧ Holds t m₁ ∧ Holds t' m₁ ∧ m₁.free ≠ 0 ∧
      Represents m₁ hf₁ ids₁ := by
  induction tuples generalizing s s' m hf ids with
  | nil => exact ⟨[], hf, s, s', m, ids, rfl, rfl, hs, hs', hfree, hrep⟩
  | cons tuple tuples ih =>
    obtain ⟨htuple, ht⟩ := List.forall_mem_cons.mp ht
    obtain ⟨rid, hf₁, m₁, ids₁, hrun, happ, -, hfree₁⟩ := insertTuple_rows hs.wf hfree hrep hpos hsize htuple
    obtain ⟨_, s₁, hrun₁, rfl, hlive₁⟩ := (insertTuple_refines hf tuple).ok (live_nil.mpr hs) hrun
    obtain ⟨_, s₁', hrun₁', rfl, hlive₁'⟩ := (insertTuple_refines hf tuple).ok (live_nil.mpr hs') hrun
    rw [← happ.schema_eq] at hpos hsize ht
    obtain ⟨rs, hf₂, t, t', m₂, ids₂, hall, hall', hrest⟩ :=
      ih (live_nil.mp hlive₁) (live_nil.mp hlive₁') (hfree₁ ▸ hfree) happ.represents hpos hsize ht
    exact ⟨_, hf₂, t, t', m₂, ids₂, insertAll_cons hrun₁ hall, insertAll_cons hrun₁' hall', hrest⟩

/-- What `Scan` gives of a heap file over one pool and over another. -/
def SameScan (hf hf' : HeapFile) (s s' : BufferPool HeapPage n) : Prop :=
  ∃ es t t', scan BufferPool.store hf (record fun _ => true) [] s = .ok es t ∧
    scan BufferPool.store hf' (record fun _ => true) [] s' = .ok es t'

theorem sameScan_pool {s s' : BufferPool HeapPage n} (hs : Holds s m) (hs' : Holds s' m) (hfree : m.free ≠ 0)
    (hrep : Represents m hf ids) : SameScan hf hf s s' := by
  obtain ⟨t, ht, -⟩ := scan_pool (record fun _ => true) hs (hs.free_eq ▸ hfree) hrep []
  obtain ⟨t', ht', -⟩ := scan_pool (record fun _ => true) hs' (hs'.free_eq ▸ hfree) hrep []
  exact ⟨_, t, t', ht, ht'⟩

section reopen
variable {s s' : BufferPool HeapPage n} {schema : Schema} {hf₀ : HeapFile} {log : List (Tuple × Option RID)}

/-- A heap file that is opened again by its first page is the one it was, for `Scan`
and for all further calls of `InsertTuple`. -/
theorem reopen_inserted (hs : Holds s m) (hpos : 1 ≤ schema.getTupleSize) (hsize : schema.getTupleSize ≤ 4088)
    (hcreate : create BufferPool.store schema s = .ok hf₀ s') (hruns : Inserts ⟨s', s'.pins, m.pending, []⟩ hf₀ log c hf)
    (hfree : c.pool.unpinned ≠ 0) :
    ∃ hf' t, reopen BufferPool.store schema hf.firstPageId c.pool = .ok hf' t ∧
      hf'.firstPageId = hf.firstPageId ∧ hf'.lastPageId = hf.lastPageId ∧ SameScan hf hf' c.pool t ∧
      ∀ tuples, (∀ tuple ∈ tuples, tuple.length = schema.getTupleSize) →
        ∃ rs hf₁ hf₁' u u', insertAll BufferPool.store hf tuples c.pool = .ok (rs, hf₁) u ∧
          insertAll BufferPool.store hf' tuples t = .ok (rs, hf₁') u' ∧ SameScan hf₁ hf₁' u u' := by
  obtain ⟨m', ids', h', hrep, rfl, -⟩ := hruns.represents hs hpos hsize hcreate
  have hs' := h'.live.1
  obtain ⟨t, hopen, ht⟩ := reopen_pool hs' hfree hrep
  have hfree' : m'.free ≠ 0 := hs'.free_eq ▸ hfree
  refine ⟨hf, t, hopen, rfl, rfl, sameScan_pool hs' ht hfree' hrep, fun tuples htuples => ?_⟩
  obtain ⟨rs, hf₁, u, u', m₁, ids₁, hall, hall', hu, hu', hfree₁, hrep₁⟩ :=
    insertAll_pool hs' ht hfree' hrep hpos hsize htuples
  exact ⟨rs, hf₁, hf₁, u, u', hall, hall', sameScan_pool hu hu' hfree₁ hrep₁⟩

theorem reopen_inserted_wide : ∃ hf₀ s hf c hf' t, create BufferPool.store wideTable emptyPool = .ok hf₀ s ∧
    Inserts ⟨s, s.pins, fun _ => false, []⟩ hf₀ (wideTuples.zip (wideRids.map some)) c hf ∧
    reopen BufferPool.store wideTable hf.firstPageId c.pool = .ok hf' t ∧ hf'.lastPageId = hf.lastPageId ∧
    SameScan hf hf' c.pool t := by
  obtain ⟨hf₀, s, hf, c, hcreate, hruns, hfree⟩ := inserts_wide
  obtain ⟨hf', t, hopen, -, hlast, hscan, -⟩ :=
    reopen_inserted (holds_init ⟨0, fun _ => 0⟩) (by decide) (by decide) hcreate hruns hfree
  exact ⟨hf₀, s, hf, c, hf', t, hcreate, hruns, hopen, hlast, hscan⟩

end reopen

/-! ## A call that fails -/

/-- What `Scan` sees, whenever the others leave it a frame. -/
def Shows (hf : HeapFile) (c : Clients HeapPage n) (es : List (RID × Tuple)) : Prop :=
  ∀ calls : List ClientCall, (calls.foldl Clients.run c).pool.unpinned ≠ 0 →
    ∃ s, scan BufferPool.store hf (record fun _ => true) [] (calls.foldl Clients.run c).pool = .ok es s

theorem shows_entries (h : Sharing none false c m) (hrep : Represents m hf ids) : Shows hf c (entries m hf ids) := by
  intro calls hfree
  obtain ⟨m₁, h₁, hk⟩ := h.foldl_run calls
  have hrep₁ := hrep.keeps hk
  obtain ⟨s, hscan, -⟩ := scan_pool (record fun _ => true) h₁.live.1 hfree hrep₁.represents []
  rw [visit_record, hrep₁.entries_eq, List.append_nil] at hscan
  exact ⟨s, hscan⟩

theorem insertTuple_pool {s : BufferPool HeapPage n} (hs : Holds s m) (hfree : s.unpinned ≠ 0)
    (hrep : Represents m hf ids) (hpos : 0 < hf.schema.getTupleSize)
    (hsize : hf.schema.getTupleSize ≤ pageSize - heapHeaderSize) {tuple : Tuple}
    (ht : tuple.length = hf.schema.getTupleSize) :
    ∃ rid hf' s' m' ids', insertTuple BufferPool.store hf tuple s = .ok (some rid, hf') s' ∧ Holds s' m' ∧
      m'.pins = m.pins ∧ m'.free = m.free ∧ Appended m hf ids [(rid, tuple)] m' hf' ids' := by
  rw [← hs.free_eq] at hfree
  obtain ⟨rid, hf', m', ids', hrun, happ, hpins, hfree'⟩ := insertTuple_rows hs.wf hfree hrep hpos hsize ht
  obtain ⟨_, s', hrun', rfl, hlive⟩ := (insertTuple_refines hf tuple).ok (live_nil.mpr hs) hrun
  exact ⟨rid, hf', s', m', ids', hrun', live_nil.mp hlive, hpins, hfree', happ⟩

/-- When `InsertTuple` returns false, whatever the others did between its calls,
`Scan` sees what it saw, all pins are those of the others, the chain ends with
`last_page_id_`, and a later call that finds a frame appends its tuple. -/
theorem insertTuple_false {s : BufferPool HeapPage n} (hs : Holds s m) (hrep : Represents m hf ids)
    (hpos : 1 ≤ hf.schema.getTupleSize) (hsize : hf.schema.getTupleSize ≤ 4088) {tuple : Tuple}
    (ht : tuple.length = hf.schema.getTupleSize) (schedule : List (List ClientCall)) :
    ∃ r hf' c' es, insertTuple Clients.store hf tuple ⟨s, s.pins, m.pending, schedule⟩ = .ok (r, hf') c' ∧
      Shows hf ⟨s, s.pins, m.pending, schedule⟩ es ∧
      (r = none → Shows hf' c' es ∧ (∀ p, c'.pool.pins p = c'.pins p) ∧
        (∃ m' ids', Holds c'.pool m' ∧ Represents m' hf' ids') ∧
        ∀ (calls : List ClientCall) (next : Tuple), next.length = hf.schema.getTupleSize →
          (calls.foldl Clients.run c').pool.unpinned ≠ 0 →
          ∃ rid hf'' t u, insertTuple BufferPool.store hf' next (calls.foldl Clients.run c').pool = .ok (some rid, hf'') t ∧
            scan BufferPool.store hf'' (record fun _ => true) [] t = .ok (es ++ [(rid, next)]) u) := by
  have h := sharing_start hs schedule
  obtain ⟨r, hf', c', m', ids', hrun, h', happ⟩ := insertTuple_shared h hrep hpos hsize ht
  refine ⟨r, hf', c', _, hrun, shows_entries h hrep, ?_⟩
  rintro rfl
  have hsame : entries m' hf' ids' = entries m hf ids := happ.entries_eq.trans (List.append_nil _)
  refine ⟨hsame ▸ shows_entries h' happ.represents, fun p => ?_, ⟨m', ids', h'.live.1, happ.represents⟩,
    fun calls next hnext hfree => ?_⟩
  · rw [← h'.live.1.pins_eq, h'.pins_eq]
    exact Nat.zero_add _
  · obtain ⟨m₁, h₁, hk⟩ := h'.foldl_run calls
    have hrep₁ := happ.represents.keeps hk
    rw [← happ.schema_eq] at hpos hsize hnext
    obtain ⟨rid, hf'', t, m₂, ids₂, hins, ht, -, hfree₂, happ'⟩ :=
      insertTuple_pool h₁.live.1 hfree hrep₁.represents hpos hsize hnext
    have hfree' : t.unpinned ≠ 0 := by rwa [← ht.free_eq, hfree₂, h₁.live.1.free_eq]
    obtain ⟨u, hscan, -⟩ := scan_pool (record fun _ => true) ht hfree' happ'.represents []
    rw [visit_record, happ'.entries_eq, hrep₁.entries_eq, List.append_nil, hsame] at hscan
    exact ⟨rid, hf'', t, u, hins, hscan⟩

def fullPage : DiskManager HeapPage := ⟨1, fun _ => { (0 : HeapPage) with numTuples := 1, nextPageId := invalidPageId }⟩

def fullTable : HeapFile := ⟨⟨[⟨lit "v", ⟨.varchar, 4088⟩⟩]⟩, 0, 0⟩

theorem insertTuple_false_linked : ∃ hf' c' es,
    insertTuple Clients.store fullTable (List.replicate 4088 1)
      ⟨.init 1 fullPage, fun _ => 0, fun _ => false, [[], [], [], [], [], [], [.newPage]]⟩ = .ok (none, hf') c' ∧
    hf'.lastPageId = 1 ∧ Shows hf' c' es := by
  have hrep : Represents (BufferPool.init 1 fullPage).view fullTable [0] := by
    refine ⟨⟨rfl, by decide, rfl⟩, fun p _ => ?_, rfl⟩
    change 1 * 4088 ≤ pageSize - heapHeaderSize
    decide
  obtain ⟨r, hf', c', es, hrun, -, hnone⟩ := insertTuple_false (holds_init fullPage) hrep (by decide) (by decide)
    (List.length_replicate (n := 4088) (a := 1)) [[], [], [], [], [], [], [.newPage]]
  obtain ⟨hf₁, c₁, hfail, hlast⟩ : ∃ hf₁ c₁, insertTuple Clients.store fullTable (List.replicate 4088 1)
      ⟨.init 1 fullPage, (BufferPool.init 1 fullPage).pins, (BufferPool.init 1 fullPage).view.pending,
        [[], [], [], [], [], [], [.newPage]]⟩ = .ok (none, hf₁) c₁ ∧ hf₁.lastPageId = 1 := ⟨_, _, rfl, rfl⟩
  cases hrun.symm.trans hfail
  exact ⟨_, _, es, hfail, hlast, (hnone rfl).1⟩

end MyDB.Storage.HeapFile

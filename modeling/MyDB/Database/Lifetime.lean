import MyDB.Database.Memory
import MyDB.Storage.Durability

/-! A file over many runs of the program. Each run opens the file, reads its lines and
at its end writes all pages back. What a run put into its tables stays in the file: a heap
file opened at the first page of such a table, after any number of later runs, has the
rows of the table. -/

namespace MyDB.Lifetime
open MyDB.Storage MyDB.Storage.HeapFile MyDB.Parser MyDB.Executor MyDB.Lib MyDB.Database MyDB.Memory

/-! ## The file of a disk manager -/

def fileOf (disk : DiskManager HeapPage) : DbFile HeapPage := ⟨disk.numPages * pageSize, fun k => disk.pages k⟩

/-- The destructors: `FlushAllPages`, and the file is closed. -/
def close {n : Nat} (pool : BufferPool HeapPage n) : DbFile HeapPage :=
  match BufferPool.flushAllPages pool with
  | .ok _ pool => fileOf pool.disk
  | .error _ pool => fileOf pool.disk

/-- A run of the program: the size of its pool, its surroundings and its input. -/
structure Run where
  frames : Nat
  outside : Env (BufferPool HeapPage frames)
  lines : List Str

/-- The catalog at the end of the loop and the file that is left, if there is an end. -/
def finish {n : Nat} {α : Type} : EStateM.Result Fault (Database (BufferPool HeapPage n)) α → Option (Catalog × DbFile HeapPage)
  | .ok _ db => some (db.catalog, close db.pages)
  | .error _ _ => none

def Run.main (run : Run) (file : DbFile HeapPage) : Option (Catalog × DbFile HeapPage) :=
  (openDisk file).bind fun disk =>
    finish (Repl.loop (Database.execute BufferPool.store run.outside) [] run.lines ⟨⟨[]⟩, .init run.frames disk⟩)

/-- One run after the other on the same file, with what each leaves. -/
def runAll : List Run → DbFile HeapPage → Option (List (Catalog × DbFile HeapPage))
  | [], _ => some []
  | run :: runs, file => do
    let left ← run.main file
    return left :: (← runAll runs left.2)

/-! ## What a file keeps -/

def pagesIn (file : DbFile HeapPage) : PageMap HeapPage :=
  ⟨fun p => file.block p.toNat, fun _ => 0, 0, file.size / pageSize, fun _ => false⟩

def Keeps (file : DbFile HeapPage) (info : TableInfo) (t : Table) : Prop :=
  ∃ ids, KeepsTable (pagesIn file) ids info t

structure Grows (file file' : DbFile HeapPage) : Prop where
  size_le : file.size ≤ file'.size
  block_eq : ∀ k < file.size / pageSize, file'.block k = file.block k

variable {file file' file'' : DbFile HeapPage} {info : TableInfo} {t : Table}

theorem Grows.trans (h : Grows file file') (h' : Grows file' file'') : Grows file file'' where
  size_le := h.size_le.trans h'.size_le
  block_eq k hk := by
    rw [h'.block_eq k (hk.trans_le (Nat.div_le_div_right h.size_le)), h.block_eq k hk]

theorem keepsTable_congr {m m' : PageMap HeapPage} {ids : List PageId} (h : KeepsTable m ids info t)
    (hnum : m.numPages ≤ m'.numPages) (heq : ∀ p : PageId, 0 ≤ p → p < m.numPages → m'.contents p = m.contents p) :
    KeepsTable m' ids info t := by
  obtain ⟨hrep, hentries⟩ := h.represents.congr hnum fun p hp =>
    heq p (h.represents.chain.range p hp).1 (h.represents.chain.range p hp).2
  refine { h with represents := hrep, rows_eq := ?_ }
  rw [← map_snd_entries, hentries, map_snd_entries, h.rows_eq]

theorem Keeps.grows (h : Keeps file info t) (hgrows : Grows file file') : Keeps file' info t := by
  obtain ⟨ids, h⟩ := h
  refine ⟨ids, keepsTable_congr h (Nat.div_le_div_right hgrows.size_le) fun p h0 hlt => ?_⟩
  exact hgrows.block_eq p.toNat ((Int.toNat_lt h0).mpr hlt)

/-! ## One run -/

section run
variable {n : Nat} {m : PageMap HeapPage}

theorem close_eq {pool : BufferPool HeapPage n} (h : Holds pool m) (hpins : ∀ p, m.pins p = 0) :
    close pool = ⟨m.numPages * pageSize, fun k => m.contents k⟩ := by
  have hes (e : Σ _ : PageId, Fin n) (he : e ∈ pool.pageTable.entries) : pool.lookup e.1 = some e.2 :=
    BufferPool.lookup_of_mem_entries he
  have hholds := holds_flush_foldl pool.pageTable.entries h hes
  obtain ⟨-, htable, -⟩ := BufferPool.flush_foldl _ h.inv hes
  -- a frame that has a page is clean, since the loop came to its entry
  have hpages (p : PageId) : (pool.pageTable.entries.foldl BufferPool.flushEntry pool).disk.pages p = m.contents p := by
    rw [hholds.contents_eq]
    cases hp : (pool.pageTable.entries.foldl BufferPool.flushEntry pool).lookup p with
    | none => simp only [BufferPool.contents, hp]
    | some f =>
      rw [contents_of_lookup hp]
      have hclean : ((pool.pageTable.entries.foldl BufferPool.flushEntry pool).frames f).isDirty = false := by
        by_contra hdirty
        rw [BufferPool.lookup, htable] at hp
        exact (flush_foldl_dirty _ (Bool.not_eq_false _ ▸ hdirty)).2 ⟨p, f⟩ (AList.mem_lookup_iff.mp hp) rfl
      have hpending : m.pending p = false := by
        by_contra hpend
        exact (h.pending_pinned p (Bool.not_eq_false _ ▸ hpend)).ne' (hpins p)
      exact (hholds.coherent p f hp hclean hpending).symm
  change fileOf (pool.pageTable.entries.foldl BufferPool.flushEntry pool).disk = _
  rw [fileOf, ← hholds.numPages_eq]
  exact congrArg _ (funext fun k => hpages k)

/-- One run: it comes to the tables that the session has in memory, and leaves a file that
keeps them and all that it found. -/
theorem main_keeps {run : Run} {catalog : Catalog} (hfile : pageSize ∣ file.size) (hsmall : file.size < 2 ^ 31)
    (hframes : 1 ≤ run.frames) (hsize : ∀ sql ∈ Repl.statements [] run.lines, StorableSql sql)
    (hrun : run.main file = some (catalog, file')) :
    pageSize ∣ file'.size ∧ Grows file file' ∧ ∃ shown tables,
      Repl.loop (Memory.execute run.outside.std) [] run.lines [] = .ok shown tables ∧
      List.Forall₂ (fun info t => info.name = t.name ∧ info.schema = t.schema ∧ Keeps file' info t) catalog.tables tables := by
  obtain ⟨disk, hdisk, hnum, hpages⟩ := openDisk_eq hsmall
  rw [Run.main, hdisk, Option.bind_some] at hrun
  have hmirrors := loop_mirrors (Nat.ne_of_gt hframes) run.outside hsize _ _ _ (storesAfter_new disk)
  cases hloop : Repl.loop (Database.execute BufferPool.store run.outside) [] run.lines ⟨⟨[]⟩, .init run.frames disk⟩ with
  | error e db =>
    rw [hloop] at hrun
    cases hrun
  | ok shown db =>
    rw [hloop] at hrun hmirrors
    cases hrun
    obtain ⟨tables, hmem, m, pages, hs, hpins, -, hkeeps, hbeyond⟩ := hmirrors.ok_left
    have hle : file.size / pageSize ≤ m.numPages := hnum ▸ hbeyond.base.numPages_le
    have hcount : m.numPages * pageSize / pageSize = m.numPages := Nat.mul_div_cancel _ (by decide)
    rw [close_eq hs hpins]
    refine ⟨Dvd.intro_left _ rfl, ⟨?_, fun k hk => ?_⟩, shown, tables, hmem, ?_⟩
    · rw [← Nat.div_mul_cancel hfile]
      exact Nat.mul_le_mul_right _ hle
    · rw [← hnum] at hk
      exact (hbeyond.base.contents_eq k (Int.ofNat_lt.mpr hk) List.not_mem_nil).trans (hpages k)
    · refine hkeeps.each.imp fun info t ht => ⟨ht.name_eq, ht.schema_eq, pages t.name, ?_⟩
      refine keepsTable_congr ht hcount.ge fun p h0 hlt => ?_
      change m.contents (p.toNat : Int) = m.contents p
      rw [Int.toNat_of_nonneg h0]

end run

/-! ## All runs -/

/-- A heap file that is opened at the first page of the table, over any pool on the file,
has the rows of the table. -/
def Readable (file : DbFile HeapPage) (info : TableInfo) (t : Table) : Prop :=
  ∀ frames, 1 ≤ frames → ∃ disk hf, ∃ s s' : BufferPool HeapPage frames, openDisk file = some disk ∧
    reopen BufferPool.store info.schema info.heapFile.firstPageId (.init frames disk) = .ok hf s ∧
    hf.scan BufferPool.store pushBack [] s = .ok (t.rows.map Tuple.encode) s'

theorem Keeps.readable (h : Keeps file info t) (hsmall : file.size < 2 ^ 31) :
    Readable file info t := by
  intro frames hframes
  obtain ⟨ids, h⟩ := h
  obtain ⟨disk, hdisk, hnum, hpages⟩ := openDisk_eq hsmall
  have hs := holds_init (n := frames) disk
  have hfree : (BufferPool.init frames disk).view.free = frames := by
    simp [BufferPool.view, BufferPool.unpinned, BufferPool.init]
  have hkeeps : KeepsTable (BufferPool.init frames disk).view ids info t :=
    keepsTable_congr h hnum.ge fun p _ _ => hpages p
  have hunpinned : (BufferPool.init frames disk).unpinned ≠ 0 := by
    rw [← hs.free_eq, hfree]
    exact Nat.ne_of_gt hframes
  obtain ⟨s, hopen, hs'⟩ := reopen_pool hs hunpinned hkeeps.represents
  obtain ⟨s', hscan, -⟩ := scan_table (Nat.ne_of_gt hframes) hfree hkeeps hs'
  rw [hkeeps.heap_eq, ← hkeeps.schema_eq] at hopen
  exact ⟨disk, info.heapFile, s, s', hdisk, hopen, hscan⟩

variable {runs : List Run} {left : List (Catalog × DbFile HeapPage)}

theorem runAll_cons_eq_some {run : Run} : runAll (run :: runs) file = some left ↔
    ∃ first rest, run.main file = some first ∧ runAll runs first.2 = some rest ∧ left = first :: rest := by
  rw [runAll, Option.bind_eq_bind, Option.bind_eq_some_iff]
  refine exists_congr fun first => ?_
  rw [Option.bind_eq_bind]
  simp only [Option.bind_eq_some_iff, Option.pure_def, Option.some.injEq]
  constructor
  · rintro ⟨hmain, rest, hrest, rfl⟩
    exact ⟨rest, hmain, hrest, rfl⟩
  · rintro ⟨rest, hmain, hrest, rfl⟩
    exact ⟨hmain, rest, hrest, rfl⟩

theorem runAll_grows (hfile : pageSize ∣ file.size) (hsmall : file.size < 2 ^ 31)
    (hframes : ∀ run ∈ runs, 1 ≤ run.frames) (hsize : ∀ run ∈ runs, ∀ sql ∈ Repl.statements [] run.lines, StorableSql sql)
    (hrun : runAll runs file = some left) (hleft : ∀ r ∈ left, r.2.size < 2 ^ 31) :
    ∀ r ∈ left, pageSize ∣ r.2.size ∧ Grows file r.2 := by
  induction runs generalizing file left with
  | nil =>
    cases hrun
    exact fun _ hr => absurd hr List.not_mem_nil
  | cons run runs ih =>
    obtain ⟨⟨catalog, file₁⟩, rest, hmain, hrest, rfl⟩ := runAll_cons_eq_some.mp hrun
    rw [List.forall_mem_cons] at hframes hsize hleft
    obtain ⟨hfile₁, hgrows, -⟩ := main_keeps hfile hsmall hframes.1 hsize.1 hmain
    refine List.forall_mem_cons.mpr ⟨⟨hfile₁, hgrows⟩, fun r hr => ?_⟩
    obtain ⟨hdvd, hgrows'⟩ := ih hfile₁ hleft.1 hframes.2 hsize.2 hrest hleft.2 r hr
    exact ⟨hdvd, hgrows.trans hgrows'⟩

/-- Whatever runs there are on a file, the tables that one of them made are those of its
session in memory, and they are in the file after each later run, and after itself: a heap
file opened at the first page of such a table has its rows. -/
theorem runs_keep_tables (hfile : pageSize ∣ file.size) (hsmall : file.size < 2 ^ 31)
    (hframes : ∀ run ∈ runs, 1 ≤ run.frames) (hsize : ∀ run ∈ runs, ∀ sql ∈ Repl.statements [] run.lines, StorableSql sql)
    (hrun : runAll runs file = some left) (hleft : ∀ r ∈ left, r.2.size < 2 ^ 31) {i j : Nat} (hij : i ≤ j) {run : Run}
    {here there : Catalog × DbFile HeapPage} (hi : runs[i]? = some run) (hhere : left[i]? = some here)
    (hthere : left[j]? = some there) :
    ∃ shown tables, Repl.loop (Memory.execute run.outside.std) [] run.lines [] = .ok shown tables ∧
      List.Forall₂ (fun info t => info.name = t.name ∧ info.schema = t.schema ∧ Readable there.2 info t)
        here.1.tables tables := by
  induction runs generalizing file left i j with
  | nil => cases hi
  | cons run₀ runs ih =>
    obtain ⟨⟨catalog, file₁⟩, rest, hmain, hrest, rfl⟩ := runAll_cons_eq_some.mp hrun
    rw [List.forall_mem_cons] at hframes hsize hleft
    obtain ⟨hfile₁, -, shown, tables, hmem, hkeeps⟩ := main_keeps hfile hsmall hframes.1 hsize.1 hmain
    have hgrows := runAll_grows hfile₁ hleft.1 hframes.2 hsize.2 hrest hleft.2
    cases i with
    | zero =>
      cases hi
      cases hhere
      refine ⟨shown, tables, hmem, hkeeps.imp fun info t ht => ⟨ht.1, ht.2.1, ?_⟩⟩
      cases j with
      | zero =>
        cases hthere
        exact ht.2.2.readable hleft.1
      | succ j =>
        have hlater : there ∈ rest := List.mem_of_getElem? (i := j) hthere
        exact (ht.2.2.grows (hgrows there hlater).2).readable (hleft.2 there hlater)
    | succ i =>
      cases j with
      | zero => cases hij
      | succ j => exact ih hfile₁ hleft.1 hframes.2 hsize.2 hrest hleft.2 (Nat.le_of_succ_le_succ hij) hi hhere hthere

def firstRun : Run := ⟨1, oneFrame, [lit "CREATE TABLE t (x INT);", lit "INSERT INTO t VALUES (7);"]⟩

def secondRun : Run := ⟨1, oneFrame, [lit "CREATE TABLE u (y INT);", lit "INSERT INTO u VALUES (8);", lit ".quit"]⟩

theorem storable_twoRuns : ∀ run ∈ [firstRun, secondRun], ∀ sql ∈ Repl.statements [] run.lines, StorableSql sql := by
  have hall : [firstRun, secondRun].all fun run => (Repl.statements [] run.lines).all fun sql =>
      (parseSql sql).toOption.all fun stmt => decide (Storable stmt) := by decide +kernel
  intro run hrun sql hsql stmt hparse
  have h := List.all_eq_true.mp (List.all_eq_true.mp hall run hrun) sql hsql
  rw [hparse] at h
  exact of_decide_eq_true h

theorem runs_keep_tables_twoRuns : ∃ here there, runAll [firstRun, secondRun] ⟨0, fun _ => 0⟩ = some [here, there] ∧
    ∃ shown tables, Repl.loop (Memory.execute firstRun.outside.std) [] firstRun.lines [] = .ok shown tables ∧
      List.Forall₂ (fun info t => info.name = t.name ∧ info.schema = t.schema ∧ Readable there.2 info t)
        here.1.tables tables := by
  have hall : (runAll [firstRun, secondRun] ⟨0, fun _ => 0⟩).any fun left =>
      left.length = 2 ∧ left.all fun r => decide (r.2.size < 2 ^ 31) := by decide +kernel
  obtain ⟨left, hrun, h⟩ := (Option.any_eq_true _ _).mp hall
  obtain ⟨hlength, hsizes⟩ := of_decide_eq_true h
  obtain ⟨here, there, rfl⟩ := List.length_eq_two.mp hlength
  have hleft : ∀ r ∈ [here, there], r.2.size < 2 ^ 31 := fun r hr => of_decide_eq_true (List.all_eq_true.mp hsizes r hr)
  have hframes : ∀ run ∈ [firstRun, secondRun], 1 ≤ run.frames := by decide
  have hi : [firstRun, secondRun][0]? = some firstRun := rfl
  have hkept := runs_keep_tables (dvd_zero _) (Nat.two_pow_pos 31) hframes storable_twoRuns hrun hleft (Nat.zero_le 1) hi
    (List.getElem?_cons_zero (l := [there])) (List.getElem?_cons_succ (l := [there]))
  exact ⟨here, there, hrun, hkept⟩

end MyDB.Lifetime

import MyDB.Executor.Operator

/-! What a tree of operators returns: `Evaluates env op σ rows σ'` says that `Init`
of the tree as it was built takes the storage from `σ` to `σ'` and that `Next` then
returns `rows`. Each operator's rows are given by those of its children. -/

namespace MyDB.Executor
open MyDB.Parser MyDB.Lib

/-! ## The probe of a hash join -/

namespace JoinState
variable {rightKey : Expr} {ls rs : Schema} {s s' : JoinState} {t : Tuple}

theorem length_current_le : s.current.length ≤ s.hashTable.length := by
  rw [current]
  split
  · exact Nat.zero_le _
  · rw [List.length_drop, bucket, List.length_map]
    exact (Nat.sub_le _ _).trans (List.length_filter_le _ _)

theorem current_eq_nil (h : s.currentKey = []) : s.current = [] := if_pos h

theorem currentKey_ne_nil {l : Tuple} {rest : List Tuple} (h : s.current = l :: rest) : s.currentKey ≠ [] := by
  intro hkey
  rw [current_eq_nil hkey] at h
  cases h

theorem current_step {l : Tuple} {rest : List Tuple} (h : s.current = l :: rest) :
    current { s with matchCursor := s.matchCursor + 1 } = rest := by
  have hkey := currentKey_ne_nil h
  rw [current, if_neg hkey] at h
  rw [current, if_neg hkey]
  show (s.bucket s.currentKey).drop (s.matchCursor + 1) = rest
  rw [← List.tail_drop, h, List.tail_cons]

def probe (s : JoinState) (key : Str) : JoinState :=
  { s with rightCursor := s.rightCursor + 1, currentKey := key, matchCursor := 0 }

def fuel (s : JoinState) : Nat := s.rightBuffer.length - s.rightCursor + 1

def fullNext (rightKey : Expr) (ls rs : Schema) (s : JoinState) : Except Fault (Option Tuple × JoinState) :=
  next rightKey ls rs s.fuel s

theorem next_match {l r : Tuple} {rest : List Tuple} {n : Nat} (h : s.current = l :: rest)
    (hcursor : s.rightCursor ≠ 0) (hr : s.rightBuffer[s.rightCursor - 1]? = some r) :
    next rightKey ls rs (n + 1) s =
      (concat l r ls rs).map fun t => (some t, { s with matchCursor := s.matchCursor + 1 }) := by
  rw [next, h]
  dsimp only
  rw [if_neg hcursor, hr]
  dsimp only
  cases concat l r ls rs with
  | ok t => rfl
  | error e => rfl

theorem next_stale {l : Tuple} {rest : List Tuple} {n : Nat} (h : s.current = l :: rest)
    (hcursor : s.rightCursor = 0) : next rightKey ls rs (n + 1) s = .error .outOfBounds := by
  rw [next, h]
  dsimp only
  rw [if_pos hcursor]
  rfl

theorem next_end (rightKey : Expr) (ls rs : Schema) (n : Nat) (h : s.current = [])
    (hr : s.rightBuffer[s.rightCursor]? = none) :
    ∃ m, next rightKey ls rs (n + 1) s = .ok (none, { s with currentKey := [], matchCursor := m }) := by
  rw [next, h]
  dsimp only
  by_cases hkey : s.currentKey = []
  · rw [if_pos hkey, hr, ← hkey]
    exact ⟨s.matchCursor, rfl⟩
  · rw [if_neg hkey, hr]
    exact ⟨0, rfl⟩

theorem next_probe {r : Tuple} (h : s.current = []) (hr : s.rightBuffer[s.rightCursor]? = some r) {n : Nat} :
    next rightKey ls rs (n + 1) s =
      evalExpr rightKey r rs >>= fun key => next rightKey ls rs n (s.probe key.toString) := by
  rw [next, h]
  dsimp only
  by_cases hkey : s.currentKey = []
  · rw [if_pos hkey, hr]
    rfl
  · rw [if_neg hkey, hr]
    rfl

theorem fullNext_probe {r : Tuple} (h : s.current = []) (hr : s.rightBuffer[s.rightCursor]? = some r) :
    fullNext rightKey ls rs s =
      evalExpr rightKey r rs >>= fun key => fullNext rightKey ls rs (s.probe key.toString) := by
  have hlt : s.rightCursor < s.rightBuffer.length := (List.getElem?_eq_some_iff.mp hr).1
  have hfuel : ∀ key, (s.probe key).fuel = s.rightBuffer.length - s.rightCursor := by
    intro key
    show s.rightBuffer.length - (s.rightCursor + 1) + 1 = s.rightBuffer.length - s.rightCursor
    omega
  simp only [fullNext, hfuel]
  exact next_probe h hr

theorem next_bound {n : Nat} (h : next rightKey ls rs n s = .ok (some t, s')) : s'.bound < s.bound := by
  induction n generalizing s with
  | zero => cases h
  | succ n ih =>
    cases hcur : s.current with
    | cons l rest =>
      by_cases hcursor : s.rightCursor = 0
      · rw [next_stale hcur hcursor] at h
        cases h
      cases hr : s.rightBuffer[s.rightCursor - 1]? with
      | none =>
        rw [next, hcur] at h
        dsimp only at h
        rw [if_neg hcursor, hr] at h
        cases h
      | some r =>
        rw [next_match hcur hcursor hr] at h
        obtain ⟨t, -, ht⟩ := map_eq_ok.mp h
        cases ht
        rw [bound, bound, current_step hcur, hcur, List.length_cons]
        exact Nat.add_lt_add_right (Nat.lt_succ_self _) _
    | nil =>
      cases hr : s.rightBuffer[s.rightCursor]? with
      | none =>
        obtain ⟨m, hend⟩ := next_end rightKey ls rs n hcur hr
        cases hend.symm.trans h
      | some r =>
        rw [next_probe hcur hr] at h
        obtain ⟨key, -, h⟩ := bind_eq_ok.mp h
        have hlt : s.rightCursor < s.rightBuffer.length := (List.getElem?_eq_some_iff.mp hr).1
        have hle : (s.probe key.toString).bound ≤ s.bound := by
          calc (s.probe key.toString).bound
              ≤ s.hashTable.length + (s.rightBuffer.length - (s.rightCursor + 1)) * s.hashTable.length :=
                Nat.add_le_add_right length_current_le _
            _ = (s.rightBuffer.length - (s.rightCursor + 1) + 1) * s.hashTable.length := by
                rw [Nat.add_mul, Nat.one_mul, Nat.add_comm]
            _ = (s.rightBuffer.length - s.rightCursor) * s.hashTable.length := by
                rw [← Nat.sub_sub, Nat.sub_add_cancel (Nat.sub_pos_of_lt hlt)]
            _ ≤ s.bound := Nat.le_add_left _ _
        exact (ih h).trans_le hle

def matching (hashTable : List (Str × Tuple)) (key : Str) : List Tuple :=
  if key = [] then [] else (hashTable.filter (·.1 = key)).map Prod.snd

def probeRow (hashTable : List (Str × Tuple)) (rightKey : Expr) (ls rs : Schema) (r : Tuple) :
    Except Fault (List Tuple) := do
  let key ← evalExpr rightKey r rs
  (matching hashTable key.toString).mapM (concat · r ls rs)

theorem current_probe (key : Str) : (s.probe key).current = matching s.hashTable key := by
  rw [current, matching]
  rfl

theorem yields_current {cur out : List Tuple} {r : Tuple} (hcur : s.current = cur) (hcursor : s.rightCursor ≠ 0)
    (hr : s.rightBuffer[s.rightCursor - 1]? = some r) :
    Yields (fullNext rightKey ls rs) s out ↔
      ∃ l₁ l₂, cur.mapM (concat · r ls rs) = .ok l₁ ∧
        Yields (fullNext rightKey ls rs) { s with matchCursor := s.matchCursor + cur.length } l₂ ∧
        out = l₁ ++ l₂ := by
  induction cur generalizing s out with
  | nil =>
    constructor
    · intro h
      exact ⟨[], out, rfl, h, rfl⟩
    · rintro ⟨l₁, l₂, h₁, h₂, rfl⟩
      cases pure_eq_ok.mp h₁
      exact h₂
  | cons l rest ih =>
    have hstep : fullNext rightKey ls rs s =
        (concat l r ls rs).map fun t => (some t, { s with matchCursor := s.matchCursor + 1 }) :=
      next_match hcur hcursor hr
    rw [yields_more_iff hstep]
    constructor
    · rintro ⟨t, l, ht, hl, rfl⟩
      obtain ⟨l₁, l₂, h₁, h₂, rfl⟩ := (ih (current_step hcur) hcursor hr).mp hl
      refine ⟨t :: l₁, l₂, mapM_cons_eq_ok.mpr ⟨t, l₁, ht, h₁, rfl⟩, ?_, rfl⟩
      rwa [List.length_cons, Nat.add_comm rest.length, ← Nat.add_assoc]
    · rintro ⟨l₁, l₂, h₁, h₂, rfl⟩
      obtain ⟨t, l₁, ht, hmap, rfl⟩ := mapM_cons_eq_ok.mp h₁
      refine ⟨t, l₁ ++ l₂, ht, (ih (current_step hcur) hcursor hr).mpr ⟨l₁, l₂, hmap, ?_, rfl⟩, rfl⟩
      rwa [List.length_cons, Nat.add_comm rest.length, ← Nat.add_assoc] at h₂

theorem current_past : current { s with matchCursor := s.matchCursor + s.current.length } = [] := by
  rw [current]
  split
  · rfl
  case isFalse hkey =>
    show (s.bucket s.currentKey).drop (s.matchCursor + s.current.length) = []
    rw [current, if_neg hkey, List.length_drop]
    exact List.drop_eq_nil_of_le (by omega)

theorem yields_iff {out : List Tuple} (hcur : s.current = []) :
    Yields (fullNext rightKey ls rs) s out ↔
      ∃ parts, (s.rightBuffer.drop s.rightCursor).mapM (probeRow s.hashTable rightKey ls rs) = .ok parts ∧
        out = parts.flatten := by
  generalize hrest : s.rightBuffer.drop s.rightCursor = rest
  induction rest generalizing s out with
  | nil =>
    obtain ⟨m, hend⟩ := next_end rightKey ls rs (s.rightBuffer.length - s.rightCursor) hcur
      (List.getElem?_eq_none (List.drop_eq_nil_iff.mp hrest))
    have hstep : fullNext rightKey ls rs s = .ok (none, { s with currentKey := [], matchCursor := m }) :=
      hend
    rw [yields_end_iff hstep]
    constructor
    · rintro rfl
      exact ⟨[], rfl, rfl⟩
    · rintro ⟨parts, hparts, rfl⟩
      cases pure_eq_ok.mp hparts
      rfl
  | cons r rest ih =>
    have hr : s.rightBuffer[s.rightCursor]? = some r := by rw [← List.head?_drop, hrest, List.head?_cons]
    have hdrop : s.rightBuffer.drop (s.rightCursor + 1) = rest := by rw [← List.tail_drop, hrest, List.tail_cons]
    rw [yields_bind_iff (fullNext_probe hcur hr)]
    have hprobe : ∀ key out, Yields (fullNext rightKey ls rs) (s.probe key) out ↔
        ∃ l parts, (matching s.hashTable key).mapM (concat · r ls rs) = .ok l ∧
          rest.mapM (probeRow s.hashTable rightKey ls rs) = .ok parts ∧ out = l ++ parts.flatten := by
      intro key out
      rw [yields_current (current_probe key) (Nat.succ_ne_zero _) hr]
      have hpast : current { s.probe key with
          matchCursor := (s.probe key).matchCursor + (matching s.hashTable key).length } = [] := by
        rw [← current_probe]
        exact current_past
      constructor
      · rintro ⟨l₁, l₂, h₁, h₂, rfl⟩
        obtain ⟨parts, hparts, rfl⟩ := (ih hpast hdrop).mp h₂
        exact ⟨l₁, parts, h₁, hparts, rfl⟩
      · rintro ⟨l₁, parts, h₁, hparts, rfl⟩
        exact ⟨l₁, _, h₁, (ih hpast hdrop).mpr ⟨parts, hparts, rfl⟩, rfl⟩
    simp only [hprobe]
    constructor
    · rintro ⟨key, hkey, l, parts, hl, hparts, rfl⟩
      exact ⟨l :: parts, mapM_cons_eq_ok.mpr ⟨l, parts, bind_eq_ok.mpr ⟨key, hkey, hl⟩, hparts, rfl⟩, rfl⟩
    · rintro ⟨parts, h, rfl⟩
      obtain ⟨l, parts, hl, hparts, rfl⟩ := mapM_cons_eq_ok.mp h
      obtain ⟨key, hkey, hl⟩ := bind_eq_ok.mp hl
      exact ⟨key, hkey, l, parts, hl, hparts, rfl⟩

end JoinState

/-! ## The groups of an aggregation -/

namespace AggState

def groupTuple (aggExprs : List AggExpr) (outputSchema : Schema) (g : Group) : Except Fault Tuple :=
  Tuple.ofValues (g.keyVals ++ List.zipWith (fun ae a => a.value ae.func) aggExprs g.accs) outputSchema

variable {aggExprs : List AggExpr} {outputSchema : Schema}

theorem next_eq (groups : List (Str × Group)) (cursor : Nat) :
    next aggExprs outputSchema ⟨groups, cursor⟩ =
      (indexNext (fun g => groupTuple aggExprs outputSchema g.2) groups cursor).map
        (Prod.map id (AggState.mk groups)) := by
  rw [next, indexNext]
  cases groups[cursor]? with
  | none => rfl
  | some g =>
    dsimp only [groupTuple]
    cases Tuple.ofValues (g.2.keyVals ++ List.zipWith (fun ae a => a.value ae.func) aggExprs g.2.accs)
        outputSchema with
    | ok t => rfl
    | error e => rfl

theorem yields_iff {groups : List (Str × Group)} {out : List Tuple} :
    Yields (next aggExprs outputSchema) ⟨groups, 0⟩ out ↔
      groups.mapM (fun g => groupTuple aggExprs outputSchema g.2) = .ok out := by
  rw [yields_lift_iff (AggState.mk groups) (next_eq groups), yields_indexNext_iff, List.drop_zero]

end AggState

/-! ## The merge of sorted partitions -/

namespace MergeState
variable {std : Std} {less : Tuple → Tuple → Except Fault Bool} {s s' : MergeState} {t : Tuple}

def following (s : MergeState) (e : HeapEntry) : List HeapEntry :=
  ((s.partitions.getD e.partition [])[e.index + 1]?.map (HeapEntry.mk · e.partition (e.index + 1))).toList

def pending (s : MergeState) (e : HeapEntry) : List Tuple :=
  e.tuple :: (s.partitions.getD e.partition []).drop (e.index + 1)

section
variable (hheap : HeapSpec std.makeHeap std.popHeap std.pushHeap)
include hheap

theorem next_some (h : next std less s = .ok (some t, s')) :
    ∃ top rest, s.heap.Perm (top :: rest) ∧ t = top.tuple ∧ s'.partitions = s.partitions ∧
      s'.heapReady = s.heapReady ∧ s'.heap.Perm (s.following top ++ rest) := by
  rw [next] at h
  split at h
  · cases pure_eq_ok.mp h
  obtain ⟨heap, hpop, h⟩ := bind_eq_ok.mp h
  have hperm := hheap.pop_perm _ _ _ hpop
  dsimp only at h
  cases hlast : heap.getLast? with
  | none =>
    rw [hlast] at h
    cases h
  | some top =>
    rw [hlast] at h
    dsimp only at h
    have hsplit : heap.Perm (top :: heap.dropLast) := by
      obtain ⟨rest, rfl⟩ := List.getLast?_eq_some_iff.mp hlast
      rw [List.dropLast_concat]
      exact List.perm_append_singleton _ _
    refine ⟨top, heap.dropLast, hperm.symm.trans hsplit, ?_⟩
    cases hnext : (s.partitions.getD top.partition [])[top.index + 1]? with
    | none =>
      rw [hnext] at h
      cases pure_eq_ok.mp h
      exact ⟨rfl, rfl, rfl, by rw [following, hnext]; exact .rfl⟩
    | some a =>
      rw [hnext] at h
      obtain ⟨heap', hpush, h⟩ := bind_eq_ok.mp h
      cases pure_eq_ok.mp h
      refine ⟨rfl, rfl, rfl, ?_⟩
      rw [following, hnext]
      exact (hheap.push_perm _ _ _ hpush).trans (List.perm_append_singleton _ _)

theorem next_bound (h : next std less s = .ok (some t, s')) : s'.bound < s.bound := by
  obtain ⟨top, rest, hperm, -, hparts, -, hperm'⟩ := next_some hheap h
  rw [bound, bound, (hperm.map _).sum_eq, hparts, (hperm'.map _).sum_eq, List.map_cons, List.sum_cons,
    List.map_append, List.sum_append]
  refine Nat.add_lt_add_right ?_ _
  rw [following]
  cases hnext : (s.partitions.getD top.partition [])[top.index + 1]? with
  | none => exact Nat.succ_pos _
  | some a =>
    have hlt : top.index + 1 < (s.partitions.getD top.partition []).length := (List.getElem?_eq_some_iff.mp hnext).1
    show (s.partitions.getD top.partition []).length - (top.index + 1) - 1 + 1 + 0 < _
    omega

theorem yields_perm {out : List Tuple} (hready : s.heapReady = true) (h : Yields (next std less) s out) :
    out.Perm (s.heap.flatMap s.pending) := by
  obtain ⟨s₁, h⟩ := h
  induction h with
  | done h =>
    rw [next] at h
    split at h
    case isTrue hc =>
      have hnil := hc.resolve_left (by rw [hready]; nofun)
      rw [hnil]
      exact .rfl
    case isFalse =>
      obtain ⟨heap, -, h⟩ := bind_eq_ok.mp h
      dsimp only at h
      split at h
      · cases h
      · split at h
        · cases pure_eq_ok.mp h
        · obtain ⟨heap', -, h⟩ := bind_eq_ok.mp h
          cases pure_eq_ok.mp h
  | @more s s₁ s' a l h hl ih =>
    obtain ⟨top, rest, hperm, rfl, hparts, hready', hperm'⟩ := next_some hheap h
    have hsame : s₁.pending = s.pending := by
      funext e
      rw [pending, pending, hparts]
    have hfollow : (s.following top).flatMap s.pending = (s.partitions.getD top.partition []).drop (top.index + 1) := by
      rw [following]
      cases hnext : (s.partitions.getD top.partition [])[top.index + 1]? with
      | none => exact (List.drop_eq_nil_of_le (List.getElem?_eq_none_iff.mp hnext)).symm
      | some b =>
        obtain ⟨hlt, rfl⟩ := List.getElem?_eq_some_iff.mp hnext
        rw [List.drop_eq_getElem_cons hlt]
        exact List.append_nil _
    have hrest := (ih (hready'.trans hready)).trans (hperm'.flatMap_right _)
    rw [hsame, List.flatMap_append, hfollow] at hrest
    exact (hrest.cons _).trans (hperm.flatMap_right s.pending).symm

end

def entries (partitions : List (List Tuple)) (k : Nat) : List HeapEntry :=
  (partitions.zipIdx k).filterMap fun (p, i) => p.head?.map (HeapEntry.mk · i 0)

theorem pending_entries {ps : List (List Tuple)} {k : Nat} (hps : s.partitions.drop k = ps) :
    (entries ps k).flatMap s.pending = ps.flatten := by
  induction ps generalizing k with
  | nil => rfl
  | cons p ps ih =>
    have hget : s.partitions.getD k [] = p := by
      rw [List.getD_eq_getElem?_getD, ← List.head?_drop, hps]
      rfl
    have hrest := ih (k := k + 1) (by rw [← List.tail_drop, hps, List.tail_cons])
    rw [List.flatten_cons, ← hrest, entries, List.zipIdx_cons]
    cases p with
    | nil => rfl
    | cons t p =>
      show (⟨t, k, 0⟩ :: entries ps (k + 1)).flatMap s.pending = _
      rw [List.flatMap_cons, pending, hget]
      rfl

def workers (nThreads size : Nat) : Nat := min nThreads size

def chunk (nThreads size : Nat) : Nat := (size + workers nThreads size - 1) / workers nThreads size

theorem size_le {nThreads size : Nat} (hw : 0 < workers nThreads size) : size ≤ workers nThreads size * chunk nThreads size := by
  have hdiv := Nat.div_add_mod (size + workers nThreads size - 1) (workers nThreads size)
  have hmod := Nat.mod_lt (size + workers nThreads size - 1) hw
  rw [chunk]
  omega

theorem flatten_chunks (all : List Tuple) (chunk n : Nat) :
    ((List.range n).map fun i => (all.drop (i * chunk)).take chunk).flatten = all.take (n * chunk) := by
  induction n with
  | zero => rw [Nat.zero_mul, List.take_zero]; rfl
  | succ n ih =>
    rw [List.range_succ, List.map_append, List.flatten_append, ih, Nat.succ_mul, List.take_add]
    simp only [List.map_cons, List.map_nil, List.flatten_cons, List.flatten_nil, List.append_nil]

section
variable (hheap : HeapSpec std.makeHeap std.popHeap std.pushHeap) (hsort : SortSpec std.sort)
include hsort

theorem sortPartition_perm {all p : List Tuple} {chunk i : Nat} (h : sortPartition std less all chunk i = .ok p) :
    p.Perm ((all.drop (i * chunk)).take chunk) := by
  rw [sortPartition] at h
  split at h
  · cases h
  have hslice : slice all (i * chunk) (min (i * chunk + chunk) all.length - i * chunk) =
      (all.drop (i * chunk)).take chunk := by
    rw [slice, List.take_eq_take_iff, List.length_drop]
    omega
  rw [hslice] at h
  cases hs : std.sort less ((all.drop (i * chunk)).take chunk) with
  | error e =>
    rw [hs] at h
    cases h
  | ok q =>
    rw [hs] at h
    cases h
    exact hsort.perm _ _ _ hs

theorem flatten_partitions_perm {nThreads : Nat} {all : List Tuple} {partitions : List (List Tuple)}
    (hw : 0 < workers nThreads all.length) (h : (List.range (workers nThreads all.length)).mapM
      (sortPartition std less all (chunk nThreads all.length)) = .ok partitions) : partitions.flatten.Perm all := by
  have hall : all.take (workers nThreads all.length * chunk nThreads all.length) = all :=
    List.take_of_length_le (size_le hw)
  rw [← flatten_chunks] at hall
  refine List.Perm.trans ?_ (.of_eq hall)
  apply List.Perm.flatten_congr
  rw [List.forall₂_map_right_iff]
  apply List.Forall₂.flip
  exact (mapM_eq_ok.mp h).imp fun i p hp => sortPartition_perm hsort hp

include hheap

theorem init_yields_perm {nThreads : Nat} {all out : List Tuple} (h : init std less nThreads all = .ok s)
    (hout : Yields (next std less) s out) : out.Perm all := by
  rw [init] at h
  split at h
  case isTrue hall =>
    cases pure_eq_ok.mp h
    have hend : next std less ⟨[], [], false⟩ = .ok (none, ⟨[], [], false⟩) := rfl
    rw [(yields_end_iff hend).mp hout, hall]
  case isFalse hall =>
    dsimp only at h
    split at h
    · cases h
    case isFalse hn =>
      obtain ⟨partitions, hparts, h⟩ := bind_eq_ok.mp h
      obtain ⟨heap, hmake, h⟩ := bind_eq_ok.mp h
      cases pure_eq_ok.mp h
      have hheads : heap.Perm (entries partitions 0) := hheap.make_perm _ _ _ hmake
      have hall := flatten_partitions_perm hsort (Nat.pos_of_ne_zero hn) hparts
      refine (yields_perm hheap rfl hout).trans ((hheads.flatMap_right _).trans ?_)
      rwa [pending_entries (List.drop_zero ..)]

end
end MergeState

/-! ## The operators -/

namespace Operator
variable {σ : Type} {env : Env σ} {s s' : σ}

/-- The algorithms of the environment are those of the standard. -/
structure Lawful (std : Std) : Prop where
  sort : SortSpec std.sort
  heap : HeapSpec std.makeHeap std.popHeap std.pushHeap

def insertionStd : Std where
  sort := insertionSort
  makeHeap := descending
  popHeap := popFirst
  pushHeap := descending

theorem lawful_insertionStd : Lawful insertionStd := ⟨sortSpec_insertionSort, heapSpec_descending⟩

def sameRows (rows : List Tuple) : Env Unit where
  scan _ := pure rows
  parallelScan _ _ := pure rows
  parallelJoin _ _ _ _ := pure []
  std := insertionStd

theorem next_decreases {std : Std} (hstd : Lawful std) (op : Operator) : Decreases (op.next std) op.bound := by
  have hbuffer : Decreases Buffer.next Buffer.bound := by
    rintro ⟨l, cursor⟩ t b h
    rw [Buffer.next_eq] at h
    obtain ⟨⟨o, i⟩, hi, h⟩ := map_eq_ok.mp h
    cases h
    exact decreases_indexNext _ _ _ hi
  induction op with
  | seqScan => exact hbuffer
  | parallelSeqScan => exact hbuffer
  | filter child p ih => exact decreases_filterNext ih
  | projection child exprs schema ih => exact decreases_mapNext ih
  | hashJoin left right leftKey rightKey =>
    rintro ⟨sl, sr, js⟩ t js' h
    obtain ⟨⟨o, js₁⟩, hn, h⟩ := bind_eq_ok.mp h
    cases pure_eq_ok.mp h
    exact JoinState.next_bound hn
  | sort child orderBy =>
    rintro ⟨sc, b⟩ t b' h
    obtain ⟨⟨o, b₁⟩, hn, h⟩ := bind_eq_ok.mp h
    cases pure_eq_ok.mp h
    exact hbuffer _ _ _ hn
  | hashAggregate child groupBy aggExprs schema =>
    rintro ⟨sc, groups, cursor⟩ t as' h
    obtain ⟨⟨o, as₁⟩, hn, h⟩ := bind_eq_ok.mp h
    cases pure_eq_ok.mp h
    rw [AggState.next_eq] at hn
    obtain ⟨⟨o, i⟩, hi, h⟩ := map_eq_ok.mp hn
    cases h
    exact decreases_indexNext _ _ _ hi
  | parallelHashJoin left right =>
    rintro ⟨sl, sr, b⟩ t b' h
    obtain ⟨⟨o, b₁⟩, hn, h⟩ := bind_eq_ok.mp h
    cases pure_eq_ok.mp h
    exact hbuffer _ _ _ hn
  | parallelSort child orderBy =>
    rintro ⟨sc, ms⟩ t ms' h
    obtain ⟨⟨o, ms₁⟩, hn, h⟩ := bind_eq_ok.mp h
    cases pure_eq_ok.mp h
    exact MergeState.next_bound hstd.heap hn

/-- `Init` of the tree as it was built, and then `Next` until it returns false. -/
def Evaluates (env : Env σ) (op : Operator) (s : σ) (rows : List Tuple) (s' : σ) : Prop :=
  ∃ st, op.init env op.fresh s = .ok st s' ∧ Yields (op.next env.std) st rows

theorem Evaluates.unique {op : Operator} {rows₁ rows₂ : List Tuple} {s₁ s₂ : σ}
    (h₁ : Evaluates env op s rows₁ s₁) (h₂ : Evaluates env op s rows₂ s₂) : rows₁ = rows₂ ∧ s₁ = s₂ := by
  obtain ⟨st₁, hinit₁, t₁, hrows₁⟩ := h₁
  obtain ⟨st₂, hinit₂, t₂, hrows₂⟩ := h₂
  cases hinit₁.symm.trans hinit₂
  exact ⟨(hrows₁.unique hrows₂).1, rfl⟩

variable (hstd : Lawful env.std)

section consume
variable {op : Operator} {β : Type} {body : β → Tuple → Except Fault β} {b b' : β}
include hstd

theorem consume_eq_ok {st st' : op.State} : op.consume env.std body b st = .ok (b', st') ↔
    ∃ rows st₁, Drains (op.next env.std) st rows st₁ ∧ rows.foldlM body b = .ok b' ∧ st' = op.close st₁ := by
  rw [consume, bind_eq_ok]
  constructor
  · rintro ⟨⟨b₁, st₁⟩, hw, h⟩
    cases pure_eq_ok.mp h
    obtain ⟨rows, hrows, hf⟩ := whileNext_eq_ok hw
    exact ⟨rows, st₁, hrows, hf, rfl⟩
  · rintro ⟨rows, st₁, hrows, hf, rfl⟩
    have hlt := Nat.lt_succ_of_le (hrows.length_le (next_decreases hstd op))
    exact ⟨_, whileNext_of_drains hrows hlt hf, rfl⟩

theorem feeds_iff : (∃ st st', op.init env op.fresh s = .ok st s' ∧ op.consume env.std body b st = .ok (b', st')) ↔
    ∃ rows, Evaluates env op s rows s' ∧ rows.foldlM body b = .ok b' := by
  constructor
  · rintro ⟨st, st', hinit, hc⟩
    obtain ⟨rows, st₁, hrows, hf, -⟩ := (consume_eq_ok hstd).mp hc
    exact ⟨rows, ⟨st, hinit, st₁, hrows⟩, hf⟩
  · rintro ⟨rows, ⟨st, hinit, st₁, hrows⟩, hf⟩
    exact ⟨st, _, hinit, (consume_eq_ok hstd).mpr ⟨rows, st₁, hrows, hf, rfl⟩⟩

theorem collects_iff {rows : List Tuple} :
    (∃ st st', op.init env op.fresh s = .ok st s' ∧ op.consume env.std collect [] st = .ok (rows, st')) ↔
      Evaluates env op s rows s' := by
  have hcollect : ∀ (acc : List Tuple) t, collect acc t = (pure t : Except Fault Tuple).map fun b => acc ++ [b] :=
    fun _ _ => rfl
  rw [feeds_iff hstd]
  constructor
  · rintro ⟨l, h, hl⟩
    obtain ⟨_, hl, rfl⟩ := (foldlM_append_eq_ok hcollect).mp hl
    rw [← mapM_pure_eq_ok.mp hl]
    exact h
  · intro h
    exact ⟨rows, h, (foldlM_append_eq_ok hcollect).mpr ⟨rows, mapM_pure_eq_ok.mpr rfl, rfl⟩⟩

end consume

variable {rows : List Tuple}

theorem evaluates_seqScan_iff {info : TableInfo} {schema : Schema} :
    Evaluates env (.seqScan info schema) s rows s' ↔ env.scan info s = .ok rows s' := by
  constructor
  · rintro ⟨st, hinit, hrows⟩
    obtain ⟨l, s₁, hscan, h⟩ := run_bind_eq_ok.mp hinit
    cases h
    rw [Buffer.yields_iff.mp hrows]
    exact hscan
  · intro hscan
    exact ⟨⟨rows, 0⟩, run_bind_eq_ok.mpr ⟨rows, s', hscan, rfl⟩, Buffer.yields_iff.mpr rfl⟩

theorem evaluates_parallelSeqScan_iff {info : TableInfo} {schema : Schema} {n : Nat} :
    Evaluates env (.parallelSeqScan info schema n) s rows s' ↔ env.parallelScan info n s = .ok rows s' := by
  constructor
  · rintro ⟨st, hinit, hrows⟩
    obtain ⟨l, s₁, hscan, h⟩ := run_bind_eq_ok.mp hinit
    cases h
    rw [Buffer.yields_iff.mp hrows]
    exact hscan
  · intro hscan
    exact ⟨⟨rows, 0⟩, run_bind_eq_ok.mpr ⟨rows, s', hscan, rfl⟩, Buffer.yields_iff.mpr rfl⟩

def keyed (key : Expr) (schema : Schema) (t : Tuple) : Except Fault (Str × Tuple) :=
  return ((← evalExpr key t schema).toString, t)

theorem build_eq (leftKey : Expr) (ls : Schema) (table : List (Str × Tuple)) (t : Tuple) :
    JoinState.build leftKey ls table t = (keyed leftKey ls t).map fun e => table ++ [e] := by
  rw [JoinState.build, keyed]
  cases evalExpr leftKey t ls with
  | ok v => rfl
  | error e => rfl

def projected (exprs : List Expr) (childSchema schema : Schema) (t : Tuple) : Except Fault Tuple := do
  Tuple.ofValues (← exprs.mapM (evalExpr · t childSchema)) schema

variable {child left right : Operator}

section init
variable {leftKey rightKey : Expr} {orderBy : List OrderByItem} {n bucketCount : Nat}

theorem init_hashJoin (sl : left.State) (sr : right.State) (js : JoinState) :
    init env (.hashJoin left right leftKey rightKey) (sl, sr, js) =
      (left.init env sl >>= fun sl =>
        ofExcept (left.consume env.std (JoinState.build leftKey left.outputSchema) [] sl) >>= fun l =>
        right.init env sr >>= fun sr =>
        ofExcept (right.consume env.std collect [] sr) >>= fun r =>
        pure (l.2, r.2, ⟨l.1, r.1, 0, 0, js.currentKey⟩)) :=
  rfl

theorem init_sort (sc : child.State) (b : Buffer) :
    init env (.sort child orderBy) (sc, b) =
      (child.init env sc >>= fun sc => ofExcept (child.consume env.std collect [] sc) >>= fun l =>
        ofExcept (env.std.sort (tupleLess child.outputSchema orderBy) l.1) >>= fun sorted =>
        pure (l.2, ⟨sorted, 0⟩)) :=
  rfl

theorem init_hashAggregate {groupBy : List Expr} {aggExprs : List AggExpr} {schema : Schema} (sc : child.State)
    (a : AggState) :
    init env (.hashAggregate child groupBy aggExprs schema) (sc, a) =
      (child.init env sc >>= fun sc =>
        ofExcept (child.consume env.std (AggState.add groupBy aggExprs child.outputSchema) [] sc) >>= fun l =>
        pure (l.2, ⟨l.1, 0⟩)) :=
  rfl

theorem init_parallelHashJoin (sl : left.State) (sr : right.State) (b : Buffer) :
    init env (.parallelHashJoin left right leftKey rightKey n bucketCount) (sl, sr, b) =
      (left.init env sl >>= fun sl => ofExcept (left.consume env.std collect [] sl) >>= fun l =>
        ofExcept (workerKeys n bucketCount leftKey left.outputSchema l.1) >>= fun lefts =>
        right.init env sr >>= fun sr => ofExcept (right.consume env.std collect [] sr) >>= fun r =>
        ofExcept (workerKeys n bucketCount rightKey right.outputSchema r.1) >>= fun rights =>
        env.parallelJoin n bucketCount lefts rights >>= fun pairs =>
        ofExcept (pairs.mapM fun (l, r) => concat l r left.outputSchema right.outputSchema) >>= fun out =>
        pure (l.2, r.2, ⟨out, 0⟩)) :=
  rfl

theorem init_parallelSort (sc : child.State) (ms : MergeState) :
    init env (.parallelSort child orderBy n) (sc, ms) =
      (child.init env sc >>= fun sc => ofExcept (child.consume env.std collect [] sc) >>= fun l =>
        ofExcept (MergeState.init env.std (tupleLess child.outputSchema orderBy) n l.1) >>= fun ms =>
        pure (l.2, ms)) :=
  rfl

end init

theorem evaluates_projection_iff {exprs : List Expr} {schema : Schema} :
    Evaluates env (.projection child exprs schema) s rows s' ↔
      ∃ l, Evaluates env child s l s' ∧ l.mapM (projected exprs child.outputSchema schema) = .ok rows := by
  constructor
  · rintro ⟨st, hinit, st', hrows⟩
    obtain ⟨l, hl, hm⟩ := drains_mapNext_iff.mp hrows
    exact ⟨l, ⟨st, hinit, st', hl⟩, hm⟩
  · rintro ⟨l, ⟨st, hinit, st', hl⟩, hm⟩
    exact ⟨st, hinit, st', drains_mapNext_iff.mpr ⟨l, hl, hm⟩⟩

include hstd

theorem evaluates_filter_iff {predicate : Expr} :
    Evaluates env (.filter child predicate) s rows s' ↔
      ∃ l, Evaluates env child s l s' ∧ filterOk (evalPred predicate · child.outputSchema) l = .ok rows := by
  have hb := next_decreases hstd child
  constructor
  · rintro ⟨st, hinit, st', hrows⟩
    obtain ⟨l, hl, hf⟩ := (drains_filterNext_iff hb).mp hrows
    exact ⟨l, ⟨st, hinit, st', hl⟩, hf⟩
  · rintro ⟨l, ⟨st, hinit, st', hl⟩, hf⟩
    exact ⟨st, hinit, st', (drains_filterNext_iff hb).mpr ⟨l, hl, hf⟩⟩

theorem evaluates_hashJoin_iff {leftKey rightKey : Expr} :
    Evaluates env (.hashJoin left right leftKey rightKey) s rows s' ↔
      ∃ ls s₁ rs table parts, Evaluates env left s ls s₁ ∧ Evaluates env right s₁ rs s' ∧
        ls.mapM (keyed leftKey left.outputSchema) = .ok table ∧
        rs.mapM (JoinState.probeRow table rightKey left.outputSchema right.outputSchema) = .ok parts ∧
        rows = parts.flatten := by
  have hbuild := build_eq leftKey left.outputSchema
  have hyields : ∀ sl sr js, Yields (next env.std (.hashJoin left right leftKey rightKey)) (sl, sr, js) rows ↔
      Yields (JoinState.fullNext rightKey left.outputSchema right.outputSchema) js rows :=
    fun sl sr js => yields_lift_iff (fun js => (sl, sr, js)) fun _ => rfl
  constructor
  · rintro ⟨st, hinit, hrows⟩
    rw [fresh, init_hashJoin] at hinit
    obtain ⟨sl, s₁, hl, hinit⟩ := run_bind_eq_ok.mp hinit
    obtain ⟨⟨table, sl'⟩, hc, hinit⟩ := ofExcept_bind_eq_ok.mp hinit
    obtain ⟨sr, s₃, hr, hinit⟩ := run_bind_eq_ok.mp hinit
    obtain ⟨⟨rs, sr'⟩, hc', hinit⟩ := ofExcept_bind_eq_ok.mp hinit
    cases hinit
    obtain ⟨ls, hls, hfold⟩ := (feeds_iff hstd).mp ⟨sl, sl', hl, hc⟩
    obtain ⟨_, htable, rfl⟩ := (foldlM_append_eq_ok hbuild).mp hfold
    have hrs := (collects_iff hstd).mp ⟨sr, sr', hr, hc'⟩
    obtain ⟨parts, hparts, rfl⟩ := (JoinState.yields_iff (JoinState.current_eq_nil rfl)).mp ((hyields _ _ _).mp hrows)
    exact ⟨ls, s₁, rs, _, parts, hls, hrs, htable, hparts, rfl⟩
  · rintro ⟨ls, s₁, rs, table, parts, hls, hrs, htable, hparts, rfl⟩
    obtain ⟨sl, sl', hl, hc⟩ := (feeds_iff hstd).mpr ⟨ls, hls, (foldlM_append_eq_ok hbuild).mpr ⟨table, htable, rfl⟩⟩
    obtain ⟨sr, sr', hr, hc'⟩ := (collects_iff hstd).mpr hrs
    refine ⟨(sl', sr', ⟨[] ++ table, rs, 0, 0, []⟩), ?_, (hyields _ _ _).mpr ?_⟩
    · rw [fresh, init_hashJoin]
      refine run_bind_eq_ok.mpr ⟨sl, s₁, hl, ofExcept_bind_eq_ok.mpr ⟨_, hc, ?_⟩⟩
      exact run_bind_eq_ok.mpr ⟨sr, s', hr, ofExcept_bind_eq_ok.mpr ⟨_, hc', rfl⟩⟩
    · exact (JoinState.yields_iff (JoinState.current_eq_nil rfl)).mpr ⟨parts, hparts, rfl⟩

theorem evaluates_sort_iff {orderBy : List OrderByItem} :
    Evaluates env (.sort child orderBy) s rows s' ↔
      ∃ l, Evaluates env child s l s' ∧ env.std.sort (tupleLess child.outputSchema orderBy) l = .ok rows := by
  have hyields : ∀ sc b, Yields (next env.std (.sort child orderBy)) (sc, b) rows ↔ Yields Buffer.next b rows :=
    fun sc b => yields_lift_iff (fun b => (sc, b)) fun _ => rfl
  constructor
  · rintro ⟨st, hinit, hrows⟩
    rw [fresh, init_sort] at hinit
    obtain ⟨sc, s₁, hchild, hinit⟩ := run_bind_eq_ok.mp hinit
    obtain ⟨⟨l, sc'⟩, hc, hinit⟩ := ofExcept_bind_eq_ok.mp hinit
    obtain ⟨sorted, hsort, hinit⟩ := ofExcept_bind_eq_ok.mp hinit
    cases hinit
    rw [Buffer.yields_iff.mp ((hyields _ _).mp hrows)]
    exact ⟨l, (collects_iff hstd).mp ⟨sc, sc', hchild, hc⟩, hsort⟩
  · rintro ⟨l, hl, hsort⟩
    obtain ⟨sc, sc', hchild, hc⟩ := (collects_iff hstd).mpr hl
    refine ⟨(sc', ⟨rows, 0⟩), ?_, (hyields _ _).mpr (Buffer.yields_iff.mpr rfl)⟩
    rw [fresh, init_sort]
    refine run_bind_eq_ok.mpr ⟨sc, s', hchild, ofExcept_bind_eq_ok.mpr ⟨_, hc, ?_⟩⟩
    exact ofExcept_bind_eq_ok.mpr ⟨rows, hsort, rfl⟩

theorem evaluates_hashAggregate_iff {groupBy : List Expr} {aggExprs : List AggExpr} {schema : Schema} :
    Evaluates env (.hashAggregate child groupBy aggExprs schema) s rows s' ↔
      ∃ l groups, Evaluates env child s l s' ∧
        l.foldlM (AggState.add groupBy aggExprs child.outputSchema) [] = .ok groups ∧
        groups.mapM (fun g => AggState.groupTuple aggExprs schema g.2) = .ok rows := by
  have hyields : ∀ sc a, Yields (next env.std (.hashAggregate child groupBy aggExprs schema)) (sc, a) rows ↔
      Yields (AggState.next aggExprs schema) a rows :=
    fun sc a => yields_lift_iff (fun a => (sc, a)) fun _ => rfl
  constructor
  · rintro ⟨st, hinit, hrows⟩
    rw [fresh, init_hashAggregate] at hinit
    obtain ⟨sc, s₁, hchild, hinit⟩ := run_bind_eq_ok.mp hinit
    obtain ⟨⟨groups, sc'⟩, hc, hinit⟩ := ofExcept_bind_eq_ok.mp hinit
    cases hinit
    obtain ⟨l, hl, hgroups⟩ := (feeds_iff hstd).mp ⟨sc, sc', hchild, hc⟩
    exact ⟨l, groups, hl, hgroups, AggState.yields_iff.mp ((hyields _ _).mp hrows)⟩
  · rintro ⟨l, groups, hl, hgroups, hrows⟩
    obtain ⟨sc, sc', hchild, hc⟩ := (feeds_iff hstd).mpr ⟨l, hl, hgroups⟩
    refine ⟨(sc', ⟨groups, 0⟩), ?_, (hyields _ _).mpr (AggState.yields_iff.mpr hrows)⟩
    rw [fresh, init_hashAggregate]
    exact run_bind_eq_ok.mpr ⟨sc, s', hchild, ofExcept_bind_eq_ok.mpr ⟨_, hc, rfl⟩⟩

theorem evaluates_parallelHashJoin_iff {leftKey rightKey : Expr} {n bucketCount : Nat} :
    Evaluates env (.parallelHashJoin left right leftKey rightKey n bucketCount) s rows s' ↔
      ∃ ls s₁ rs s₂ lefts rights pairs, Evaluates env left s ls s₁ ∧ Evaluates env right s₁ rs s₂ ∧
        workerKeys n bucketCount leftKey left.outputSchema ls = .ok lefts ∧
        workerKeys n bucketCount rightKey right.outputSchema rs = .ok rights ∧
        env.parallelJoin n bucketCount lefts rights s₂ = .ok pairs s' ∧
        (pairs.mapM fun (l, r) => concat l r left.outputSchema right.outputSchema) = .ok rows := by
  have hyields : ∀ sl sr b, Yields (next env.std (.parallelHashJoin left right leftKey rightKey n bucketCount))
      (sl, sr, b) rows ↔ Yields Buffer.next b rows :=
    fun sl sr b => yields_lift_iff (fun b => (sl, sr, b)) fun _ => rfl
  constructor
  · rintro ⟨st, hinit, hrows⟩
    rw [fresh, init_parallelHashJoin] at hinit
    obtain ⟨sl, s₁, hl, hinit⟩ := run_bind_eq_ok.mp hinit
    obtain ⟨⟨ls, sl'⟩, hc, hinit⟩ := ofExcept_bind_eq_ok.mp hinit
    obtain ⟨lefts, hlefts, hinit⟩ := ofExcept_bind_eq_ok.mp hinit
    obtain ⟨sr, s₄, hr, hinit⟩ := run_bind_eq_ok.mp hinit
    obtain ⟨⟨rs, sr'⟩, hc', hinit⟩ := ofExcept_bind_eq_ok.mp hinit
    obtain ⟨rights, hrights, hinit⟩ := ofExcept_bind_eq_ok.mp hinit
    obtain ⟨pairs, s₇, hpairs, hinit⟩ := run_bind_eq_ok.mp hinit
    obtain ⟨out, hout, hinit⟩ := ofExcept_bind_eq_ok.mp hinit
    cases hinit
    rw [Buffer.yields_iff.mp ((hyields _ _ _).mp hrows)]
    exact ⟨ls, _, rs, _, lefts, rights, pairs, (collects_iff hstd).mp ⟨sl, sl', hl, hc⟩,
      (collects_iff hstd).mp ⟨sr, sr', hr, hc'⟩, hlefts, hrights, hpairs, hout⟩
  · rintro ⟨ls, s₁, rs, s₂, lefts, rights, pairs, hls, hrs, hlefts, hrights, hpairs, hout⟩
    obtain ⟨sl, sl', hl, hc⟩ := (collects_iff hstd).mpr hls
    obtain ⟨sr, sr', hr, hc'⟩ := (collects_iff hstd).mpr hrs
    refine ⟨(sl', sr', ⟨rows, 0⟩), ?_, (hyields _ _ _).mpr (Buffer.yields_iff.mpr rfl)⟩
    rw [fresh, init_parallelHashJoin]
    refine run_bind_eq_ok.mpr ⟨sl, s₁, hl, ofExcept_bind_eq_ok.mpr ⟨_, hc, ?_⟩⟩
    refine ofExcept_bind_eq_ok.mpr ⟨lefts, hlefts, ?_⟩
    refine run_bind_eq_ok.mpr ⟨sr, s₂, hr, ofExcept_bind_eq_ok.mpr ⟨_, hc', ?_⟩⟩
    refine ofExcept_bind_eq_ok.mpr ⟨rights, hrights, ?_⟩
    exact run_bind_eq_ok.mpr ⟨pairs, s', hpairs, ofExcept_bind_eq_ok.mpr ⟨rows, hout, rfl⟩⟩

theorem evaluates_parallelSort_iff {orderBy : List OrderByItem} {n : Nat} :
    Evaluates env (.parallelSort child orderBy n) s rows s' ↔
      ∃ l ms, Evaluates env child s l s' ∧
        MergeState.init env.std (tupleLess child.outputSchema orderBy) n l = .ok ms ∧
        Yields (MergeState.next env.std (tupleLess child.outputSchema orderBy)) ms rows := by
  have hyields : ∀ sc ms, Yields (next env.std (.parallelSort child orderBy n)) (sc, ms) rows ↔
      Yields (MergeState.next env.std (tupleLess child.outputSchema orderBy)) ms rows :=
    fun sc ms => yields_lift_iff (fun ms => (sc, ms)) fun _ => rfl
  constructor
  · rintro ⟨st, hinit, hrows⟩
    rw [fresh, init_parallelSort] at hinit
    obtain ⟨sc, s₁, hchild, hinit⟩ := run_bind_eq_ok.mp hinit
    obtain ⟨⟨l, sc'⟩, hc, hinit⟩ := ofExcept_bind_eq_ok.mp hinit
    obtain ⟨ms, hms, hinit⟩ := ofExcept_bind_eq_ok.mp hinit
    cases hinit
    exact ⟨l, ms, (collects_iff hstd).mp ⟨sc, sc', hchild, hc⟩, hms, (hyields _ _).mp hrows⟩
  · rintro ⟨l, ms, hl, hms, hrows⟩
    obtain ⟨sc, sc', hchild, hc⟩ := (collects_iff hstd).mpr hl
    refine ⟨(sc', ms), ?_, (hyields _ _).mpr hrows⟩
    rw [fresh, init_parallelSort]
    refine run_bind_eq_ok.mpr ⟨sc, s', hchild, ofExcept_bind_eq_ok.mpr ⟨_, hc, ?_⟩⟩
    exact ofExcept_bind_eq_ok.mpr ⟨ms, hms, rfl⟩

end Operator
end MyDB.Executor

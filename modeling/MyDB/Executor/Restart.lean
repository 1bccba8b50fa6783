import MyDB.Executor.HashJoinRows
import MyDB.Executor.Schedules

/-! `Init` on a tree that was used before. `HashJoin::Init` does not reset
`current_key_`, so that a join which was left after it had returned a tuple goes on with
the key of that tuple, and `Next` reads in front of the right tuples. -/

namespace MyDB.Executor
open MyDB.Parser MyDB.Lib

namespace JoinState
variable {rightKey : Expr} {ls rs : Schema} {s s' : JoinState} {o : Option Tuple}

def Left (o : Option Tuple) (s : JoinState) : Prop :=
  match o with
  | none => s.currentKey = []
  | some _ => matching s.hashTable s.currentKey ≠ []

theorem matching_ne_nil {l : Tuple} {rest : List Tuple} (h : s.current = l :: rest) :
    matching s.hashTable s.currentKey ≠ [] := by
  have hkey := currentKey_ne_nil h
  rw [current, if_neg hkey] at h
  rw [matching, if_neg hkey]
  intro hnil
  rw [bucket, hnil, List.drop_nil] at h
  cases h

theorem next_left {n : Nat} (h : next rightKey ls rs n s = .ok (o, s')) :
    s'.hashTable = s.hashTable ∧ Left o s' := by
  induction n generalizing s with
  | zero => cases h
  | succ n ih =>
    cases hcur : s.current with
    | cons l rest =>
      by_cases hcursor : s.rightCursor = 0
      · rw [next_stale hcur hcursor] at h
        cases h
      cases hr : s.rightBuffer[s.rightCursor - 1]? with
      | none =>
        rw [next, hcur] at h
        dsimp only at h
        rw [if_neg hcursor, hr] at h
        cases h
      | some r =>
        rw [next_match hcur hcursor hr] at h
        obtain ⟨t, -, ht⟩ := map_eq_ok.mp h
        cases ht
        exact ⟨rfl, show matching s.hashTable s.currentKey ≠ [] from matching_ne_nil hcur⟩
    | nil =>
      cases hr : s.rightBuffer[s.rightCursor]? with
      | none =>
        obtain ⟨m, hend⟩ := next_end rightKey ls rs n hcur hr
        cases hend.symm.trans h
        exact ⟨rfl, rfl⟩
      | some r =>
        rw [next_probe hcur hr] at h
        obtain ⟨key, -, h⟩ := bind_eq_ok.mp h
        obtain ⟨htable, hleft⟩ := ih h
        exact ⟨htable, hleft⟩

end JoinState

namespace Operator
variable {σ : Type} {env : Env σ} {std : Std} {op : Operator} {s s' : σ}

/-! ## The key that is left -/

def spine : (op : Operator) → op.State → Option JoinState
  | .filter child _, s => child.spine s
  | .projection child _ _, s => child.spine s
  | .hashJoin .., (_, _, s) => some s
  | .seqScan .., _ | .sort .., _ | .hashAggregate .., _ | .parallelSeqScan .., _ | .parallelHashJoin .., _
  | .parallelSort .., _ => none

def staleKey (op : Operator) (s : op.State) : Str := (op.spine s).elim [] JoinState.currentKey

def endsInJoin : Operator → Bool
  | .filter child _ | .projection child _ _ => child.endsInJoin
  | .hashJoin .. => true
  | .seqScan .. | .sort .. | .hashAggregate .. | .parallelSeqScan .. | .parallelHashJoin .. | .parallelSort .. => false

def buildSide : Operator → Option (Operator × Expr)
  | .filter child _ | .projection child _ _ => child.buildSide
  | .hashJoin left _ leftKey _ => some (left, leftKey)
  | .seqScan .. | .sort .. | .hashAggregate .. | .parallelSeqScan .. | .parallelHashJoin .. | .parallelSort .. => none

def Settled : (op : Operator) → op.State → Prop
  | .seqScan .., _ | .parallelSeqScan .., _ => True
  | .filter child _, s => child.Settled s
  | .projection child _ _, s => child.Settled s
  | .hashJoin left right _ _, (sl, sr, _) | .parallelHashJoin left right _ _ _ _, (sl, sr, _) =>
    (left.Settled sl ∧ left.staleKey sl = []) ∧ right.Settled sr ∧ right.staleKey sr = []
  | .sort child _, (sc, _) | .hashAggregate child _ _ _, (sc, _) | .parallelSort child _ _, (sc, _) =>
    child.Settled sc ∧ child.staleKey sc = []

theorem spine_isSome (op : Operator) (st : op.State) : (op.spine st).isSome = op.endsInJoin := by
  induction op with
  | filter child p ih => exact ih st
  | projection child exprs schema ih => exact ih st
  | _ => rfl

theorem next_spine {st st' : op.State} {o : Option Tuple} {js : JoinState} (h : op.next std st = .ok (o, st'))
    (hjs : op.spine st = some js) :
    ∃ js', op.spine st' = some js' ∧ js'.hashTable = js.hashTable ∧ JoinState.Left o js' := by
  induction op generalizing o js with
  | filter child p ih =>
    obtain ⟨outs, st₁, hcalls, hlast⟩ := filterNext_calls h
    -- the calls before the last one keep the table
    obtain ⟨js₁, hjs₁, htable₁⟩ : ∃ js₁, child.spine st₁ = some js₁ ∧ js₁.hashTable = js.hashTable := by
      refine hcalls.invariant (P := fun st => ∃ js₁, child.spine st = some js₁ ∧ js₁.hashTable = js.hashTable) ?_
        ⟨js, hjs, rfl⟩
      rintro st o' st' ⟨js₁, hjs₁, htable₁⟩ hn
      obtain ⟨js₂, hjs₂, htable₂, -⟩ := ih hn hjs₁
      exact ⟨js₂, hjs₂, htable₂.trans htable₁⟩
    obtain ⟨js₂, hjs₂, htable₂, hleft⟩ := ih hlast hjs₁
    exact ⟨js₂, hjs₂, htable₂.trans htable₁, hleft⟩
  | projection child exprs schema ih =>
    obtain ⟨o', hn, ho⟩ := mapNext_call h
    obtain ⟨js', hjs', htable, hleft⟩ := ih hn hjs
    refine ⟨js', hjs', htable, ?_⟩
    cases o with
    | none =>
      cases ho.mp rfl
      exact hleft
    | some t =>
      cases o' with
      | none => cases ho.mpr rfl
      | some t' => exact hleft
  | hashJoin left right leftKey rightKey =>
    obtain ⟨sl, sr, js₀⟩ := st
    cases hjs
    obtain ⟨⟨o₁, js₁⟩, hn, h⟩ := bind_eq_ok.mp h
    cases pure_eq_ok.mp h
    obtain ⟨htable, hleft⟩ := JoinState.next_left hn
    exact ⟨js₁, rfl, htable, hleft⟩
  | _ => cases hjs

theorem staleKey_of_none {st st' : op.State} (h : op.next std st = .ok (none, st')) : op.staleKey st' = [] := by
  rw [staleKey]
  cases hjs : op.spine st with
  | none =>
    have hnone : op.spine st' = none := by
      rw [← Option.not_isSome_iff_eq_none, spine_isSome, ← spine_isSome op st, hjs]
      exact Bool.false_ne_true
    rw [hnone]
    rfl
  | some js =>
    obtain ⟨js', hjs', -, hleft⟩ := next_spine h hjs
    rw [hjs']
    exact hleft

theorem settled_next {st st' : op.State} {o : Option Tuple} (h : op.next std st = .ok (o, st'))
    (hst : op.Settled st) : op.Settled st' := by
  induction op generalizing o with
  | seqScan => trivial
  | parallelSeqScan => trivial
  | filter child p ih =>
    obtain ⟨outs, st₁, hcalls, hlast⟩ := filterNext_calls h
    exact ih hlast (hcalls.invariant (fun _ _ _ hst hn => ih hn hst) hst)
  | projection child exprs schema ih =>
    obtain ⟨o', hn, -⟩ := mapNext_call h
    exact ih hn hst
  | _ =>
    obtain ⟨⟨o₁, st₁⟩, -, h⟩ := bind_eq_ok.mp h
    cases pure_eq_ok.mp h
    exact hst

theorem settled_close {st : op.State} (hst : op.Settled st) : op.Settled (op.close st) := by
  induction op with
  | filter child p ih => exact ih hst
  | projection child exprs schema ih => exact ih hst
  | _ => exact hst

theorem staleKey_close (st : op.State) : op.staleKey (op.close st) = op.staleKey st := by
  induction op with
  | filter child p ih => exact ih st
  | projection child exprs schema ih => exact ih st
  | _ => rfl

theorem spine_close {st : op.State} {js : JoinState} (h : op.spine st = some js) :
    ∃ js', op.spine (op.close st) = some js' ∧ js'.currentKey = js.currentKey := by
  obtain ⟨js', hjs'⟩ : ∃ js', op.spine (op.close st) = some js' := by
    rw [← Option.isSome_iff_exists, spine_isSome, ← spine_isSome op st, h]
    rfl
  refine ⟨js', hjs', ?_⟩
  have hkey := staleKey_close st
  rw [staleKey, staleKey, h, hjs'] at hkey
  exact hkey

theorem quiet_of_drains {st st' : op.State} {rows : List Tuple} (h : Drains (op.next std) st rows st')
    (hst : op.Settled st) : op.Settled (op.close st') ∧ op.staleKey (op.close st') = [] := by
  obtain ⟨outs, st₁, hcalls, hend⟩ := h.calls
  have hst₁ := hcalls.invariant (fun _ _ _ hst hn => settled_next hn hst) hst
  rw [staleKey_close]
  exact ⟨settled_close (settled_next hend hst₁), staleKey_of_none hend⟩

theorem quiet_fresh (op : Operator) : op.Settled op.fresh ∧ op.staleKey op.fresh = [] := by
  induction op with
  | seqScan => exact ⟨trivial, rfl⟩
  | parallelSeqScan => exact ⟨trivial, rfl⟩
  | filter child p ih => exact ih
  | projection child exprs schema ih => exact ih
  | hashJoin left right leftKey rightKey ihl ihr => exact ⟨⟨ihl, ihr⟩, rfl⟩
  | parallelHashJoin left right leftKey rightKey n bucketCount ihl ihr => exact ⟨⟨ihl, ihr⟩, rfl⟩
  | sort child orderBy ih => exact ⟨ih, rfl⟩
  | hashAggregate child groupBy aggExprs schema ih => exact ⟨ih, rfl⟩
  | parallelSort child orderBy n ih => exact ⟨ih, rfl⟩

theorem next_of_stale {st : op.State} {js : JoinState} (hjs : op.spine st = some js) (hcursor : js.rightCursor = 0)
    (hcur : js.current ≠ []) : op.next std st = .error .outOfBounds := by
  induction op with
  | filter child p ih => exact filterNext_error (ih hjs) _
  | projection child exprs schema ih => exact mapNext_error (ih hjs)
  | hashJoin left right leftKey rightKey =>
    obtain ⟨sl, sr, js₀⟩ := st
    cases hjs
    obtain ⟨l, rest, hcons⟩ := List.exists_cons_of_ne_nil hcur
    show (JoinState.next rightKey left.outputSchema right.outputSchema _ js >>= _) = _
    rw [JoinState.next_stale hcons hcursor]
    rfl
  | _ => cases hjs

theorem robust_buildSide {I : σ → Prop} {left : Operator} {leftKey : Expr} (h : op.Robust env I)
    (hside : op.buildSide = some (left, leftKey)) : left.Robust env I := by
  induction op with
  | filter child p ih => exact ih h hside
  | projection child exprs schema ih => exact ih h hside
  | hashJoin l r lk rk =>
    cases hside
    exact h.1
  | _ => cases hside

/-! ## `Init` -/

theorem init_eq_fresh {st : op.State} (hst : op.Settled st) (hkey : op.staleKey st = []) :
    op.init env st = op.init env op.fresh := by
  induction op with
  | seqScan => rfl
  | parallelSeqScan => rfl
  | filter child p ih => exact ih hst hkey
  | projection child exprs schema ih => exact ih hst hkey
  | hashJoin left right leftKey rightKey ihl ihr =>
    obtain ⟨sl, sr, js⟩ := st
    obtain ⟨⟨hl, hlkey⟩, hr, hrkey⟩ := hst
    have hnone : js.currentKey = [] := hkey
    rw [fresh, init_hashJoin, init_hashJoin, ihl hl hlkey, ihr hr hrkey, hnone]
  | parallelHashJoin left right leftKey rightKey n bucketCount ihl ihr =>
    obtain ⟨sl, sr, b⟩ := st
    obtain ⟨⟨hl, hlkey⟩, hr, hrkey⟩ := hst
    rw [fresh, init_parallelHashJoin, init_parallelHashJoin, ihl hl hlkey, ihr hr hrkey]
  | sort child orderBy ih =>
    obtain ⟨sc, b⟩ := st
    rw [fresh, init_sort, init_sort, ih hst.1 hst.2]
  | hashAggregate child groupBy aggExprs schema ih =>
    obtain ⟨sc, a⟩ := st
    rw [fresh, init_hashAggregate, init_hashAggregate, ih hst.1 hst.2]
  | parallelSort child orderBy n ih =>
    obtain ⟨sc, ms⟩ := st
    rw [fresh, init_parallelSort, init_parallelSort, ih hst.1 hst.2]

section lawful
variable (hstd : Lawful env.std)
include hstd

theorem settled_init {st st' : op.State} (h : op.init env st s = .ok st' s') (hst : op.Settled st) :
    op.Settled st' ∧ op.staleKey st' = op.staleKey st := by
  have hdrained {child : Operator} {β : Type} {body : β → Tuple → Except Fault β} {b b' : β} {sc sc' : child.State}
      (hsc : child.Settled sc) (hc : child.consume env.std body b sc = .ok (b', sc')) :
      child.Settled sc' ∧ child.staleKey sc' = [] := by
    obtain ⟨rows, sc₁, hrows, -, rfl⟩ := (consume_eq_ok hstd).mp hc
    exact quiet_of_drains hrows hsc
  induction op generalizing s s' with
  | seqScan info schema => exact ⟨trivial, rfl⟩
  | parallelSeqScan info schema n => exact ⟨trivial, rfl⟩
  | filter child p ih => exact ih h hst
  | projection child exprs schema ih => exact ih h hst
  | hashJoin left right leftKey rightKey ihl ihr =>
    obtain ⟨sl, sr, js⟩ := st
    obtain ⟨⟨hl, -⟩, hr, -⟩ := hst
    rw [init_hashJoin] at h
    obtain ⟨sl₁, s₁, hl₁, h⟩ := run_bind_eq_ok.mp h
    obtain ⟨⟨table, sl₂⟩, hc, h⟩ := ofExcept_bind_eq_ok.mp h
    obtain ⟨sr₁, s₂, hr₁, h⟩ := run_bind_eq_ok.mp h
    obtain ⟨⟨rs, sr₂⟩, hc', h⟩ := ofExcept_bind_eq_ok.mp h
    cases h
    exact ⟨⟨hdrained (ihl hl₁ hl).1 hc, hdrained (ihr hr₁ hr).1 hc'⟩, rfl⟩
  | parallelHashJoin left right leftKey rightKey n bucketCount ihl ihr =>
    obtain ⟨sl, sr, b⟩ := st
    obtain ⟨⟨hl, -⟩, hr, -⟩ := hst
    rw [init_parallelHashJoin] at h
    obtain ⟨sl₁, s₁, hl₁, h⟩ := run_bind_eq_ok.mp h
    obtain ⟨⟨ls, sl₂⟩, hc, h⟩ := ofExcept_bind_eq_ok.mp h
    obtain ⟨lefts, -, h⟩ := ofExcept_bind_eq_ok.mp h
    obtain ⟨sr₁, s₂, hr₁, h⟩ := run_bind_eq_ok.mp h
    obtain ⟨⟨rs, sr₂⟩, hc', h⟩ := ofExcept_bind_eq_ok.mp h
    obtain ⟨rights, -, h⟩ := ofExcept_bind_eq_ok.mp h
    obtain ⟨pairs, s₃, -, h⟩ := run_bind_eq_ok.mp h
    obtain ⟨out, -, h⟩ := ofExcept_bind_eq_ok.mp h
    cases h
    exact ⟨⟨hdrained (ihl hl₁ hl).1 hc, hdrained (ihr hr₁ hr).1 hc'⟩, rfl⟩
  | sort child orderBy ih =>
    obtain ⟨sc, b⟩ := st
    rw [init_sort] at h
    obtain ⟨sc₁, s₁, hsc, h⟩ := run_bind_eq_ok.mp h
    obtain ⟨⟨ts, sc₂⟩, hc, h⟩ := ofExcept_bind_eq_ok.mp h
    obtain ⟨sorted, -, h⟩ := ofExcept_bind_eq_ok.mp h
    cases h
    exact ⟨hdrained (ih hsc hst.1).1 hc, rfl⟩
  | hashAggregate child groupBy aggExprs schema ih =>
    obtain ⟨sc, a⟩ := st
    rw [init_hashAggregate] at h
    obtain ⟨sc₁, s₁, hsc, h⟩ := run_bind_eq_ok.mp h
    obtain ⟨⟨groups, sc₂⟩, hc, h⟩ := ofExcept_bind_eq_ok.mp h
    cases h
    exact ⟨hdrained (ih hsc hst.1).1 hc, rfl⟩
  | parallelSort child orderBy n ih =>
    obtain ⟨sc, ms⟩ := st
    rw [init_parallelSort] at h
    obtain ⟨sc₁, s₁, hsc, h⟩ := run_bind_eq_ok.mp h
    obtain ⟨⟨ts, sc₂⟩, hc, h⟩ := ofExcept_bind_eq_ok.mp h
    obtain ⟨ms₁, -, h⟩ := ofExcept_bind_eq_ok.mp h
    cases h
    exact ⟨hdrained (ih hsc hst.1).1 hc, rfl⟩

theorem init_spine {st st' : op.State} {js : JoinState} (h : op.init env st s = .ok st' s') (hst : op.Settled st)
    (hjs : op.spine st = some js) :
    ∃ js' left leftKey ls s₁, op.spine st' = some js' ∧ op.buildSide = some (left, leftKey) ∧ js'.rightCursor = 0 ∧
      js'.matchCursor = 0 ∧ js'.currentKey = js.currentKey ∧ left.Evaluates env s ls s₁ ∧
      ls.mapM (keyed leftKey left.outputSchema) = .ok js'.hashTable := by
  induction op with
  | filter child p ih => exact ih h hst hjs
  | projection child exprs schema ih => exact ih h hst hjs
  | hashJoin left right leftKey rightKey =>
    obtain ⟨sl, sr, js₀⟩ := st
    cases hjs
    rw [init_hashJoin, init_eq_fresh hst.1.1 hst.1.2] at h
    obtain ⟨sl₁, s₁, hl₁, h⟩ := run_bind_eq_ok.mp h
    obtain ⟨⟨table, sl₂⟩, hc, h⟩ := ofExcept_bind_eq_ok.mp h
    obtain ⟨sr₁, s₂, hr₁, h⟩ := run_bind_eq_ok.mp h
    obtain ⟨⟨rs, sr₂⟩, hc', h⟩ := ofExcept_bind_eq_ok.mp h
    cases h
    obtain ⟨ls, hls, hfold⟩ := (feeds_iff hstd).mp ⟨sl₁, sl₂, hl₁, hc⟩
    obtain ⟨_, htable, rfl⟩ := (foldlM_append_eq_ok (build_eq leftKey left.outputSchema)).mp hfold
    exact ⟨_, left, leftKey, ls, s₁, rfl, rfl, rfl, rfl, rfl, hls, htable⟩
  | _ => cases hjs

/-! ## The restart -/

/-- `Init` on a tree in any state, and then `Next` until it returns false. -/
def Restarts (env : Env σ) (op : Operator) (st : op.State) (s : σ) (rows : List Tuple) (s' : σ) : Prop :=
  ∃ st', op.init env st s = .ok st' s' ∧ Yields (op.next env.std) st' rows

/-- The tree was left after a join had returned a tuple. -/
def MidJoin (op : Operator) (outs : List (Option Tuple)) : Prop :=
  op.endsInJoin = true ∧ ∃ t, outs.getLast? = some (some t)

section restart
variable {st st₁ st₂ : op.State} {outs : List (Option Tuple)} {s₁ : σ}

theorem settled_calls (hinit : op.init env op.fresh s = .ok st s₁) (hcalls : Calls (op.next env.std) st outs st₁) :
    op.Settled st₁ :=
  hcalls.invariant (fun _ _ _ hst hn => settled_next hn hst) (settled_init hstd hinit (quiet_fresh op).1).1

theorem staleKey_calls (hinit : op.init env op.fresh s = .ok st s₁) (hcalls : Calls (op.next env.std) st outs st₁)
    (hmid : ¬ MidJoin op outs) : op.staleKey st₁ = [] := by
  cases hcalls with
  | none => exact (settled_init hstd hinit (quiet_fresh op).1).2.trans (quiet_fresh op).2
  | @call outs' st' _ o hcalls hn =>
    cases o with
    | none => exact staleKey_of_none hn
    | some t =>
      have hjoin : ¬ op.endsInJoin = true := fun hjoin => hmid ⟨hjoin, t, List.getLast?_concat ..⟩
      rw [← spine_isSome op st₁, Option.not_isSome_iff_eq_none] at hjoin
      rw [staleKey, hjoin]
      rfl

theorem matching_calls (hinit : op.init env op.fresh s = .ok st s₁) (hcalls : Calls (op.next env.std) st outs st₁)
    (hmid : MidJoin op outs) :
    ∃ js₁ left leftKey ls s' table, op.spine st₁ = some js₁ ∧ op.buildSide = some (left, leftKey) ∧
      left.Evaluates env s ls s' ∧ ls.mapM (keyed leftKey left.outputSchema) = .ok table ∧
      JoinState.matching table js₁.currentKey ≠ [] := by
  obtain ⟨hjoin, t, ht⟩ := hmid
  obtain ⟨js₀, hjs₀⟩ := Option.isSome_iff_exists.mp ((spine_isSome op op.fresh).trans hjoin)
  obtain ⟨js, left, leftKey, ls, s', hjs, hside, -, -, -, hls, htable⟩ :=
    init_spine hstd hinit (quiet_fresh op).1 hjs₀
  have hkept : ∀ {outs st'}, Calls (op.next env.std) st outs st' →
      ∃ js', op.spine st' = some js' ∧ js'.hashTable = js.hashTable := by
    intro outs st' hcalls
    refine hcalls.invariant (P := fun st => ∃ js', op.spine st = some js' ∧ js'.hashTable = js.hashTable) ?_ ⟨js, hjs, rfl⟩
    rintro st o st' ⟨js₁, hjs₁, htable₁⟩ hn
    obtain ⟨js₂, hjs₂, htable₂, -⟩ := next_spine hn hjs₁
    exact ⟨js₂, hjs₂, htable₂.trans htable₁⟩
  cases hcalls with
  | none => cases ht
  | @call outs' st' _ o hcalls hn =>
    rw [List.getLast?_concat] at ht
    cases ht
    obtain ⟨js', hjs', htable'⟩ := hkept hcalls
    obtain ⟨js₁, hjs₁, htable₁, hleft⟩ := next_spine hn hjs'
    refine ⟨js₁, left, leftKey, ls, s', _, hjs₁, hside, hls, htable, ?_⟩
    rw [← htable', ← htable₁]
    exact hleft

theorem not_restarts {I : σ → Prop} (hstable : Stable env I) (hrobust : op.Robust env I) (hs : I s)
    (hinit : op.init env op.fresh s = .ok st s₁) (hcalls : Calls (op.next env.std) st outs st₁)
    (hclose : st₂ = st₁ ∨ st₂ = op.close st₁) (hmid : MidJoin op outs) {s₂ s₃ : σ} (hs₂ : I s₂) {st₃ : op.State}
    (hagain : op.init env st₂ s₂ = .ok st₃ s₃) : op.next env.std st₃ = .error .outOfBounds := by
  obtain ⟨js₁, left, leftKey, ls, s', table, hjs₁, hside, hls, htable, hmatch⟩ := matching_calls hstd hinit hcalls hmid
  have hsettled := settled_calls hstd hinit hcalls
  obtain ⟨hsettled₂, js₂, hjs₂, hkey₂⟩ :
      op.Settled st₂ ∧ ∃ js₂, op.spine st₂ = some js₂ ∧ js₂.currentKey = js₁.currentKey := by
    rcases hclose with rfl | rfl
    · exact ⟨hsettled, js₁, hjs₁, rfl⟩
    · exact ⟨settled_close hsettled, spine_close hjs₁⟩
  obtain ⟨js₃, left', leftKey', ls', s'', hjs₃, hside', hcursor, hmatch₃, hkey₃, hls', htable'⟩ :=
    init_spine hstd hagain hsettled₂ hjs₂
  cases hside.symm.trans hside'
  apply next_of_stale hjs₃ hcursor
  -- the table that is built again has the same entries
  have htables := perm_mapM (hls.perm_of_robust hstd hstable (robust_buildSide hrobust hside) hs hs₂ hls') htable htable'
  have hsome : JoinState.matching js₃.hashTable js₃.currentKey ≠ [] := by
    rw [hkey₃, hkey₂]
    intro hnil
    exact hmatch (List.perm_nil.mp (hnil ▸ JoinState.matching_perm htables js₁.currentKey))
  rw [JoinState.current, hmatch₃]
  rw [JoinState.matching] at hsome
  split
  · next hnil =>
    rw [if_pos hnil] at hsome
    exact absurd rfl hsome
  · next hne =>
    rw [if_neg hne] at hsome
    exact hsome

theorem restart_iff {I : σ → Prop} (hstable : Stable env I) (hs : I s) (hinit : op.init env op.fresh s = .ok st s₁)
    (hcalls : Calls (op.next env.std) st outs st₁) (hclose : st₂ = st₁ ∨ st₂ = op.close st₁) {s₂ s₃ : σ} (hs₂ : I s₂)
    {rows : List Tuple} (hfresh : op.Evaluates env s₂ rows s₃) :
    (¬ MidJoin op outs → Restarts env op st₂ s₂ rows s₃) ∧
    (op.Robust env I →
      ((∃ again s', Restarts env op st₂ s₂ again s' ∧ ∀ s₄ other s₅, I s₄ → op.Evaluates env s₄ other s₅ →
        again.Perm other ∧ (op.Serial → again = other)) ↔ ¬ MidJoin op outs)) := by
  have hsame (hmid : ¬ MidJoin op outs) : Restarts env op st₂ s₂ rows s₃ := by
    have hsettled := settled_calls hstd hinit hcalls
    have hkey := staleKey_calls hstd hinit hcalls hmid
    have heq : op.init env st₂ = op.init env op.fresh := by
      rcases hclose with rfl | rfl
      · exact init_eq_fresh hsettled hkey
      · exact init_eq_fresh (settled_close hsettled) ((staleKey_close st₁).trans hkey)
    rw [Restarts, heq]
    exact hfresh
  refine ⟨hsame, fun hrobust => ⟨?_, fun hmid => ?_⟩⟩
  · rintro ⟨again, s', ⟨st₃, hagain, st₄, hdrains⟩, -⟩ hmid
    obtain ⟨r, hr⟩ := hdrains.next_ok
    cases (not_restarts hstd hstable hrobust hs hinit hcalls hclose hmid hs₂ hagain).symm.trans hr
  · refine ⟨rows, s₃, hsame hmid, ?_⟩
    intro s₄ other s₅ hs₄ hother
    exact ⟨hfresh.perm_of_robust hstd hstable hrobust hs₂ hs₄ hother,
      fun hserial => hfresh.eq_of_serial hstd hstable hserial hs₂ hs₄ hother⟩

end restart
end lawful

/-! ## A join of two rows -/

/-- The join of the table `t` with itself. -/
def selfJoin : Operator := .hashJoin (keyScan .int) (keyScan .int) (.columnRef [] (lit "k")) (.columnRef [] (lit "k"))

/-- Its state with the row `0` on both sides. -/
def joinAt (rightCursor matchCursor : Nat) (currentKey : Str) : selfJoin.State :=
  (⟨[], 1⟩, ⟨[], 1⟩, ⟨[(lit "0", [0, 0, 0, 0])], [[0, 0, 0, 0]], rightCursor, matchCursor, currentKey⟩)

theorem init_selfJoin (sl sr : (keyScan .int).State) (js : JoinState) :
    selfJoin.init (oneRow [0, 0, 0, 0]) (sl, sr, js) () = .ok (joinAt 0 0 js.currentKey) () := by
  have hdrains : Drains ((keyScan .int).next insertionStd) ⟨[[0, 0, 0, 0]], 0⟩ [[0, 0, 0, 0]] ⟨[[0, 0, 0, 0]], 1⟩ :=
    .more rfl (.done rfl)
  have hentry : keyed (.columnRef [] (lit "k")) (keyScan .int).outputSchema [0, 0, 0, 0] = .ok (lit "0", [0, 0, 0, 0]) := by
    decide +kernel
  have htable : [[0, 0, 0, 0]].foldlM (JoinState.build (.columnRef [] (lit "k")) (keyScan .int).outputSchema) [] =
      .ok [(lit "0", [0, 0, 0, 0])] :=
    (foldlM_append_eq_ok (build_eq _ _)).mpr ⟨_, mapM_cons_eq_ok.mpr ⟨_, [], hentry, rfl, rfl⟩, rfl⟩
  have hstd : Lawful (oneRow [0, 0, 0, 0]).std := lawful_insertionStd
  have hbuild := (consume_eq_ok hstd).mpr ⟨_, _, hdrains, htable, rfl⟩
  have hright : (keyScan .int).consume insertionStd collect [] ⟨[[0, 0, 0, 0]], 0⟩ =
      .ok ([[0, 0, 0, 0]], (⟨[], 1⟩ : Buffer)) := rfl
  refine (congrFun (init_hashJoin sl sr js) ()).trans (run_bind_eq_ok.mpr ?_)
  refine ⟨⟨[[0, 0, 0, 0]], 0⟩, (), rfl, ofExcept_bind_eq_ok.mpr ⟨_, hbuild, ?_⟩⟩
  exact run_bind_eq_ok.mpr ⟨⟨[[0, 0, 0, 0]], 0⟩, (), rfl, ofExcept_bind_eq_ok.mpr ⟨_, hright, rfl⟩⟩

theorem next_selfJoin :
    selfJoin.next insertionStd (joinAt 0 0 []) = .ok (some [0, 0, 0, 0, 0, 0, 0, 0], joinAt 1 1 (lit "0")) ∧
      selfJoin.next insertionStd (joinAt 1 1 (lit "0")) = .ok (none, joinAt 1 0 []) := by
  let js (rightCursor matchCursor : Nat) (currentKey : Str) : JoinState :=
    ⟨[(lit "0", [0, 0, 0, 0])], [[0, 0, 0, 0]], rightCursor, matchCursor, currentKey⟩
  let schema := (keyScan .int).outputSchema
  have hkey : evalExpr (.columnRef [] (lit "k")) [0, 0, 0, 0] schema = .ok (.int 0) := by decide +kernel
  have htext : (Value.int 0).toString = lit "0" := by decide +kernel
  have hcur : (js 1 0 (lit "0")).current = [[0, 0, 0, 0]] := by decide +kernel
  have hcur' : (js 1 1 (lit "0")).current = [] := by decide +kernel
  have hcat : concat [0, 0, 0, 0] [0, 0, 0, 0] schema schema = .ok [0, 0, 0, 0, 0, 0, 0, 0] := by decide +kernel
  have hpair : JoinState.next (.columnRef [] (lit "k")) schema schema 2 (js 0 0 []) =
      .ok (some [0, 0, 0, 0, 0, 0, 0, 0], js 1 1 (lit "0")) := by
    rw [JoinState.next_probe rfl rfl, hkey]
    show JoinState.next (.columnRef [] (lit "k")) schema schema 1 (JoinState.probe (js 0 0 []) (Value.int 0).toString) = _
    rw [htext]
    refine (JoinState.next_match hcur Nat.one_ne_zero rfl).trans ?_
    rw [hcat]
    rfl
  have hend : JoinState.next (.columnRef [] (lit "k")) schema schema 1 (js 1 1 (lit "0")) = .ok (none, js 1 0 []) := by
    rw [JoinState.next, hcur']
    rfl
  constructor
  · exact bind_eq_ok.mpr ⟨_, hpair, rfl⟩
  · exact bind_eq_ok.mpr ⟨_, hend, rfl⟩

theorem stable_sameRows (rows : List Tuple) : Stable (sameRows rows) fun _ => True where
  scan _ _ _ _ _ h := ⟨trivial, fun _ _ _ _ h' => by cases h; cases h'; rfl⟩
  parallelScan _ _ _ _ _ _ h := ⟨trivial, fun _ _ _ _ h' => by cases h; cases h'; rfl⟩
  parallelJoin _ _ _ _ _ _ _ _ h := ⟨trivial, fun _ _ _ _ _ _ _ _ h' => by cases h; cases h'; rfl⟩

theorem evaluates_selfJoin : selfJoin.Evaluates (oneRow [0, 0, 0, 0]) () [[0, 0, 0, 0, 0, 0, 0, 0]] () :=
  ⟨joinAt 0 0 [], init_selfJoin _ _ _, _, .more next_selfJoin.1 (.done next_selfJoin.2)⟩

theorem evaluates_joinedKeys : selfJoin.Evaluates (sameRows threeKeys) () joinedKeys () := by
  have hrows := hashJoin_evaluates lawful_insertionStd evaluates_threeKeys evaluates_threeKeys keyed_threeKeys keyed_threeKeys
  have heq : (threeKeys.flatMap fun r => if (Value.int (r.headD 0).toNat).toString = [] then [] else
      joinedWith (fun t => .int (t.headD 0).toNat) (fun t => .int (t.headD 0).toNat) threeKeys r) = joinedKeys := by
    decide +kernel
  rwa [heq] at hrows

/-- The join of three rows, restarted after its end. -/
theorem restart_at_end : ∃ st outs st₁, selfJoin.init (sameRows threeKeys) selfJoin.fresh () = .ok st () ∧
    Calls (selfJoin.next insertionStd) st outs st₁ ∧ outs.getLast? = some none ∧
    Restarts (sameRows threeKeys) selfJoin (selfJoin.close st₁) () joinedKeys () ∧
    ∃ again s', Restarts (sameRows threeKeys) selfJoin (selfJoin.close st₁) () again s' ∧
      ∀ s₄ other s₅, True → selfJoin.Evaluates (sameRows threeKeys) s₄ other s₅ →
        again.Perm other ∧ (selfJoin.Serial → again = other) := by
  obtain ⟨st, hinit, st', hdrains⟩ := evaluates_joinedKeys
  obtain ⟨outs, st₁, hcalls, hlast⟩ := hdrains.calls
  have hend := hcalls.call hlast
  have hout : (outs ++ [none]).getLast? = some none := List.getLast?_concat
  have hmid : ¬ MidJoin selfJoin (outs ++ [none]) := by
    rintro ⟨-, t, ht⟩
    cases hout.symm.trans ht
  obtain ⟨hsame, hiff⟩ := restart_iff lawful_insertionStd (stable_sameRows threeKeys) trivial hinit hend (Or.inr rfl)
    trivial evaluates_joinedKeys
  exact ⟨st, _, st', hinit, hend, hout, hsame hmid, (hiff ⟨trivial, trivial⟩).mpr hmid⟩

/-- The join is restarted after one call, and the next call is out of bounds. -/
theorem restart_after_row :
    selfJoin.init (oneRow [0, 0, 0, 0]) selfJoin.fresh () = .ok (joinAt 0 0 []) () ∧
    selfJoin.next insertionStd (joinAt 0 0 []) = .ok (some [0, 0, 0, 0, 0, 0, 0, 0], joinAt 1 1 (lit "0")) ∧
    selfJoin.init (oneRow [0, 0, 0, 0]) (joinAt 1 1 (lit "0")) () = .ok (joinAt 0 0 (lit "0")) () ∧
    selfJoin.next insertionStd (joinAt 0 0 (lit "0")) = .error .outOfBounds ∧
    selfJoin.Evaluates (oneRow [0, 0, 0, 0]) () [[0, 0, 0, 0, 0, 0, 0, 0]] () := by
  refine ⟨init_selfJoin _ _ _, next_selfJoin.1, init_selfJoin _ _ _, ?_, evaluates_selfJoin⟩
  have hcur : JoinState.current ⟨[(lit "0", [0, 0, 0, 0])], [[0, 0, 0, 0]], 0, 0, lit "0"⟩ ≠ [] := by decide +kernel
  exact next_of_stale rfl rfl hcur

end Operator
end MyDB.Executor

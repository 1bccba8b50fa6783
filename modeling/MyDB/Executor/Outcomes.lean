import MyDB.Executor.JoinedRows
import MyDB.Lib.Outcome

/-! How the run of a tree of operators can end. On tuples of their schemas expressions
fail by exceptions only, so that the operators do too, but for two: a `Projection` may
write past the end of its tuple, and a `HashAggregate` may evaluate an aggregate that has
no argument. -/

namespace MyDB.Executor
open MyDB.Parser MyDB.Lib

/-! ## Expressions -/

section expressions
variable {e : Expr} {t : Tuple} {schema : Schema} {f : Fault} {items : List OrderByItem} {rows : List Tuple}

theorem isException_of_evalExpr (ht : t.length = schema.tupleSize) (h : evalExpr e t schema = .error f) :
    f.IsException := by
  obtain ⟨msg, rfl⟩ := evalExpr_error_of_length ht h
  trivial

theorem evalExpr_ends (ht : t.length = schema.tupleSize) (e : Expr) :
    Ends (fun v => evalExpr e t schema = .ok v) Fault.IsException (evalExpr e t schema) :=
  Ends.of_error fun _ h => isException_of_evalExpr ht h

theorem isException_of_compareValues {op : BinaryOp} {v w : Value} (h : compareValues op v w = .error f) :
    f.IsException := by
  unfold compareValues at h
  dsimp only at h
  split at h
  · cases h
  · cases h
    trivial

theorem isException_of_evalPred (ht : t.length = schema.tupleSize) (h : evalPred e t schema = .error f) :
    f.IsException := by
  fun_induction evalPred e t schema with
  | case1 left ih =>
    rcases bind_eq_error.mp h with hleft | ⟨b, -, h⟩
    · exact ih hleft
    · cases h
  | case2 left right ihl ihr =>
    rcases bind_eq_error.mp h with hleft | ⟨b, -, h⟩
    · exact ihl hleft
    · cases b with
      | true => exact ihr h
      | false => cases h
  | case3 left right ihl ihr =>
    rcases bind_eq_error.mp h with hleft | ⟨b, -, h⟩
    · exact ihl hleft
    · cases b with
      | true => cases h
      | false => exact ihr h
  | case4 op left right =>
    rcases bind_eq_error.mp h with hleft | ⟨v, -, h⟩
    · exact isException_of_evalExpr ht hleft
    · rcases bind_eq_error.mp h with hright | ⟨w, -, h⟩
      · exact isException_of_evalExpr ht hright
      · exact isException_of_compareValues h
  | case5 =>
    cases h
    trivial

theorem evalPred_ends (ht : t.length = schema.tupleSize) (p : Expr) :
    Ends (fun b => evalPred p t schema = .ok b) Fault.IsException (evalPred p t schema) :=
  Ends.of_error fun _ h => isException_of_evalPred ht h

end expressions

/-! ## Trees -/

namespace Operator
variable {σ : Type} {env : Env σ} {I : σ → Prop} {child left right : Operator} {D D' L R : Tuple → Prop}

/-- From the states with `I` the tree returns rows with `D`, or it ends by an exception. -/
def Emits (env : Env σ) (I : σ → Prop) (op : Operator) (D : Tuple → Prop) : Prop :=
  ∃ J : op.State → Prop, EndsFrom I J Fault.IsException (op.init env op.fresh) ∧
    Gives (op.next env.std) J D Fault.IsException

theorem ofExcept_ends {α : Type} {P : α → Prop} {x : Except Fault α} (h : Ends P Fault.IsException x) :
    EndsFrom I P Fault.IsException (ofExcept x) := by
  intro s hs
  cases x with
  | ok a => exact ⟨h, hs⟩
  | error e => exact h

theorem consume_ends (hstd : Lawful env.std) {op : Operator} {J : op.State → Prop}
    (h : Gives (op.next env.std) J D Fault.IsException) {β : Type} {body : β → Tuple → Except Fault β} {Q : β → Prop}
    (hbody : ∀ b, Q b → ∀ t, D t → Ends Q Fault.IsException (body b t)) {b : β} (hb : Q b) {st : op.State} (hst : J st) :
    Ends (fun r => Q r.1) Fault.IsException (op.consume env.std body b st) :=
  (h.whileNext (next_decreases hstd op) hbody hst hb (Nat.lt_succ_self _)).bind fun _ hr => hr

theorem collect_ends (ts : List Tuple) (hts : ∀ t ∈ ts, D t) (t : Tuple) (ht : D t) :
    Ends (fun ts => ∀ t ∈ ts, D t) Fault.IsException (collect ts t) :=
  List.forall_mem_append.mpr ⟨hts, List.forall_mem_singleton.mpr ht⟩

theorem buffer_gives : Gives Buffer.next (fun b => ∀ t ∈ b.buffer, D t) D Fault.IsException := by
  rintro ⟨l, cursor⟩ hl
  rw [Buffer.next]
  cases hc : l[cursor]? with
  | none => exact ⟨fun t ht => absurd ht (Option.some_ne_none t).symm, hl⟩
  | some t =>
    refine ⟨fun u hu => ?_, hl⟩
    cases hu
    exact hl t (List.mem_of_getElem? hc)

theorem emits_seqScan {info : TableInfo} (h : EndsFrom I (fun rows => ∀ t ∈ rows, D t) Fault.IsException (env.scan info))
    (schema : Schema) : Emits env I (.seqScan info schema) D :=
  ⟨_, h.bind fun _ hrows => EndsFrom.pure hrows, buffer_gives⟩

theorem emits_filter (hstd : Lawful env.std) (h : Emits env I child D)
    (hsized : ∀ t, D t → t.length = child.outputSchema.tupleSize) (p : Expr) :
    Emits env I (.filter child p) fun t => D t ∧ evalPred p t child.outputSchema = .ok true := by
  obtain ⟨J, hinit, hnext⟩ := h
  refine ⟨J, hinit, hnext.filterNext (next_decreases hstd child) fun t ht => ?_⟩
  refine (evalPred_ends (hsized t ht) p).imp fun b hb htrue => ⟨ht, ?_⟩
  rw [hb, htrue]

section join
variable {leftKey rightKey : Expr} {ls rs : Schema}

structure JoinInv (L R : Tuple → Prop) (leftKey rightKey : Expr) (ls rs : Schema) (js : JoinState) : Prop where
  table : ∀ e ∈ js.hashTable, L e.2 ∧ keyText leftKey ls e.2 = e.1
  buffer : ∀ r ∈ js.rightBuffer, R r
  current : js.currentKey ≠ [] → js.rightCursor ≠ 0 ∧
    ∃ r, js.rightBuffer[js.rightCursor - 1]? = some r ∧ keyText rightKey rs r = js.currentKey

theorem build_ends (hL : ∀ l, L l → l.length = ls.tupleSize) (table : List (Str × Tuple))
    (htable : ∀ e ∈ table, L e.2 ∧ keyText leftKey ls e.2 = e.1) (l : Tuple) (hl : L l) :
    Ends (fun table => ∀ e ∈ table, L e.2 ∧ keyText leftKey ls e.2 = e.1) Fault.IsException
      (JoinState.build leftKey ls table l) := by
  refine (evalExpr_ends (hL l hl) leftKey).bind fun v hv => ?_
  refine List.forall_mem_append.mpr ⟨htable, List.forall_mem_singleton.mpr ⟨hl, ?_⟩⟩
  rw [keyText, valOf_eq hv]

theorem JoinInv.mem_current {js : JoinState} (h : JoinInv L R leftKey rightKey ls rs js) {l : Tuple} {rest : List Tuple}
    (hcur : js.current = l :: rest) : L l ∧ keyText leftKey ls l = js.currentKey := by
  have hmem : l ∈ js.bucket js.currentKey := by
    rw [JoinState.current, if_neg (JoinState.currentKey_ne_nil hcur)] at hcur
    exact List.mem_of_mem_drop (hcur ▸ List.mem_cons_self)
  obtain ⟨entry, hentry, rfl⟩ := List.mem_map.mp hmem
  obtain ⟨hin, hkey⟩ := List.mem_filter.mp hentry
  obtain ⟨hl, htext⟩ := h.table entry hin
  exact ⟨hl, htext.trans (of_decide_eq_true hkey)⟩

theorem joinNext_ends (hL : ∀ l, L l → l.length = ls.tupleSize) (hR : ∀ r, R r → r.length = rs.tupleSize) {fuel : Nat}
    {js : JoinState} (h : JoinInv L R leftKey rightKey ls rs js) (hfuel : js.rightBuffer.length - js.rightCursor < fuel) :
    Ends (fun o => (∀ t, o.1 = some t → ∃ l r, L l ∧ R r ∧ Partners ls rs leftKey rightKey l r ∧ t = l ++ r) ∧
      JoinInv L R leftKey rightKey ls rs o.2) Fault.IsException (JoinState.next rightKey ls rs fuel js) := by
  induction fuel generalizing js with
  | zero => exact absurd hfuel (Nat.not_lt_zero _)
  | succ fuel ih =>
    cases hcur : js.current with
    | cons l rest =>
      obtain ⟨hcursor, r, hr, hkey⟩ := h.current (JoinState.currentKey_ne_nil hcur)
      obtain ⟨hl, htext⟩ := h.mem_current hcur
      have hRr := h.buffer r (List.mem_of_getElem? hr)
      rw [JoinState.next_match hcur hcursor hr, concat_of_length (hL l hl) (hR r hRr)]
      refine ⟨fun t ht => ?_, h.table, h.buffer, h.current⟩
      cases ht
      refine ⟨l, r, hl, hRr, ⟨htext.trans hkey.symm, ?_⟩, rfl⟩
      rw [hkey]
      exact JoinState.currentKey_ne_nil hcur
    | nil =>
      cases hr : js.rightBuffer[js.rightCursor]? with
      | none =>
        obtain ⟨m, hnext⟩ := JoinState.next_end rightKey ls rs fuel hcur hr
        rw [hnext]
        exact ⟨fun t ht => absurd ht (Option.some_ne_none t).symm, h.table, h.buffer, fun hne => absurd rfl hne⟩
      | some r =>
        have hlt := (List.getElem?_eq_some_iff.mp hr).1
        rw [JoinState.next_probe hcur hr]
        refine (evalExpr_ends (hR r (h.buffer r (List.mem_of_getElem? hr))) rightKey).bind fun v hv => ih ?_ ?_
        · refine ⟨h.table, h.buffer, fun _ => ⟨Nat.succ_ne_zero _, r, hr, ?_⟩⟩
          rw [keyText, valOf_eq hv]
          rfl
        · change js.rightBuffer.length - (js.rightCursor + 1) < fuel
          omega

theorem emits_hashJoin (hstd : Lawful env.std) (hleft : Emits env I left L) (hright : Emits env I right R)
    (hL : ∀ l, L l → l.length = left.outputSchema.tupleSize) (hR : ∀ r, R r → r.length = right.outputSchema.tupleSize) :
    Emits env I (.hashJoin left right leftKey rightKey) fun t => ∃ l r, L l ∧ R r ∧
      Partners left.outputSchema right.outputSchema leftKey rightKey l r ∧ t = l ++ r := by
  obtain ⟨Jl, hinitl, hnextl⟩ := hleft
  obtain ⟨Jr, hinitr, hnextr⟩ := hright
  refine ⟨fun st => JoinInv L R leftKey rightKey left.outputSchema right.outputSchema st.2.2, ?_, ?_⟩
  · rw [fresh, init_hashJoin]
    refine hinitl.bind fun sl hsl => ?_
    refine (ofExcept_ends (consume_ends hstd hnextl (build_ends hL) (List.forall_mem_nil _) hsl)).bind fun table htable => ?_
    refine hinitr.bind fun sr hsr => ?_
    refine (ofExcept_ends (consume_ends hstd hnextr collect_ends (List.forall_mem_nil _) hsr)).bind fun buffer hbuffer => ?_
    exact EndsFrom.pure ⟨htable, hbuffer, fun hne => absurd rfl hne⟩
  · rintro ⟨sl, sr, js⟩ hjs
    exact (joinNext_ends hL hR hjs (Nat.lt_succ_self _)).bind fun _ hr => hr

end join

/-! ## Aggregates -/

section aggregate
variable {groupBy : List Expr} {aggExprs : List AggExpr} {ae : AggExpr} {schema outputSchema : Schema}
  {cols : List Column} {t : Tuple}

def HasArgument (ae : AggExpr) : Prop := ae.func ≠ .count → ae.arg ≠ none

theorem update_ends (ht : t.length = schema.tupleSize) (harg : HasArgument ae) (a : Accumulator) :
    Ends (fun _ => True) Fault.IsException (a.update ae t schema) := by
  obtain ⟨func, arg, name⟩ := ae
  cases arg with
  | none =>
    cases func with
    | count => trivial
    | _ => exact absurd rfl (harg fun hcount => by cases hcount)
  | some e =>
    cases func with
    | count => trivial
    | _ => exact (evalExpr_ends ht e).bind fun _ _ => trivial

theorem updateAccs_ends (ht : t.length = schema.tupleSize) (hargs : ∀ ae ∈ aggExprs, HasArgument ae)
    {accs : List Accumulator} (hlen : accs.length = aggExprs.length) :
    Ends (fun accs' => accs'.length = aggExprs.length) Fault.IsException (AggState.updateAccs schema t aggExprs accs) := by
  induction aggExprs generalizing accs with
  | nil => rfl
  | cons ae aggExprs ih =>
    cases accs with
    | nil => cases hlen
    | cons a accs =>
      obtain ⟨harg, hrest⟩ := List.forall_mem_cons.mp hargs
      refine (update_ends ht harg a).bind fun _ _ => (ih hrest (Nat.succ.inj hlen)).bind fun accs' haccs' => ?_
      exact congrArg Nat.succ haccs'

def GroupOf (D : Tuple → Prop) (groupBy : List Expr) (aggExprs : List AggExpr) (schema : Schema) (g : Group) : Prop :=
  (∃ t, D t ∧ groupBy.mapM (evalExpr · t schema) = .ok g.keyVals) ∧ g.accs.length = aggExprs.length

theorem groupOf_openGroups (hcols : GroupColumns schema groupBy cols) (ht : t.length = schema.tupleSize) (hD : D t)
    {groups : List (Str × Group)} (hgroups : ∀ g ∈ groups, GroupOf D groupBy aggExprs schema g.2) :
    ∀ g ∈ openGroups groupBy aggExprs schema groups t, GroupOf D groupBy aggExprs schema g.2 := by
  rw [openGroups]
  split
  · exact hgroups
  · refine List.forall_mem_append.mpr ⟨hgroups, List.forall_mem_singleton.mpr ⟨⟨t, hD, (hcols.reads ht).1⟩, ?_⟩⟩
    exact List.length_map _

theorem add_ends (hsized : ∀ t, D t → t.length = schema.tupleSize) (hcols : GroupColumns schema groupBy cols)
    (hargs : ∀ t, D t → ∀ ae ∈ aggExprs, HasArgument ae) (groups : List (Str × Group))
    (hgroups : ∀ g ∈ groups, GroupOf D groupBy aggExprs schema g.2) (t : Tuple) (ht : D t) :
    Ends (fun groups => ∀ g ∈ groups, GroupOf D groupBy aggExprs schema g.2) Fault.IsException
      (AggState.add groupBy aggExprs schema groups t) := by
  rw [add_of_group (hcols.reads (hsized t ht)).1]
  refine Ends.mapM fun g hg => ?_
  obtain ⟨hkey, hlen⟩ := groupOf_openGroups hcols (hsized t ht) ht hgroups g hg
  rw [updateEntry]
  split
  · exact (updateAccs_ends (hsized t ht) (hargs t ht) hlen).bind fun accs haccs => ⟨hkey, haccs⟩
  · exact ⟨hkey, hlen⟩

theorem length_serialize_values {accs : List Accumulator} (hlen : accs.length = aggExprs.length) :
    List.Forall₂ (fun v (c : Column) => v.serialize.length = c.type.fixedSize)
      (List.zipWith (fun ae a => Accumulator.value a ae.func) aggExprs accs)
      (aggExprs.map fun ae => ⟨ae.outputName, .int⟩) := by
  induction aggExprs generalizing accs with
  | nil => exact .nil
  | cons ae aggExprs ih =>
    cases accs with
    | nil => cases hlen
    | cons a accs =>
      refine .cons ?_ (ih (Nat.succ.inj hlen))
      dsimp only
      rw [value_int]
      exact length_toLE ..

theorem groupTuple_ends (hsized : ∀ t, D t → t.length = schema.tupleSize) (hcols : GroupColumns schema groupBy cols)
    (hbuild : Planner.buildAggSchema groupBy aggExprs schema = .ok outputSchema) {g : Group}
    (hg : GroupOf D groupBy aggExprs schema g) :
    Ends (fun t => t.length = outputSchema.tupleSize) Fault.IsException (AggState.groupTuple aggExprs outputSchema g) := by
  obtain ⟨⟨t, ht, hvals⟩, hlen⟩ := hg
  obtain ⟨outCols, houtput, htypes⟩ := hcols.build hbuild
  obtain ⟨hreads, hread⟩ := hcols.reads (hsized t ht)
  have hkey : g.keyVals = groupVals groupBy schema t := Except.ok.inj (hvals.symm.trans hreads)
  have hfits : outputSchema.Fits (groupVals groupBy schema t ++
      List.zipWith (fun ae a => Accumulator.value a ae.func) aggExprs g.accs) := by
    rw [Schema.Fits, houtput]
    exact List.rel_append ((hread.typed htypes).imp fun _ _ h => Value.length_serialize h) (length_serialize_values hlen)
  rw [AggState.groupTuple, hkey, Tuple.ofValues_ok hfits]
  exact Tuple.length_encode_fits hfits

theorem emits_hashAggregate (hstd : Lawful env.std) (h : Emits env I child D)
    (hsized : ∀ t, D t → t.length = child.outputSchema.tupleSize) (hcols : GroupColumns child.outputSchema groupBy cols)
    (hbuild : Planner.buildAggSchema groupBy aggExprs child.outputSchema = .ok outputSchema)
    (hargs : ∀ t, D t → ∀ ae ∈ aggExprs, HasArgument ae) :
    Emits env I (.hashAggregate child groupBy aggExprs outputSchema) fun t => t.length = outputSchema.tupleSize := by
  obtain ⟨J, hinit, hnext⟩ := h
  refine ⟨fun st => ∀ g ∈ st.2.groups, GroupOf D groupBy aggExprs child.outputSchema g.2, ?_, ?_⟩
  · rw [fresh, init_hashAggregate]
    refine hinit.bind fun sc hsc => ?_
    refine (ofExcept_ends (consume_ends hstd hnext (add_ends hsized hcols hargs) (List.forall_mem_nil _) hsc)).bind
      fun groups hgroups => ?_
    exact EndsFrom.pure hgroups
  · rintro ⟨sc, groups, cursor⟩ hgroups
    have hstep := Gives.indexNext (fun g hg => groupTuple_ends hsized hcols hbuild (hgroups g hg)) cursor trivial
    change Ends _ _ (AggState.next aggExprs outputSchema ⟨groups, cursor⟩ >>= fun r => pure (r.1, sc, r.2))
    rw [AggState.next_eq]
    cases hindex : indexNext (fun g => AggState.groupTuple aggExprs outputSchema g.2) groups cursor with
    | error e =>
      rw [hindex] at hstep
      exact hstep
    | ok r =>
      rw [hindex] at hstep
      exact ⟨hstep.1, hgroups⟩

end aggregate

/-! ## Projections -/

section projection
variable {exprs : List Expr} {schema childSchema : Schema} {t : Tuple} {vals : List Value} {i : Nat}

end projection

end Operator

end MyDB.Executor

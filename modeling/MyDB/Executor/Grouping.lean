import MyDB.Common.Decimal
import MyDB.Executor.Evaluation
import MyDB.Lib.GroupBy

/-! What `HashAggregate` computes: the tuples of the child are put into groups by
`MakeKey`, and a group's accumulators are folded over its tuples. `MakeKey` joins the
texts of the values with a separator that a `VARCHAR` may contain. -/

namespace MyDB.Executor
open MyDB.Parser MyDB.Lib

def groupVals (groupBy : List Expr) (schema : Schema) (t : Tuple) : List Value :=
  match groupBy.mapM (evalExpr · t schema) with
  | .ok vs => vs
  | .error _ => []

def argVal (ae : AggExpr) (schema : Schema) (t : Tuple) : Int :=
  match ae.arg with
  | none => 0
  | some e =>
    match evalExpr e t schema with
    | .ok v => v.asInt
    | .error _ => 0

/-- `COUNT` does not look at its argument; the others have one that can be evaluated. -/
def ReadsArg (ae : AggExpr) (schema : Schema) (t : Tuple) : Prop :=
  ae.func ≠ .count → ∃ e v, ae.arg = some e ∧ evalExpr e t schema = .ok v

/-- `Init` can add the tuple to a group. -/
structure Readable (groupBy : List Expr) (aggExprs : List AggExpr) (schema : Schema) (t : Tuple) : Prop where
  group : groupBy.mapM (evalExpr · t schema) = .ok (groupVals groupBy schema t)
  args : ∀ ae ∈ aggExprs, ReadsArg ae schema t

def groupKey (vs : List Value) : Str := vs.flatMap fun v => v.toString ++ lit "|"

theorem groupKey_cons (v : Value) (vs : List Value) : groupKey (v :: vs) = v.toString ++ lit "|" ++ groupKey vs :=
  List.flatMap_cons

section add
variable {groupBy : List Expr} {aggExprs : List AggExpr} {ae : AggExpr} {schema : Schema} {t : Tuple}

theorem groupVals_eq {vs : List Value} (h : groupBy.mapM (evalExpr · t schema) = .ok vs) :
    groupVals groupBy schema t = vs := by
  rw [groupVals, h]

theorem argVal_eq {e : Expr} {v : Value} (harg : ae.arg = some e) (h : evalExpr e t schema = .ok v) :
    argVal ae schema t = v.asInt := by
  rw [argVal, harg]
  dsimp only
  rw [h]

theorem makeKey_eq_ok {key : Str} :
    AggState.makeKey groupBy schema t = .ok key ↔
      ∃ vs, groupBy.mapM (evalExpr · t schema) = .ok vs ∧ key = groupKey vs := by
  have hgen : ∀ acc : Str,
      groupBy.foldlM (fun key e => return key ++ (← evalExpr e t schema).toString ++ lit "|") acc = .ok key ↔
        ∃ vs, groupBy.mapM (evalExpr · t schema) = .ok vs ∧ key = acc ++ groupKey vs := by
    induction groupBy with
    | nil =>
      intro acc
      rw [List.foldlM_nil, pure_eq_ok]
      constructor
      · rintro rfl
        exact ⟨[], rfl, (List.append_nil _).symm⟩
      · rintro ⟨vs, hvs, rfl⟩
        cases pure_eq_ok.mp hvs
        exact (List.append_nil _).symm
    | cons e es ih =>
      intro acc
      rw [List.foldlM_cons, bind_eq_ok]
      constructor
      · rintro ⟨acc', hacc', h⟩
        obtain ⟨v, hv, hacc'⟩ := bind_eq_ok.mp hacc'
        cases pure_eq_ok.mp hacc'
        obtain ⟨vs, hvs, rfl⟩ := (ih _).mp h
        refine ⟨v :: vs, mapM_cons_eq_ok.mpr ⟨v, vs, hv, hvs, rfl⟩, ?_⟩
        rw [groupKey_cons]
        simp only [List.append_assoc]
      · rintro ⟨_, h, rfl⟩
        obtain ⟨v, vs, hv, hvs, rfl⟩ := mapM_cons_eq_ok.mp h
        refine ⟨_, bind_eq_ok.mpr ⟨v, hv, rfl⟩, (ih _).mpr ⟨vs, hvs, ?_⟩⟩
        rw [groupKey_cons]
        simp only [List.append_assoc]
  exact hgen []

def Accumulator.push (ae : AggExpr) (schema : Schema) (a : Accumulator) (t : Tuple) : Accumulator :=
  let v := argVal ae schema t
  if ae.func = .count then { a with count := a.count + 1 }
  else ⟨a.count + 1, a.sum + v, if v < a.min then v else a.min, if v > a.max then v else a.max⟩

theorem update_eq_ok {a a' : Accumulator} :
    a.update ae t schema = .ok a' ↔ ReadsArg ae schema t ∧ a' = a.push ae schema t := by
  obtain ⟨func, arg, name⟩ := ae
  by_cases hfunc : func = .count
  · subst hfunc
    show Except.ok { a with count := a.count + 1 } = .ok a' ↔ _
    rw [Except.ok.injEq, eq_comm]
    constructor
    · intro h
      exact ⟨fun hne => absurd rfl hne, h⟩
    · intro h
      exact h.2
  · cases arg with
    | none =>
      constructor
      · intro h
        cases func with
        | count => exact absurd rfl hfunc
        | _ => cases h
      · rintro ⟨h, -⟩
        obtain ⟨e, v, harg, -⟩ := h hfunc
        cases harg
    | some e =>
      have hupdate : a.update ⟨func, some e, name⟩ t schema = (evalExpr e t schema).map fun v =>
          ⟨a.count + 1, a.sum + v.asInt, if v.asInt < a.min then v.asInt else a.min,
            if v.asInt > a.max then v.asInt else a.max⟩ := by
        cases func with
        | count => exact absurd rfl hfunc
        | _ =>
          show (evalExpr e t schema >>= fun v => pure _) = _
          cases evalExpr e t schema with
          | ok v => rfl
          | error e => rfl
      rw [hupdate, map_eq_ok]
      constructor
      · rintro ⟨v, hv, rfl⟩
        refine ⟨fun _ => ⟨e, v, rfl, hv⟩, ?_⟩
        rw [Accumulator.push, argVal_eq rfl hv, if_neg hfunc]
      · rintro ⟨h, rfl⟩
        obtain ⟨_, v, harg, hv⟩ := h hfunc
        cases harg
        refine ⟨v, hv, ?_⟩
        rw [Accumulator.push, argVal_eq rfl hv, if_neg hfunc]

theorem updateAccs_eq_ok {accs accs' : List Accumulator} (hlen : accs.length = aggExprs.length) :
    AggState.updateAccs schema t aggExprs accs = .ok accs' ↔
      (∀ ae ∈ aggExprs, ReadsArg ae schema t) ∧
        accs' = List.zipWith (fun ae a => a.push ae schema t) aggExprs accs := by
  induction aggExprs generalizing accs accs' with
  | nil =>
    show (pure [] : Except Fault (List Accumulator)) = .ok accs' ↔ _
    rw [pure_eq_ok, eq_comm]
    exact ⟨fun h => ⟨fun ae hae => absurd hae List.not_mem_nil, h⟩, fun h => h.2⟩
  | cons ae aes ih =>
    cases accs with
    | nil => cases hlen
    | cons a accs =>
      rw [AggState.updateAccs, bind_eq_ok, List.zipWith_cons_cons, List.forall_mem_cons]
      constructor
      · rintro ⟨a', ha', h⟩
        obtain ⟨rest, hrest, h⟩ := bind_eq_ok.mp h
        cases pure_eq_ok.mp h
        obtain ⟨hreads, rfl⟩ := update_eq_ok.mp ha'
        obtain ⟨hall, rfl⟩ := (ih (Nat.succ.inj hlen)).mp hrest
        exact ⟨⟨hreads, hall⟩, rfl⟩
      · rintro ⟨⟨hreads, hall⟩, rfl⟩
        refine ⟨_, update_eq_ok.mpr ⟨hreads, rfl⟩, bind_eq_ok.mpr ⟨_, (ih (Nat.succ.inj hlen)).mpr ⟨hall, rfl⟩, rfl⟩⟩

variable (groupBy aggExprs schema)

/-- What the groups are told apart by. -/
def keyOf (t : Tuple) : Str := groupKey (groupVals groupBy schema t)

def newGroup (t : Tuple) : Group := ⟨groupVals groupBy schema t, aggExprs.map fun _ => .init⟩

def pushGroup (g : Group) (t : Tuple) : Group :=
  { g with accs := List.zipWith (fun ae a => a.push ae schema t) aggExprs g.accs }

def openGroups (groups : List (Str × Group)) (t : Tuple) : List (Str × Group) :=
  if groups.any (·.1 = keyOf groupBy schema t) then groups
  else groups ++ [(keyOf groupBy schema t, newGroup groupBy aggExprs schema t)]

def updateEntry (t : Tuple) (g : Str × Group) : Except Fault (Str × Group) :=
  if g.1 = keyOf groupBy schema t then
    return (g.1, { g.2 with accs := ← AggState.updateAccs schema t aggExprs g.2.accs })
  else return g

variable {groupBy aggExprs schema}

theorem add_of_group {groups : List (Str × Group)}
    (h : groupBy.mapM (evalExpr · t schema) = .ok (groupVals groupBy schema t)) :
    AggState.add groupBy aggExprs schema groups t =
      (openGroups groupBy aggExprs schema groups t).mapM (updateEntry groupBy aggExprs schema t) := by
  have hkey : AggState.makeKey groupBy schema t = .ok (keyOf groupBy schema t) := makeKey_eq_ok.mpr ⟨_, h, rfl⟩
  rw [AggState.add, hkey, h]
  show (if groups.any (·.1 = keyOf groupBy schema t) then groups.mapM (updateEntry groupBy aggExprs schema t)
    else (groups ++ [(keyOf groupBy schema t, newGroup groupBy aggExprs schema t)]).mapM
      (updateEntry groupBy aggExprs schema t)) = _
  rw [openGroups]
  split
  · rfl
  · rfl

theorem updateEntry_ok {g : Str × Group} (hargs : ∀ ae ∈ aggExprs, ReadsArg ae schema t)
    (hlen : g.2.accs.length = aggExprs.length) :
    updateEntry groupBy aggExprs schema t g =
      .ok (if g.1 = keyOf groupBy schema t then (g.1, pushGroup aggExprs schema g.2 t) else g) := by
  rw [updateEntry]
  by_cases hkey : g.1 = keyOf groupBy schema t
  · rw [if_pos hkey, if_pos hkey, (updateAccs_eq_ok hlen).mpr ⟨hargs, rfl⟩]
    rfl
  · rw [if_neg hkey, if_neg hkey]
    rfl

theorem readsArg_of_updateEntry {g g' : Str × Group} (hkey : g.1 = keyOf groupBy schema t)
    (hlen : g.2.accs.length = aggExprs.length) (h : updateEntry groupBy aggExprs schema t g = .ok g') :
    ∀ ae ∈ aggExprs, ReadsArg ae schema t := by
  rw [updateEntry, if_pos hkey] at h
  obtain ⟨accs, haccs, -⟩ := bind_eq_ok.mp h
  exact ((updateAccs_eq_ok hlen).mp haccs).1

theorem exists_openGroups (groups : List (Str × Group)) (t : Tuple) :
    ∃ g ∈ openGroups groupBy aggExprs schema groups t, g.1 = keyOf groupBy schema t := by
  rw [openGroups]
  split
  case isTrue hany => simpa using hany
  case isFalse => exact ⟨_, List.mem_append_right _ (List.mem_singleton_self _), rfl⟩

theorem length_openGroups {groups : List (Str × Group)} (hlen : ∀ g ∈ groups, g.2.accs.length = aggExprs.length) :
    ∀ g ∈ openGroups groupBy aggExprs schema groups t, g.2.accs.length = aggExprs.length := by
  intro g hg
  rw [openGroups] at hg
  split at hg
  · exact hlen g hg
  · rcases List.mem_append.mp hg with hg | hg
    · exact hlen g hg
    · rw [List.mem_singleton.mp hg]
      exact List.length_map _

theorem add_eq_ok {groups groups' : List (Str × Group)} (hlen : ∀ g ∈ groups, g.2.accs.length = aggExprs.length) :
    AggState.add groupBy aggExprs schema groups t = .ok groups' ↔
      Readable groupBy aggExprs schema t ∧
        groups' = addTo (keyOf groupBy schema) (newGroup groupBy aggExprs schema) (pushGroup aggExprs schema) groups t := by
  have hok (hargs : ∀ ae ∈ aggExprs, ReadsArg ae schema t) :
      (openGroups groupBy aggExprs schema groups t).mapM (updateEntry groupBy aggExprs schema t) =
        .ok (addTo (keyOf groupBy schema) (newGroup groupBy aggExprs schema) (pushGroup aggExprs schema) groups t) :=
    mapM_of_ok fun g hg => updateEntry_ok hargs (length_openGroups hlen g hg)
  constructor
  · intro h
    obtain ⟨key, hkey, -⟩ := bind_eq_ok.mp h
    obtain ⟨vs, hvs, -⟩ := makeKey_eq_ok.mp hkey
    rw [← groupVals_eq hvs] at hvs
    rw [add_of_group hvs] at h
    obtain ⟨g, hg, hgkey⟩ := exists_openGroups groups t
    obtain ⟨g', -, hg'⟩ := ok_of_mapM h hg
    have hargs := readsArg_of_updateEntry hgkey (length_openGroups hlen g hg) hg'
    rw [hok hargs] at h
    exact ⟨⟨hvs, hargs⟩, (Except.ok.inj h).symm⟩
  · rintro ⟨⟨hgroup, hargs⟩, rfl⟩
    rw [add_of_group hgroup, hok hargs]

theorem length_addTo {groups : List (Str × Group)} (hlen : ∀ g ∈ groups, g.2.accs.length = aggExprs.length) :
    ∀ g ∈ addTo (keyOf groupBy schema) (newGroup groupBy aggExprs schema) (pushGroup aggExprs schema) groups t,
      g.2.accs.length = aggExprs.length := by
  intro g hg
  obtain ⟨g₁, hg₁, rfl⟩ := List.mem_map.mp hg
  have hlen₁ := length_openGroups hlen g₁ hg₁
  split
  · show (List.zipWith _ aggExprs g₁.2.accs).length = _
    rw [List.length_zipWith, hlen₁, min_self]
  · exact hlen₁

theorem foldlM_add_eq_ok {rows : List Tuple} {groups groups' : List (Str × Group)}
    (hlen : ∀ g ∈ groups, g.2.accs.length = aggExprs.length) :
    rows.foldlM (AggState.add groupBy aggExprs schema) groups = .ok groups' ↔
      (∀ t ∈ rows, Readable groupBy aggExprs schema t) ∧
        groups' = rows.foldl
          (addTo (keyOf groupBy schema) (newGroup groupBy aggExprs schema) (pushGroup aggExprs schema)) groups := by
  induction rows generalizing groups with
  | nil =>
    rw [List.foldlM_nil, pure_eq_ok, eq_comm]
    exact ⟨fun h => ⟨fun t ht => absurd ht List.not_mem_nil, h⟩, fun h => h.2⟩
  | cons t rows ih =>
    rw [List.foldlM_cons, bind_eq_ok, List.forall_mem_cons, List.foldl_cons]
    constructor
    · rintro ⟨groups₁, h₁, h⟩
      obtain ⟨hread, rfl⟩ := (add_eq_ok hlen).mp h₁
      obtain ⟨hall, rfl⟩ := (ih (length_addTo hlen)).mp h
      exact ⟨⟨hread, hall⟩, rfl⟩
    · rintro ⟨⟨hread, hall⟩, rfl⟩
      exact ⟨_, (add_eq_ok hlen).mpr ⟨hread, rfl⟩, (ih (length_addTo hlen)).mpr ⟨hall, rfl⟩⟩

end add

/-! ## The rows of the result -/

def accOf (ae : AggExpr) (schema : Schema) (ts : List Tuple) : Accumulator :=
  ts.foldl (Accumulator.push ae schema) .init

def groupRow (groupBy : List Expr) (aggExprs : List AggExpr) (schema : Schema) (ts : List Tuple) (t : Tuple) :
    List Value :=
  groupVals groupBy schema t ++ aggExprs.map fun ae => (accOf ae schema ts).value ae.func

variable {groupBy : List Expr} {aggExprs : List AggExpr} {schema outputSchema : Schema}

theorem foldl_pushGroup (ts : List Tuple) (g : Group) (accs : AggExpr → Accumulator) (hg : g.accs = aggExprs.map accs) :
    ts.foldl (pushGroup aggExprs schema) g =
      ⟨g.keyVals, aggExprs.map fun ae => ts.foldl (Accumulator.push ae schema) (accs ae)⟩ := by
  induction ts generalizing g accs with
  | nil =>
    rw [List.foldl_nil]
    exact congrArg (Group.mk g.keyVals) hg
  | cons t ts ih =>
    rw [List.foldl_cons, ih (pushGroup aggExprs schema g t) fun ae => (accs ae).push ae schema t]
    · rfl
    · rw [pushGroup, hg, List.zipWith_map_right, List.zipWith_self]

theorem groupTuple_eq (ts : List Tuple) (t : Tuple) :
    AggState.groupTuple aggExprs outputSchema (ts.foldl (pushGroup aggExprs schema) (newGroup groupBy aggExprs schema t)) =
      Tuple.ofValues (groupRow groupBy aggExprs schema ts t) outputSchema := by
  rw [foldl_pushGroup ts _ (fun _ => .init) rfl, AggState.groupTuple, List.zipWith_map_right, List.zipWith_self]
  rfl

namespace Operator
variable {σ : Type} {env : Env σ} {child : Operator} {s s' : σ}

/-- `HashAggregate` returns a row for each key, in the order in which the keys first
come. -/
theorem evaluates_hashAggregate_rows (hstd : Lawful env.std) {out : List Tuple} :
    Evaluates env (.hashAggregate child groupBy aggExprs outputSchema) s out s' ↔
      ∃ rows, Evaluates env child s rows s' ∧ (∀ t ∈ rows, Readable groupBy aggExprs child.outputSchema t) ∧
        (firsts (keyOf groupBy child.outputSchema) rows).mapM (fun t =>
          Tuple.ofValues (groupRow groupBy aggExprs child.outputSchema
            (members (keyOf groupBy child.outputSchema) rows t) t) outputSchema) = .ok out := by
  have hrows (rows : List Tuple) : ((rows.foldl (addTo (keyOf groupBy child.outputSchema)
      (newGroup groupBy aggExprs child.outputSchema) (pushGroup aggExprs child.outputSchema)) []).mapM fun g =>
        AggState.groupTuple aggExprs outputSchema g.2) = (firsts (keyOf groupBy child.outputSchema) rows).mapM fun t =>
          Tuple.ofValues (groupRow groupBy aggExprs child.outputSchema
            (members (keyOf groupBy child.outputSchema) rows t) t) outputSchema := by
    rw [foldl_addTo, List.mapM_map]
    exact congrArg (List.mapM · _) (funext fun t => groupTuple_eq _ t)
  have hnone : ∀ g ∈ ([] : List (Str × Group)), g.2.accs.length = aggExprs.length :=
    fun g hg => absurd hg List.not_mem_nil
  rw [evaluates_hashAggregate_iff hstd]
  constructor
  · rintro ⟨rows, groups, hchild, hfold, hout⟩
    obtain ⟨hread, rfl⟩ := (foldlM_add_eq_ok hnone).mp hfold
    rw [hrows] at hout
    exact ⟨rows, hchild, hread, hout⟩
  · rintro ⟨rows, hchild, hread, hout⟩
    rw [← hrows] at hout
    exact ⟨rows, _, hchild, (foldlM_add_eq_ok hnone).mpr ⟨hread, rfl⟩, hout⟩

end Operator

end MyDB.Executor

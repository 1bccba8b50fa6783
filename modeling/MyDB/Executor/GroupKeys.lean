import MyDB.Executor.Columns
import MyDB.Executor.Grouping

/-! When `MakeKey` tells lists of values apart. The texts of `INT`s have no separator
in them, so the text of one `VARCHAR` can be found between them; two `VARCHAR`s can
trade a separator. -/

namespace MyDB.Executor
open MyDB.Parser MyDB.Lib

def bar : UInt8 := 124

theorem groupKey_cons' (v : Value) (vs : List Value) : groupKey (v :: vs) = v.toString ++ bar :: groupKey vs := by
  rw [groupKey_cons, List.append_assoc]
  rfl

theorem groupKey_append (vs ws : List Value) : groupKey (vs ++ ws) = groupKey vs ++ groupKey ws :=
  List.flatMap_append

theorem cut_unique {α : Type} [DecidableEq α] {c : α} {s s' r r' : List α} (h : s ++ c :: r = s' ++ c :: r')
    (hcount : r.count c = r'.count c) : s = s' ∧ r = r' := by
  have hcut {s s' r r' as : List α} (hs : s' = s ++ as) (hr : c :: r = as ++ c :: r')
      (hcount : r.count c = r'.count c) : s = s' ∧ r = r' := by
    cases as with
    | nil =>
      rw [List.append_nil] at hs
      exact ⟨hs.symm, (List.cons.inj hr).2⟩
    | cons a as =>
      have hr' : r = as ++ c :: r' := (List.cons.inj hr).2
      rw [hr', List.count_append, List.count_cons_self] at hcount
      omega
  rcases List.append_eq_append_iff.mp h with ⟨as, hs, hr⟩ | ⟨as, hs, hr⟩
  · exact hcut hs hr hcount
  · obtain ⟨hs', hr'⟩ := hcut hs hr hcount.symm
    exact ⟨hs'.symm, hr'.symm⟩

theorem count_bar_int (v : Int) : (Value.int v).toString.count bar = 0 := by
  apply List.count_eq_zero.mpr
  intro h
  rcases mem_intToString h with hb | hb
  · exact absurd hb (by decide)
  · exact absurd hb.2 (by decide)

theorem count_bar_ints {vs : List Value} (h : (vs.map Value.typeId).count .varchar = 0) :
    (groupKey vs).count bar = vs.length := by
  induction vs with
  | nil => rfl
  | cons v vs ih =>
    cases v with
    | int i =>
      rw [List.map_cons, Value.typeId, List.count_cons_of_ne (by decide)] at h
      rw [groupKey_cons', List.count_append, count_bar_int, List.count_cons_self, ih h, Nat.zero_add, List.length_cons]
    | varchar s n =>
      rw [List.map_cons] at h
      exact absurd (List.count_eq_zero.mp h) (not_not.mpr List.mem_cons_self)

theorem groupKey_eq_of_same {vs ws : List Value} (h : List.Forall₂ Value.Same vs ws) : groupKey vs = groupKey ws := by
  induction h with
  | nil => rfl
  | cons hv _ ih => rw [groupKey_cons, groupKey_cons, ih, (Value.toString_eq_iff hv.1).mpr hv]

theorem same_of_groupKey_eq {vs ws : List Value} (htypes : vs.map Value.typeId = ws.map Value.typeId)
    (hone : (vs.map Value.typeId).count .varchar ≤ 1) (h : groupKey vs = groupKey ws) :
    List.Forall₂ Value.Same vs ws := by
  induction vs generalizing ws with
  | nil =>
    rw [List.map_nil, eq_comm, List.map_eq_nil_iff] at htypes
    subst htypes
    exact .nil
  | cons v vs ih =>
    cases ws with
    | nil => cases htypes
    | cons w ws =>
      obtain ⟨htype, hrest⟩ := List.cons.inj htypes
      rw [groupKey_cons', groupKey_cons'] at h
      rw [List.map_cons] at hone
      have hcount : (groupKey vs).count bar = (groupKey ws).count bar := by
        cases v with
        | int i =>
          cases w with
          | varchar => cases htype
          | int j =>
            have hall := congrArg (List.count bar) h
            simp only [List.count_append, List.count_cons_self, count_bar_int] at hall
            omega
        | varchar s n =>
          have hnone : (vs.map Value.typeId).count .varchar = 0 := by
            rw [Value.typeId, List.count_cons_self] at hone
            omega
          have hlen := congrArg List.length hrest
          rw [List.length_map, List.length_map] at hlen
          rw [count_bar_ints hnone, count_bar_ints (hrest ▸ hnone), hlen]
      obtain ⟨htext, hkey⟩ := cut_unique h hcount
      refine .cons ((Value.toString_eq_iff htype).mp htext) (ih hrest ?_ hkey)
      exact (List.count_le_count_cons ..).trans hone

/-! ## Two texts that trade a separator -/

def zeroOf (type : TypeId) : Value :=
  match type with
  | .int => .int 0
  | .varchar => .varchar (lit "0") 2

theorem typeId_zeroOf (type : TypeId) : (zeroOf type).typeId = type := by
  cases type with
  | int => rfl
  | varchar => rfl

theorem toString_zeroOf (type : TypeId) : (zeroOf type).toString = lit "0" := by
  cases type with
  | int => decide
  | varchar => rfl

theorem groupKey_zeros (types : List TypeId) :
    groupKey (types.map zeroOf) ++ lit "0|" = lit "0|" ++ groupKey (types.map zeroOf) := by
  induction types with
  | nil => rfl
  | cons type types ih =>
    have hhead : lit "0" ++ lit "|" = lit "0|" := by decide
    rw [List.map_cons, groupKey_cons, toString_zeroOf, hhead, List.append_assoc, ih]

def tradedVals (a b c : List TypeId) (first second : Str) : List Value :=
  a.map zeroOf ++ .varchar first 2 :: (b.map zeroOf ++ .varchar second 2 :: c.map zeroOf)

theorem groupKey_tradedVals (a b c : List TypeId) :
    groupKey (tradedVals a b c [] (lit "0|")) = groupKey (tradedVals a b c (lit "|0") []) := by
  have hkey (first second : Str) : groupKey (tradedVals a b c first second) = groupKey (a.map zeroOf) ++
      (first ++ bar :: (groupKey (b.map zeroOf) ++ (second ++ bar :: groupKey (c.map zeroOf)))) := by
    rw [tradedVals, groupKey_append, groupKey_cons', groupKey_append, groupKey_cons']
    rfl
  have hfirst (rest : Str) : lit "|0" ++ bar :: rest = bar :: (lit "0|" ++ rest) := by
    have hbars : lit "|0" = [bar, 48] ∧ lit "0|" = [48, bar] := by decide
    rw [hbars.1, hbars.2]
    rfl
  rw [hkey, hkey, hfirst, List.nil_append, List.nil_append, ← List.append_assoc, groupKey_zeros, List.append_assoc]

theorem types_tradedVals (a b c : List TypeId) (first second : Str) :
    (tradedVals a b c first second).map Value.typeId = a ++ .varchar :: (b ++ .varchar :: c) := by
  have hzeros (types : List TypeId) : (types.map zeroOf).map Value.typeId = types := by
    rw [List.map_map]
    exact (List.map_congr_left fun type _ => typeId_zeroOf type).trans (List.map_id types)
  rw [tradedVals, List.map_append, List.map_cons, List.map_append, List.map_cons, hzeros, hzeros, hzeros]
  rfl

theorem not_same_tradedVals (a b c : List TypeId) :
    ¬ List.Forall₂ Value.Same (tradedVals a b c [] (lit "0|")) (tradedVals a b c (lit "|0") []) := by
  intro h
  have hrest := (List.forall₂_drop a.length h)
  rw [tradedVals, tradedVals, List.drop_left' (List.length_map _), List.drop_left' (List.length_map _)] at hrest
  cases hrest with
  | cons hv _ => exact absurd hv (by decide)

def typesSchema (types : List TypeId) : Schema :=
  ⟨types.zipIdx.map fun (type, i) => ⟨List.replicate (i + 1) 97, ⟨type, 2⟩⟩⟩

theorem nodup_typesSchema (types : List TypeId) : ((typesSchema types).columns.map (·.name)).Nodup := by
  rw [typesSchema, List.map_map]
  have hnames : (fun c : Column => c.name) ∘ (fun (type, i) => (⟨List.replicate (i + 1) 97, ⟨type, 2⟩⟩ : Column)) =
      (fun i => List.replicate (i + 1) (97 : UInt8)) ∘ Prod.snd := rfl
  rw [hnames, ← List.map_map, List.zipIdx_map_snd]
  refine List.Nodup.map (fun i j h => ?_) (List.nodup_range' ..)
  have hlen := congrArg List.length h
  simpa using hlen

theorem typed_typesSchema {vals : List Value} (h : ∀ v ∈ vals, v.HasType ⟨v.typeId, 2⟩) :
    (typesSchema (vals.map Value.typeId)).Typed vals := by
  rw [Schema.Typed, typesSchema, List.forall₂_map_right_iff, List.zipIdx_map, List.forall₂_map_right_iff]
  rw [List.forall₂_iff_get]
  refine ⟨List.length_zipIdx.symm, ?_⟩
  intro i hi hi'
  have hmem := h _ (List.get_mem vals ⟨i, hi⟩)
  simpa using hmem

theorem hasType_tradedVals (a b c : List TypeId) (first second : Str) :
    ∀ v ∈ tradedVals a b c first second, v.HasType ⟨v.typeId, 2⟩ := by
  have hzeros (types : List TypeId) : ∀ v ∈ types.map zeroOf, v.HasType ⟨v.typeId, 2⟩ := by
    intro v hv
    obtain ⟨type, -, rfl⟩ := List.mem_map.mp hv
    cases type with
    | int => exact ⟨rfl, by decide, by decide⟩
    | varchar => exact ⟨rfl, rfl⟩
  simp only [tradedVals, List.forall_mem_append, List.forall_mem_cons]
  exact ⟨hzeros a, ⟨rfl, rfl⟩, hzeros b, ⟨rfl, rfl⟩, hzeros c⟩

theorem stored_tradedVals (a b c : List TypeId) {first second : Str} (hfirst : (Value.varchar first 2).stored = .varchar first 2)
    (hsecond : (Value.varchar second 2).stored = .varchar second 2) :
    (tradedVals a b c first second).map Value.stored = tradedVals a b c first second := by
  have hzeros (types : List TypeId) : (types.map zeroOf).map Value.stored = types.map zeroOf := by
    rw [List.map_map]
    apply List.map_congr_left
    intro type _
    cases type with
    | int => rfl
    | varchar => decide
  rw [tradedVals, List.map_append, List.map_cons, List.map_append, List.map_cons, hzeros, hzeros, hzeros, hfirst, hsecond]

theorem exists_collision (a b c : List TypeId) :
    ∃ (schema : Schema) (t u : Tuple) (vs ws : List Value), t.length = schema.tupleSize ∧ u.length = schema.tupleSize ∧
      (columnRefs schema).mapM (evalExpr · t schema) = .ok vs ∧
      (columnRefs schema).mapM (evalExpr · u schema) = .ok ws ∧
      vs.map Value.typeId = a ++ .varchar :: (b ++ .varchar :: c) ∧
      ws.map Value.typeId = a ++ .varchar :: (b ++ .varchar :: c) ∧
      groupKey vs = groupKey ws ∧ ¬ List.Forall₂ Value.Same vs ws := by
  have htyped (first second : Str) : (typesSchema (a ++ .varchar :: (b ++ .varchar :: c))).Typed
      (tradedVals a b c first second) := by
    have h := typed_typesSchema (hasType_tradedVals a b c first second)
    rwa [types_tradedVals] at h
  have hread {first second : Str} (hfirst : (Value.varchar first 2).stored = .varchar first 2)
      (hsecond : (Value.varchar second 2).stored = .varchar second 2) :
      (columnRefs (typesSchema (a ++ .varchar :: (b ++ .varchar :: c)))).mapM
        (evalExpr · (Tuple.encode (tradedVals a b c first second)) (typesSchema (a ++ .varchar :: (b ++ .varchar :: c)))) =
          .ok (tradedVals a b c first second) := by
    rw [mapM_columnRefs (nodup_typesSchema _) (htyped first second), stored_tradedVals a b c hfirst hsecond]
  exact ⟨_, _, _, _, _, Tuple.length_encode_fits (htyped [] (lit "0|")).fits,
    Tuple.length_encode_fits (htyped (lit "|0") []).fits,
    hread (by decide) (by decide), hread (by decide) (by decide), types_tradedVals .., types_tradedVals ..,
    groupKey_tradedVals a b c, not_same_tradedVals a b c⟩

theorem makeKey_eq_iff (types : List TypeId) :
    (∀ (groupBy : List Expr) (schema : Schema) (t u : Tuple) (vs ws : List Value),
      t.length = schema.tupleSize → u.length = schema.tupleSize →
      groupBy.mapM (evalExpr · t schema) = .ok vs → groupBy.mapM (evalExpr · u schema) = .ok ws →
      vs.map Value.typeId = types → ws.map Value.typeId = types →
      (AggState.makeKey groupBy schema t = AggState.makeKey groupBy schema u ↔ List.Forall₂ Value.Same vs ws)) ↔
    types.count .varchar ≤ 1 := by
  have hkeys {groupBy : List Expr} {schema : Schema} {t u : Tuple} {vs ws : List Value}
      (hvs : groupBy.mapM (evalExpr · t schema) = .ok vs) (hws : groupBy.mapM (evalExpr · u schema) = .ok ws) :
      AggState.makeKey groupBy schema t = AggState.makeKey groupBy schema u ↔ groupKey vs = groupKey ws := by
    rw [makeKey_eq_ok.mpr ⟨vs, hvs, rfl⟩, makeKey_eq_ok.mpr ⟨ws, hws, rfl⟩, Except.ok.injEq]
  constructor
  · intro h
    by_contra hmany
    -- the first `VARCHAR`, and one behind it
    obtain ⟨a, r, rfl, ha⟩ := List.eq_append_cons_of_mem (List.count_pos_iff.mp (Nat.zero_lt_of_lt (Nat.lt_of_not_le hmany)))
    rw [List.count_append, List.count_eq_zero.mpr ha, List.count_cons_self] at hmany
    obtain ⟨b, c, rfl⟩ := List.append_of_mem (List.count_pos_iff.mp (by omega : 0 < r.count TypeId.varchar))
    obtain ⟨schema, t, u, vs, ws, ht, hu, hvs, hws, htv, htw, hkey, hne⟩ := exists_collision a b c
    exact hne ((h _ schema t u vs ws ht hu hvs hws htv htw).mp ((hkeys hvs hws).mpr hkey))
  · intro hone groupBy schema t u vs ws _ _ hvs hws htv htw
    rw [hkeys hvs hws]
    exact ⟨same_of_groupKey_eq (htv.trans htw.symm) (htv ▸ hone), groupKey_eq_of_same⟩

/-- Two rows with different values and one key, which make one group. -/
theorem groupBy_two_varchars :
    let schema : Schema := ⟨[⟨lit "a", ⟨.varchar, 1⟩⟩, ⟨lit "b", ⟨.varchar, 1⟩⟩]⟩
    let groupBy := [Expr.columnRef [] (lit "a"), .columnRef [] (lit "b")]
    let scan := Operator.seqScan ⟨lit "t", schema, ⟨schema, 0, 0⟩⟩ schema
    groupBy.mapM (evalExpr · [124, 0] schema) = .ok [.varchar [124] 1, .varchar [] 1] ∧
      groupBy.mapM (evalExpr · [0, 124] schema) = .ok [.varchar [] 1, .varchar [124] 1] ∧
      AggState.makeKey groupBy schema [124, 0] = AggState.makeKey groupBy schema [0, 124] ∧
      scan.Evaluates (Operator.sameRows [[124, 0], [0, 124]]) () [[124, 0], [0, 124]] () ∧
      (Operator.hashAggregate scan groupBy [⟨.count, none, lit "COUNT"⟩]
        ⟨schema.columns ++ [⟨lit "COUNT", .int⟩]⟩).Evaluates (Operator.sameRows [[124, 0], [0, 124]]) ()
          [[124, 0, 2, 0, 0, 0]] () := by
  intro schema groupBy scan
  have hscan : scan.Evaluates (Operator.sameRows [[124, 0], [0, 124]]) () [[124, 0], [0, 124]] () :=
    Operator.evaluates_seqScan_iff.mpr rfl
  refine ⟨by decide +kernel, by decide +kernel, by decide +kernel, hscan, ?_⟩
  refine (Operator.evaluates_hashAggregate_rows Operator.lawful_insertionStd).mpr ⟨_, hscan, ?_, by decide +kernel⟩
  intro t ht
  refine ⟨?_, fun ae hae hne => absurd (by rw [List.mem_singleton.mp hae]) hne⟩
  rcases List.mem_cons.mp ht with rfl | ht
  · decide +kernel
  · rw [List.mem_singleton.mp ht]
    decide +kernel

end MyDB.Executor

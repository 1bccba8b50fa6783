import MyDB.Common.Decimal
import MyDB.Executor.Evaluation

/-! The rows of a hash join against the pairs with equal keys. The empty string marks
a probe without a key, so that tuples with an empty `VARCHAR` key find no partner. -/

namespace MyDB.Executor
open MyDB.Parser MyDB.Lib

def joinedWith (kl kr : Tuple → Value) (ls : List Tuple) (r : Tuple) : List Tuple :=
  (ls.filter fun l => (kl l).Same (kr r)).map (· ++ r)

/-- The tuples of a child: of the length of its schema, with keys of one type. -/
def Keyed (schema : Schema) (key : Expr) (type : TypeId) (k : Tuple → Value) (ts : List Tuple) : Prop :=
  ∀ t ∈ ts, t.length = schema.tupleSize ∧ evalExpr key t schema = .ok (k t) ∧ (k t).typeId = type

section
variable {σ : Type} {env : Env σ} {s s₁ s₂ : σ} {left right : Operator} {leftKey rightKey : Expr} {type : TypeId}
  {ls rs : List Tuple} {kl kr : Tuple → Value}

theorem keyed_ok {schema : Schema} {key : Expr} {k : Tuple → Value} {ts : List Tuple} (h : Keyed schema key type k ts) :
    ts.mapM (Operator.keyed key schema) = .ok (ts.map fun t => ((k t).toString, t)) := by
  apply mapM_of_ok
  intro t ht
  rw [Operator.keyed, (h t ht).2.1]
  rfl

theorem matching_eq (hl : Keyed left.outputSchema leftKey type kl ls) (hr : Keyed right.outputSchema rightKey type kr rs)
    {r : Tuple} (hmem : r ∈ rs) :
    JoinState.matching (ls.map fun t => ((kl t).toString, t)) (kr r).toString =
      if (kr r).toString = [] then [] else ls.filter fun l => (kl l).Same (kr r) := by
  rw [JoinState.matching, List.filter_map, List.map_map]
  have hsame : ls.filter ((fun e : Str × Tuple => decide (e.1 = (kr r).toString)) ∘ fun t => ((kl t).toString, t)) =
      ls.filter fun l => (kl l).Same (kr r) := by
    apply List.filter_congr
    intro l hmem'
    have htype : (kl l).typeId = (kr r).typeId := (hl l hmem').2.2.trans (hr r hmem).2.2.symm
    exact decide_eq_decide.mpr (Value.toString_eq_iff htype)
  rw [hsame]
  exact congrArg (ite _ _) (List.map_id _)

theorem probeRow_eq (hl : Keyed left.outputSchema leftKey type kl ls) (hr : Keyed right.outputSchema rightKey type kr rs)
    {r : Tuple} (hmem : r ∈ rs) :
    JoinState.probeRow (ls.map fun t => ((kl t).toString, t)) rightKey left.outputSchema right.outputSchema r =
      .ok (if (kr r).toString = [] then [] else joinedWith kl kr ls r) := by
  rw [JoinState.probeRow, (hr r hmem).2.1]
  show (JoinState.matching _ (kr r).toString).mapM _ = _
  rw [matching_eq hl hr hmem]
  split
  · rfl
  · apply mapM_of_ok
    intro l hl'
    exact concat_of_length (hl l (List.mem_of_mem_filter hl')).1 (hr r hmem).1

theorem hashJoin_evaluates (hstd : Operator.Lawful env.std) (hls : left.Evaluates env s ls s₁)
    (hrs : right.Evaluates env s₁ rs s₂) (hl : Keyed left.outputSchema leftKey type kl ls)
    (hr : Keyed right.outputSchema rightKey type kr rs) :
    (Operator.hashJoin left right leftKey rightKey).Evaluates env s
      (rs.flatMap fun r => if (kr r).toString = [] then [] else joinedWith kl kr ls r) s₂ := by
  rw [Operator.evaluates_hashJoin_iff hstd]
  refine ⟨ls, s₁, rs, _, _, hls, hrs, keyed_ok hl, mapM_of_ok fun r hmem => probeRow_eq hl hr hmem, ?_⟩
  rw [List.flatMap_def]

theorem toString_eq_nil_iff {v : Value} : v.toString = [] ↔ v.typeId = .varchar ∧ v.asVarchar = [] := by
  cases v with
  | int i =>
    constructor
    · intro h
      exact absurd h (intToString_ne_nil i)
    · intro h
      cases h.1
  | varchar t n =>
    constructor
    · intro h
      exact ⟨rfl, h⟩
    · intro h
      exact h.2

theorem flatMap_perm_iff {α β : Type} {f g : α → List β} (hsub : ∀ a, (f a).Sublist (g a)) {l : List α} :
    (l.flatMap f).Perm (l.flatMap g) ↔ ∀ a ∈ l, f a = g a := by
  have hle (l : List α) : (l.flatMap f).length ≤ (l.flatMap g).length := by
    rw [List.length_flatMap, List.length_flatMap]
    exact List.sum_le_sum fun a _ => (hsub a).length_le
  constructor
  · intro h
    replace h := h.length_eq
    induction l with
    | nil => simp
    | cons a l ih =>
      simp only [List.flatMap_cons, List.length_append] at h
      have ha := (hsub a).length_le
      have hl := hle l
      refine List.forall_mem_cons.mpr ⟨(hsub a).eq_of_length (by omega), ih (by omega)⟩
  · intro h
    rw [List.flatMap_congr h]

/-- The join returns each pair with equal keys once if and only if no left and right
tuple share the empty `VARCHAR` as their key. -/
theorem hashJoin_rows_iff (hstd : Operator.Lawful env.std) (hls : left.Evaluates env s ls s₁)
    (hrs : right.Evaluates env s₁ rs s₂) (hl : Keyed left.outputSchema leftKey type kl ls)
    (hr : Keyed right.outputSchema rightKey type kr rs) :
    (∃ rows, (Operator.hashJoin left right leftKey rightKey).Evaluates env s rows s₂ ∧
      rows.Perm (rs.flatMap fun r => (ls.filter fun l => (kl l).Same (kr r)).map (· ++ r))) ↔
    ¬ (type = .varchar ∧ (∃ l ∈ ls, (kl l).asVarchar = []) ∧ ∃ r ∈ rs, (kr r).asVarchar = []) := by
  have hrows := hashJoin_evaluates hstd hls hrs hl hr
  have hperm : (∃ rows, (Operator.hashJoin left right leftKey rightKey).Evaluates env s rows s₂ ∧
      rows.Perm (rs.flatMap (joinedWith kl kr ls))) ↔
      ∀ r ∈ rs, (kr r).toString = [] → joinedWith kl kr ls r = [] := by
    have hsub (r : Tuple) : (if (kr r).toString = [] then [] else joinedWith kl kr ls r).Sublist (joinedWith kl kr ls r) := by
      split
      · exact List.nil_sublist _
      · exact List.Sublist.refl _
    have hparts : (∀ r ∈ rs, (kr r).toString = [] → joinedWith kl kr ls r = []) ↔
        ∀ r ∈ rs, (if (kr r).toString = [] then [] else joinedWith kl kr ls r) = joinedWith kl kr ls r := by
      refine forall₂_congr fun r _ => ?_
      rw [ite_eq_right_iff]
      exact imp_congr_right fun _ => eq_comm
    rw [hparts, ← flatMap_perm_iff hsub]
    constructor
    · rintro ⟨rows, hev, hp⟩
      rw [(hev.unique hrows).1] at hp
      exact hp
    · intro hp
      exact ⟨_, hrows, hp⟩
  refine hperm.trans ?_
  constructor
  · rintro h ⟨rfl, ⟨l, hl', hlnil⟩, r, hr', hrnil⟩
    have htype := (hr r hr').2.2
    have hnil := h r hr' (toString_eq_nil_iff.mpr ⟨htype, hrnil⟩)
    have hsame : (kl l).Same (kr r) := by
      rw [← Value.toString_eq_iff ((hl l hl').2.2.trans htype.symm), toString_eq_nil_iff.mpr ⟨htype, hrnil⟩]
      exact toString_eq_nil_iff.mpr ⟨(hl l hl').2.2, hlnil⟩
    have hmem : l ∈ ls.filter fun l => (kl l).Same (kr r) := List.mem_filter.mpr ⟨hl', decide_eq_true hsame⟩
    rw [List.map_eq_nil_iff.mp hnil] at hmem
    cases hmem
  · intro h r hr' hrnil
    obtain ⟨htype, hrnil⟩ := toString_eq_nil_iff.mp hrnil
    apply List.map_eq_nil_iff.mpr
    apply List.filter_eq_nil_iff.mpr
    intro l hl' hsame
    have hsame := of_decide_eq_true hsame
    exact h ⟨(hr r hr').2.2.symm.trans htype, ⟨l, hl', hsame.2.2.trans hrnil⟩, r, hr', hrnil⟩

end

def oneRow (t : Tuple) : Env Unit := Operator.sameRows [t]

def keyTable (type : ColumnType) : TableInfo := ⟨lit "t", ⟨[⟨lit "k", type⟩]⟩, ⟨⟨[⟨lit "k", type⟩]⟩, 0, 0⟩⟩

def keyScan (type : ColumnType) : Operator := .seqScan (keyTable type) ⟨[⟨lit "k", type⟩]⟩

def threeKeys : List Tuple := [[1, 0, 0, 0], [2, 0, 0, 0], [1, 0, 0, 0]]

theorem keyed_threeKeys :
    Keyed (keyScan .int).outputSchema (.columnRef [] (lit "k")) .int (fun t => .int (t.headD 0).toNat) threeKeys := by
  unfold Keyed
  decide +kernel

theorem evaluates_threeKeys : (keyScan .int).Evaluates (Operator.sameRows threeKeys) () threeKeys () :=
  Operator.evaluates_seqScan_iff.mpr rfl

def joinedKeys : List Tuple :=
  [[1, 0, 0, 0, 1, 0, 0, 0], [1, 0, 0, 0, 1, 0, 0, 0], [2, 0, 0, 0, 2, 0, 0, 0], [1, 0, 0, 0, 1, 0, 0, 0],
    [1, 0, 0, 0, 1, 0, 0, 0]]

theorem hashJoin_rows_threeKeys :
    ∃ rows, (Operator.hashJoin (keyScan .int) (keyScan .int) (.columnRef [] (lit "k")) (.columnRef [] (lit "k"))).Evaluates
      (Operator.sameRows threeKeys) () rows () ∧ rows.Perm joinedKeys := by
  obtain ⟨rows, hrows, hperm⟩ := (hashJoin_rows_iff Operator.lawful_insertionStd evaluates_threeKeys evaluates_threeKeys
    keyed_threeKeys keyed_threeKeys).mpr (fun h => nomatch h.1)
  refine ⟨rows, hrows, hperm.trans (.of_eq ?_)⟩
  decide +kernel

/-- Two rows with the empty key match and are not joined. -/
theorem hashJoin_empty_key :
    let op := Operator.hashJoin (keyScan ⟨.varchar, 1⟩) (keyScan ⟨.varchar, 1⟩) (.columnRef [] (lit "k"))
      (.columnRef [] (lit "k"))
    op.Evaluates (oneRow [0]) () [] () ∧ (keyScan ⟨.varchar, 1⟩).Evaluates (oneRow [0]) () [[0]] () ∧
      evalExpr (.columnRef [] (lit "k")) [0] (keyScan ⟨.varchar, 1⟩).outputSchema = .ok (.varchar [] 1) := by
  intro op
  have hkey : evalExpr (.columnRef [] (lit "k")) [0] (keyScan ⟨.varchar, 1⟩).outputSchema = .ok (.varchar [] 1) := by
    decide +kernel
  have hscan : (keyScan ⟨.varchar, 1⟩).Evaluates (oneRow [0]) () [[0]] () := Operator.evaluates_seqScan_iff.mpr rfl
  have hkeyed : Keyed (keyScan ⟨.varchar, 1⟩).outputSchema (.columnRef [] (lit "k")) .varchar
      (fun _ => .varchar [] 1) [[0]] := by
    intro t ht
    rw [List.mem_singleton.mp ht]
    exact ⟨rfl, hkey, rfl⟩
  exact ⟨hashJoin_evaluates Operator.lawful_insertionStd hscan hscan hkeyed hkeyed, hscan, hkey⟩

end MyDB.Executor

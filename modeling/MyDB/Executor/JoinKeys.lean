import MyDB.Executor.HashJoinRows
import MyDB.Executor.ParallelHashJoin

/-! The two hash joins side by side. `HashJoin` compares the texts of the keys and
`ParallelHashJoin` their `AsInt`, which is 0 for every `VARCHAR`. -/

namespace MyDB.Executor
open MyDB.Parser MyDB.Lib

theorem asInt_eq_iff_same {v w : Value} {type : TypeId} (hv : v.typeId = type) (hw : w.typeId = type) :
    (v.asInt = w.asInt → v.Same w) ↔ type = .int ∨ v.asVarchar = w.asVarchar := by
  cases v with
  | int i =>
    cases w with
    | int k =>
      cases hv
      simp [Value.Same, Value.typeId, Value.asInt, Value.asVarchar]
    | varchar t m => cases hv.trans hw.symm
  | varchar s n =>
    cases w with
    | int k => cases hv.trans hw.symm
    | varchar t m =>
      cases hv
      simp [Value.Same, Value.typeId, Value.asInt, Value.asVarchar]

theorem filter_eq_filter_iff {α : Type} {p q : α → Bool} {l : List α} (hpq : ∀ a ∈ l, p a → q a) :
    l.filter p = l.filter q ↔ ∀ a ∈ l, q a → p a := by
  constructor
  · intro h a ha hq
    have hmem : a ∈ l.filter p := by
      rw [h]
      exact List.mem_filter.mpr ⟨ha, hq⟩
    exact (List.mem_filter.mp hmem).2
  · intro h
    apply List.filter_congr
    intro a ha
    exact Bool.eq_iff_iff.mpr ⟨hpq a ha, h a ha⟩

section
variable {σ : Type} {env : Env σ} {s s₁ s₂ : σ} {left right : Operator} {leftKey rightKey : Expr} {type : TypeId}
  {ls rs : List Tuple} {kl kr : Tuple → Value}

theorem intKey_keyed {schema : Schema} {key : Expr} {k : Tuple → Value} {ts : List Tuple} (h : Keyed schema key type k ts) :
    ∀ t ∈ ts, ParallelHashJoin.intKey key schema t = .ok (k t).asInt := by
  intro t ht
  unfold ParallelHashJoin.intKey
  rw [(h t ht).2.1]
  rfl

theorem joinedWith_sublist (r : Tuple) : (joinedWith kl kr ls r).Sublist
    (ParallelHashJoin.joinWith ls (fun l => (kl l).asInt) (fun r => (kr r).asInt) (· ++ ·) r) := by
  apply List.Sublist.map
  apply List.monotone_filter_right
  intro l hsame
  exact decide_eq_true (of_decide_eq_true hsame).2.1

theorem joinedWith_eq_iff (hl : Keyed left.outputSchema leftKey type kl ls)
    (hr : Keyed right.outputSchema rightKey type kr rs) {r : Tuple} (hmem : r ∈ rs) :
    joinedWith kl kr ls r =
      ParallelHashJoin.joinWith ls (fun l => (kl l).asInt) (fun r => (kr r).asInt) (· ++ ·) r ↔
    ∀ l ∈ ls, type = .int ∨ (kl l).asVarchar = (kr r).asVarchar := by
  have hinj : Function.Injective (List.map fun l : Tuple => l ++ r) :=
    List.map_injective_iff.mpr (List.append_left_injective r)
  refine hinj.eq_iff.trans ?_
  rw [filter_eq_filter_iff fun l _ hsame => decide_eq_true (of_decide_eq_true hsame).2.1]
  refine forall₂_congr fun l hmem' => ?_
  simp only [decide_eq_true_eq]
  exact asInt_eq_iff_same (hl l hmem').2.2 (hr r hmem).2.2

/-- For all outputs of the children with keys of one type and no empty text, and any
number of threads and buckets: the two joins return the same rows, each as often,
exactly if the keys are `INT`s or no left and right key differ. -/
theorem parallelHashJoin_eq_serial_iff {n bucketCount : Nat} [NeZero n] [NeZero bucketCount]
    (hstd : Operator.Lawful env.std) (hls : left.Evaluates env s ls s₁) (hrs : right.Evaluates env s₁ rs s₂)
    (hl : Keyed left.outputSchema leftKey type kl ls) (hr : Keyed right.outputSchema rightKey type kr rs)
    (hne : ∀ r ∈ rs, (kr r).toString ≠ []) :
    (∃ serial, (Operator.hashJoin left right leftKey rightKey).Evaluates env s serial s₂ ∧
      ∀ out, ParallelHashJoin.Outcome n bucketCount ls (ParallelHashJoin.intKey leftKey left.outputSchema) rs
          (ParallelHashJoin.intKey rightKey right.outputSchema) (concat · · left.outputSchema right.outputSchema) out →
        ∃ rows, Yields Buffer.next ⟨out, 0⟩ rows ∧ rows.Perm serial) ↔
    type = .int ∨ ∀ l ∈ ls, ∀ r ∈ rs, (kl l).asVarchar = (kr r).asVarchar := by
  have hrows := hashJoin_evaluates hstd hls hrs hl hr
  rw [List.flatMap_congr fun r hmem => if_neg (hne r hmem)] at hrows
  have hkl := intKey_keyed hl
  have hkr := intKey_keyed hr
  have hcat : ∀ l ∈ ls, ∀ r ∈ rs, concat l r left.outputSchema right.outputSchema = .ok (l ++ r) :=
    fun l h r h' => concat_of_length (hl l h).1 (hr r h').1
  have hcond : (∀ r ∈ rs, ∀ l ∈ ls, type = .int ∨ (kl l).asVarchar = (kr r).asVarchar) ↔
      type = .int ∨ ∀ l ∈ ls, ∀ r ∈ rs, (kl l).asVarchar = (kr r).asVarchar := by
    by_cases htype : type = .int
    · simp [htype]
    · simp only [htype, false_or]
      exact ⟨fun h l hmem r hmem' => h r hmem' l hmem, fun h r hmem l hmem' => h l hmem' r hmem⟩
  have hparts := forall₂_congr fun r (hmem : r ∈ rs) => joinedWith_eq_iff hl hr hmem
  rw [← hcond, ← hparts, ← flatMap_perm_iff joinedWith_sublist]
  constructor
  · rintro ⟨serial, hserial, hsame⟩
    obtain ⟨rfl, -⟩ := hserial.unique hrows
    obtain ⟨out, hout⟩ : ∃ out, ParallelHashJoin.Outcome n bucketCount ls _ rs _ _ out :=
      ParallelHashJoin.Outcome.exists hkl hkr hcat
    obtain ⟨rows, hyields, hperm⟩ := hsame out hout
    rw [Buffer.yields_iff.mp hyields] at hperm
    exact hperm.symm.trans (hout.perm hkl hkr hcat)
  · intro hperm
    refine ⟨_, hrows, fun out hout => ⟨out, Buffer.yields_drop out 0, ?_⟩⟩
    exact (hout.perm hkl hkr hcat).trans hperm.symm

end

def keyRef : Expr := .columnRef [] (lit "k")

theorem parallelHashJoin_eq_serial_threeKeys :
    ∃ serial, (Operator.hashJoin (keyScan .int) (keyScan .int) keyRef keyRef).Evaluates (Operator.sameRows threeKeys) ()
        serial () ∧
      ∀ out, ParallelHashJoin.Outcome 2 3 threeKeys (ParallelHashJoin.intKey keyRef (keyScan .int).outputSchema)
          threeKeys (ParallelHashJoin.intKey keyRef (keyScan .int).outputSchema)
          (concat · · (keyScan .int).outputSchema (keyScan .int).outputSchema) out →
        ∃ rows, Yields Buffer.next ⟨out, 0⟩ rows ∧ rows.Perm serial :=
  (parallelHashJoin_eq_serial_iff Operator.lawful_insertionStd evaluates_threeKeys evaluates_threeKeys keyed_threeKeys
    keyed_threeKeys (by decide +kernel)).mpr (Or.inl rfl)

/-- Two tables with the `VARCHAR` keys `a` and `b`: the serial join pairs equal keys, and
the parallel one all. -/
theorem parallelHashJoin_varchar :
    let scan := keyScan ⟨.varchar, 1⟩
    (Operator.hashJoin scan scan keyRef keyRef).Evaluates (Operator.sameRows [[97], [98]]) () [[97, 97], [98, 98]] () ∧
    ∃ out, ParallelHashJoin.Outcome 1 1 [[97], [98]] (ParallelHashJoin.intKey keyRef scan.outputSchema) [[97], [98]]
      (ParallelHashJoin.intKey keyRef scan.outputSchema) (concat · · scan.outputSchema scan.outputSchema) out ∧
      out.Perm [[97, 97], [98, 97], [97, 98], [98, 98]] := by
  intro scan
  have hkeyed : Keyed scan.outputSchema keyRef .varchar (fun t => .varchar t 1) [[97], [98]] := by
    intro t ht
    rcases List.mem_pair.mp ht with rfl | rfl
    · decide +kernel
    · decide +kernel
  have hscan : scan.Evaluates (Operator.sameRows [[97], [98]]) () [[97], [98]] () := Operator.evaluates_seqScan_iff.mpr rfl
  refine ⟨hashJoin_evaluates Operator.lawful_insertionStd hscan hscan hkeyed hkeyed, ?_⟩
  have hcat : ∀ l ∈ [[97], [98]], ∀ r ∈ [[97], [98]], concat l r scan.outputSchema scan.outputSchema = .ok (l ++ r) :=
    fun l h r h' => concat_of_length (hkeyed l h).1 (hkeyed r h').1
  obtain ⟨out, hout⟩ : ∃ out, ParallelHashJoin.Outcome 1 1 [[97], [98]] _ [[97], [98]] _ _ out :=
    ParallelHashJoin.Outcome.exists (intKey_keyed hkeyed) (intKey_keyed hkeyed) hcat
  exact ⟨out, hout, hout.perm (intKey_keyed hkeyed) (intKey_keyed hkeyed) hcat⟩

end MyDB.Executor

import MyDB.Lib.Fallible

/-! The sorting and heap algorithms of the C++ standard library, as far as the
standard fixes them. A comparator may fail; what it returns is given by `lt`. -/

namespace MyDB.Lib
variable {ε α : Type}

/-- The comparator answers `lt` on the elements of `l`. -/
def Decides (less : α → α → Except ε Bool) (lt : α → α → Prop) [DecidableRel lt] (l : List α) : Prop :=
  ∀ a ∈ l, ∀ b ∈ l, less a b = .ok (decide (lt a b))

def FailsBy (less : α → α → Except ε Bool) (l : List α) (r : Except ε (List α)) : Prop :=
  ∀ e, r = .error e → ∃ a ∈ l, ∃ b ∈ l, less a b = .error e

structure SortSpec (sort : (α → α → Except ε Bool) → List α → Except ε (List α)) : Prop where
  perm : ∀ less l l', sort less l = .ok l' → l'.Perm l
  sorted : ∀ less (lt : α → α → Prop) [DecidableRel lt] l l', IsStrictWeakOrder α lt → Decides less lt l →
    sort less l = .ok l' → l'.Pairwise fun a b => ¬ lt b a
  failsBy : ∀ less l, FailsBy less l (sort less l)

/-- Only elements at different places are compared: a failure is one of such a comparison. -/
def ComparesApart (sort : (α → α → Except ε Bool) → List α → Except ε (List α)) : Prop :=
  ∀ less l e, sort less l = .error e → ∃ (i j : Nat) (a b : α), i ≠ j ∧ l[i]? = some a ∧ l[j]? = some b ∧ less a b = .error e

theorem ComparesApart.sort_singleton {sort : (α → α → Except ε Bool) → List α → Except ε (List α)}
    (h : ComparesApart sort) (hsort : SortSpec sort) (less : α → α → Except ε Bool) (a : α) : sort less [a] = .ok [a] := by
  cases hr : sort less [a] with
  | ok l => rw [List.perm_singleton.mp (hsort.perm _ _ _ hr)]
  | error e =>
    obtain ⟨i, j, x, y, hij, hx, hy, -⟩ := h _ _ _ hr
    obtain ⟨hi, -⟩ := List.getElem?_eq_some_iff.mp hx
    obtain ⟨hj, -⟩ := List.getElem?_eq_some_iff.mp hy
    rw [List.length_singleton] at hi hj
    omega

/-- The comparator answers on two elements, either way. -/
def Compares (less : α → α → Except ε Bool) (a b : α) : Prop := (∃ r, less a b = .ok r) ∧ ∃ r, less b a = .ok r

instance [DecidableEq ε] (less : α → α → Except ε Bool) (a b : α) : Decidable (Compares less a b) :=
  inferInstanceAs (Decidable (_ ∧ _))

theorem ComparesApart.not_error {sort : (α → α → Except ε Bool) → List α → Except ε (List α)} (h : ComparesApart sort)
    {less : α → α → Except ε Bool} {l : List α} (hl : l.Pairwise (Compares less)) (e : ε) : sort less l ≠ .error e := by
  intro he
  obtain ⟨i, j, a, b, hij, ha, hb, hless⟩ := h _ _ _ he
  obtain ⟨hi, rfl⟩ := List.getElem?_eq_some_iff.mp ha
  obtain ⟨hj, rfl⟩ := List.getElem?_eq_some_iff.mp hb
  obtain ⟨r, hr⟩ : ∃ r, less l[i] l[j] = .ok r := by
    rcases Nat.lt_or_gt_of_ne hij with hlt | hgt
    · exact (List.pairwise_iff_getElem.mp hl i j hi hj hlt).1
    · exact (List.pairwise_iff_getElem.mp hl j i hj hi hgt).2
  cases hr.symm.trans hless

def IsHeap (lt : α → α → Prop) (l : List α) : Prop :=
  ∀ i a b, l[(i - 1) / 2]? = some a → l[i]? = some b → ¬ lt a b

theorem isHeap_of_pairwise {lt : α → α → Prop} {l : List α} (hirrefl : ∀ a, ¬ lt a a)
    (h : l.Pairwise fun a b => ¬ lt a b) : IsHeap lt l := by
  intro i a b ha hb
  obtain ⟨hi, rfl⟩ := List.getElem?_eq_some_iff.mp ha
  obtain ⟨hj, rfl⟩ := List.getElem?_eq_some_iff.mp hb
  by_cases hij : (i - 1) / 2 = i
  · simp only [hij]
    exact hirrefl _
  · exact List.pairwise_iff_getElem.mp h _ _ hi hj (by omega)

/-- `std::make_heap`, `std::pop_heap` and `std::push_heap`. -/
structure HeapSpec (make pop push : (α → α → Except ε Bool) → List α → Except ε (List α)) : Prop where
  make_perm : ∀ less l l', make less l = .ok l' → l'.Perm l
  make_heap : ∀ less (lt : α → α → Prop) [DecidableRel lt] l l', IsStrictWeakOrder α lt → Decides less lt l →
    make less l = .ok l' → IsHeap lt l'
  make_failsBy : ∀ less l, FailsBy less l (make less l)
  pop_perm : ∀ less l l', pop less l = .ok l' → l'.Perm l
  pop_heap : ∀ less (lt : α → α → Prop) [DecidableRel lt] l l', IsStrictWeakOrder α lt → Decides less lt l →
    IsHeap lt l → pop less l = .ok l' → l'.getLast? = l.head? ∧ IsHeap lt l'.dropLast
  pop_failsBy : ∀ less l, FailsBy less l (pop less l)
  push_perm : ∀ less l l', push less l = .ok l' → l'.Perm l
  push_heap : ∀ less (lt : α → α → Prop) [DecidableRel lt] l l', IsStrictWeakOrder α lt → Decides less lt l →
    IsHeap lt l.dropLast → push less l = .ok l' → IsHeap lt l'
  push_failsBy : ∀ less l, FailsBy less l (push less l)

variable {less : α → α → Except ε Bool} {lt : α → α → Prop} [DecidableRel lt] {l : List α}

theorem FailsBy.ok {r : Except ε (List α)} (h : FailsBy less l r) (hd : Decides less lt l) :
    ∃ l', r = .ok l' := by
  cases hr : r with
  | ok l' => exact ⟨l', rfl⟩
  | error e =>
    obtain ⟨a, ha, b, hb, he⟩ := h e hr
    rw [hd a ha b hb] at he
    cases he

/-! ## An implementation

Insertion sort meets the specification of `std::sort`, and the heap algorithms can
keep the elements in descending order. -/

def insertBy (less : α → α → Except ε Bool) (x : α) : List α → Except ε (List α)
  | [] => return [x]
  | y :: ys => do if ← less x y then return x :: y :: ys else return y :: (← insertBy less x ys)

def insertionSort (less : α → α → Except ε Bool) : List α → Except ε (List α)
  | [] => return []
  | x :: xs => do insertBy less x (← insertionSort less xs)

def descending (less : α → α → Except ε Bool) (l : List α) : Except ε (List α) :=
  insertionSort (fun a b => less b a) l

def popFirst (less : α → α → Except ε Bool) : List α → Except ε (List α)
  | [] => return []
  | x :: rest => return (← descending less rest) ++ [x]

theorem insertBy_perm {x : α} {l' : List α} (h : insertBy less x l = .ok l') : l'.Perm (x :: l) := by
  induction l generalizing l' with
  | nil =>
    cases pure_eq_ok.mp h
    exact .rfl
  | cons y ys ih =>
    obtain ⟨b, -, h⟩ := bind_eq_ok.mp h
    cases b with
    | true =>
      cases pure_eq_ok.mp h
      exact .rfl
    | false =>
      obtain ⟨r, hr, h⟩ := bind_eq_ok.mp h
      cases pure_eq_ok.mp h
      exact ((ih hr).cons y).trans (.swap x y ys)

theorem insertionSort_perm {l' : List α} (h : insertionSort less l = .ok l') : l'.Perm l := by
  induction l generalizing l' with
  | nil =>
    cases pure_eq_ok.mp h
    exact .rfl
  | cons x xs ih =>
    obtain ⟨r, hr, h⟩ := bind_eq_ok.mp h
    exact (insertBy_perm h).trans ((ih hr).cons x)

theorem insertBy_failsBy (x : α) : FailsBy less (x :: l) (insertBy less x l) := by
  intro e h
  induction l with
  | nil => cases h
  | cons y ys ih =>
    obtain hb | ⟨b, -, h⟩ := bind_eq_error.mp h
    · exact ⟨x, List.mem_cons_self, y, List.mem_cons_of_mem _ List.mem_cons_self, hb⟩
    cases b with
    | true => cases h
    | false =>
      obtain hr | ⟨r, -, h⟩ := bind_eq_error.mp h
      · obtain ⟨a, ha, b, hb, he⟩ := ih hr
        have hsub : x :: ys ⊆ x :: y :: ys := List.cons_subset_cons x (List.subset_cons_self y ys)
        exact ⟨a, hsub ha, b, hsub hb, he⟩
      · cases h

theorem insertionSort_failsBy (l : List α) : FailsBy less l (insertionSort less l) := by
  intro e h
  induction l with
  | nil => cases h
  | cons x xs ih =>
    obtain hr | ⟨r, hr, h⟩ := bind_eq_error.mp h
    · obtain ⟨a, ha, b, hb, he⟩ := ih hr
      exact ⟨a, List.mem_cons_of_mem _ ha, b, List.mem_cons_of_mem _ hb, he⟩
    · obtain ⟨a, ha, b, hb, he⟩ := insertBy_failsBy x e h
      have hsub : x :: r ⊆ x :: xs := List.cons_subset_cons x (insertionSort_perm hr).subset
      exact ⟨a, hsub ha, b, hsub hb, he⟩

section sorted
variable {r : α → α → Prop} [DecidableRel r] (hirrefl : ∀ a, ¬ r a a) (htrans : ∀ a b c, r a b → r b c → r a c)
include hirrefl htrans

theorem insertBy_sorted {x : α} {l' : List α} (hd : Decides less r (x :: l)) (hl : l.Pairwise fun a b => ¬ r b a)
    (h : insertBy less x l = .ok l') : l'.Pairwise fun a b => ¬ r b a := by
  induction l generalizing l' with
  | nil =>
    cases pure_eq_ok.mp h
    exact List.pairwise_singleton _ _
  | cons y ys ih =>
    obtain ⟨hy, hys⟩ := List.pairwise_cons.mp hl
    rw [insertBy, hd x List.mem_cons_self y (List.mem_cons_of_mem _ List.mem_cons_self)] at h
    change (if decide (r x y) = true then _ else _) = _ at h
    by_cases hxy : r x y
    · rw [if_pos (decide_eq_true hxy)] at h
      cases pure_eq_ok.mp h
      refine List.pairwise_cons.mpr ⟨fun z hz hzx => ?_, hl⟩
      have hzy : r z y := htrans z x y hzx hxy
      cases List.mem_cons.mp hz with
      | inl heq => exact hirrefl y (heq ▸ hzy)
      | inr hmem => exact hy z hmem hzy
    · rw [if_neg (by rwa [decide_eq_true_iff])] at h
      obtain ⟨l₁, hr, h⟩ := bind_eq_ok.mp h
      cases pure_eq_ok.mp h
      have hsub : x :: ys ⊆ x :: y :: ys := List.cons_subset_cons x (List.subset_cons_self y ys)
      refine List.pairwise_cons.mpr ⟨fun z hz => ?_, ih (fun a ha b hb => hd a (hsub ha) b (hsub hb)) hys hr⟩
      cases List.mem_cons.mp ((insertBy_perm hr).subset hz) with
      | inl heq => exact heq ▸ hxy
      | inr hmem => exact hy z hmem

theorem insertionSort_sorted {l' : List α} (hd : Decides less r l) (h : insertionSort less l = .ok l') :
    l'.Pairwise fun a b => ¬ r b a := by
  induction l generalizing l' with
  | nil =>
    cases pure_eq_ok.mp h
    exact .nil
  | cons x xs ih =>
    obtain ⟨l₁, hr, h⟩ := bind_eq_ok.mp h
    have hsub : x :: l₁ ⊆ x :: xs := List.cons_subset_cons x (insertionSort_perm hr).subset
    apply insertBy_sorted hirrefl htrans (fun a ha b hb => hd a (hsub ha) b (hsub hb)) _ h
    exact ih (fun a ha b hb => hd a (List.mem_cons_of_mem _ ha) b (List.mem_cons_of_mem _ hb)) hr

end sorted

theorem sortSpec_insertionSort : SortSpec (insertionSort (ε := ε) (α := α)) where
  perm _ _ _ := insertionSort_perm
  sorted _ lt _ _ _ hlt hd h := insertionSort_sorted (r := lt) hlt.irrefl hlt.trans hd h
  failsBy _ l := insertionSort_failsBy l

theorem insertBy_comparesApart {x : α} {e : ε} (h : insertBy less x l = .error e) : ∃ y ∈ l, less x y = .error e := by
  induction l with
  | nil => cases h
  | cons y ys ih =>
    obtain hb | ⟨b, -, h⟩ := bind_eq_error.mp h
    · exact ⟨y, List.mem_cons_self, hb⟩
    cases b with
    | true => cases h
    | false =>
      obtain hr | ⟨r, -, h⟩ := bind_eq_error.mp h
      · obtain ⟨z, hz, he⟩ := ih hr
        exact ⟨z, List.mem_cons_of_mem _ hz, he⟩
      · cases h

theorem comparesApart_insertionSort : ComparesApart (@insertionSort ε α) := by
  intro less l e h
  induction l with
  | nil => cases h
  | cons x xs ih =>
    obtain hr | ⟨r, hr, h⟩ := bind_eq_error.mp h
    · obtain ⟨i, j, a, b, hij, ha, hb, he⟩ := ih hr
      exact ⟨i + 1, j + 1, a, b, fun h => hij (Nat.succ.inj h), ha, hb, he⟩
    · obtain ⟨y, hy, he⟩ := insertBy_comparesApart h
      obtain ⟨j, hj⟩ := List.mem_iff_getElem?.mp ((insertionSort_perm hr).subset hy)
      exact ⟨0, j + 1, x, y, (Nat.succ_ne_zero j).symm, rfl, hj, he⟩

/-! ### All comparisons

A sort may also compare all elements with each other. -/

def compareBoth (less : α → α → Except ε Bool) (x y : α) : Except ε (Bool × Bool) := do
  return (← less x y, ← less y x)

def comparePairs (less : α → α → Except ε Bool) : List α → Except ε Unit
  | [] => return ()
  | x :: xs => do
    let _ ← xs.mapM (compareBoth less x)
    comparePairs less xs

def pairwiseSort (less : α → α → Except ε Bool) (l : List α) : Except ε (List α) := do
  comparePairs less l
  insertionSort less l

theorem compareBoth_error {x y : α} {e : ε} (h : compareBoth less x y = .error e) :
    less x y = .error e ∨ less y x = .error e := by
  rcases bind_eq_error.mp h with hxy | ⟨r, -, h⟩
  · exact .inl hxy
  · rcases bind_eq_error.mp h with hyx | ⟨r', -, h⟩
    · exact .inr hyx
    · cases h

theorem comparePairs_error {e : ε} (h : comparePairs less l = .error e) :
    ∃ (i j : Nat) (a b : α), i ≠ j ∧ l[i]? = some a ∧ l[j]? = some b ∧ less a b = .error e := by
  induction l with
  | nil => cases h
  | cons x xs ih =>
    rcases bind_eq_error.mp h with hx | ⟨r, -, h⟩
    · obtain ⟨y, hy, he⟩ := error_of_mapM hx
      obtain ⟨j, hj⟩ := List.mem_iff_getElem?.mp hy
      rcases compareBoth_error he with hxy | hyx
      · exact ⟨0, j + 1, x, y, (Nat.succ_ne_zero j).symm, rfl, hj, hxy⟩
      · exact ⟨j + 1, 0, y, x, Nat.succ_ne_zero j, hj, rfl, hyx⟩
    · obtain ⟨i, j, a, b, hij, ha, hb, he⟩ := ih h
      exact ⟨i + 1, j + 1, a, b, fun h => hij (Nat.succ.inj h), ha, hb, he⟩

theorem pairwise_of_comparePairs (h : comparePairs less l = .ok ()) : l.Pairwise (Compares less) := by
  induction l with
  | nil => exact .nil
  | cons x xs ih =>
    obtain ⟨bs, hx, h⟩ := bind_eq_ok.mp h
    refine .cons (fun y hy => ?_) (ih h)
    obtain ⟨b, -, hb⟩ := ok_of_mapM hx hy
    obtain ⟨r, hr, hb⟩ := bind_eq_ok.mp hb
    obtain ⟨r', hr', -⟩ := bind_eq_ok.mp hb
    exact ⟨⟨r, hr⟩, r', hr'⟩

theorem comparesApart_pairwiseSort : ComparesApart (@pairwiseSort ε α) := by
  intro less l e h
  rcases bind_eq_error.mp h with hpairs | ⟨u, -, h⟩
  · exact comparePairs_error hpairs
  · exact comparesApart_insertionSort _ _ _ h

theorem sortSpec_pairwiseSort : SortSpec (@pairwiseSort ε α) where
  perm less l l' h := by
    obtain ⟨-, -, h⟩ := bind_eq_ok.mp h
    exact insertionSort_perm h
  sorted less lt _ l l' hlt hd h := by
    obtain ⟨-, -, h⟩ := bind_eq_ok.mp h
    exact sortSpec_insertionSort.sorted less lt l l' hlt hd h
  failsBy less l e h := by
    obtain ⟨i, j, a, b, -, ha, hb, he⟩ := comparesApart_pairwiseSort _ _ _ h
    exact ⟨a, List.mem_of_getElem? ha, b, List.mem_of_getElem? hb, he⟩

theorem descending_isHeap {l' : List α} (hlt : IsStrictWeakOrder α lt) (hd : Decides less lt l)
    (h : descending less l = .ok l') : IsHeap lt l' := by
  apply isHeap_of_pairwise hlt.irrefl
  exact insertionSort_sorted (r := fun a b => lt b a) hlt.irrefl (fun a b c hab hbc => hlt.trans _ _ _ hbc hab)
    (fun a ha b hb => hd b hb a ha) h

theorem descending_failsBy (l : List α) : FailsBy less l (descending less l) := by
  intro e h
  obtain ⟨a, ha, b, hb, he⟩ := insertionSort_failsBy l e h
  exact ⟨b, hb, a, ha, he⟩

theorem heapSpec_descending : HeapSpec (descending (ε := ε) (α := α)) popFirst descending where
  make_perm _ _ _ := insertionSort_perm
  make_heap _ _ _ _ _ hlt hd h := descending_isHeap hlt hd h
  make_failsBy _ l := descending_failsBy l
  pop_perm less l l' h := by
    cases l with
    | nil =>
      cases pure_eq_ok.mp h
      exact .rfl
    | cons x rest =>
      obtain ⟨r, hr, h⟩ := bind_eq_ok.mp h
      cases pure_eq_ok.mp h
      exact (List.perm_append_singleton x r).trans ((insertionSort_perm hr).cons x)
  pop_heap less lt _ l l' hlt hd _ h := by
    cases l with
    | nil =>
      cases pure_eq_ok.mp h
      exact ⟨rfl, isHeap_of_pairwise hlt.irrefl .nil⟩
    | cons x rest =>
      obtain ⟨r, hr, h⟩ := bind_eq_ok.mp h
      cases pure_eq_ok.mp h
      rw [List.getLast?_concat, List.dropLast_concat]
      refine ⟨rfl, descending_isHeap hlt ?_ hr⟩
      exact fun a ha b hb => hd a (List.mem_cons_of_mem _ ha) b (List.mem_cons_of_mem _ hb)
  pop_failsBy less l := by
    intro e h
    cases l with
    | nil => cases h
    | cons x rest =>
      obtain hr | ⟨r, -, h⟩ := bind_eq_error.mp h
      · obtain ⟨a, ha, b, hb, he⟩ := descending_failsBy rest e hr
        exact ⟨a, List.mem_cons_of_mem _ ha, b, List.mem_cons_of_mem _ hb, he⟩
      · cases h
  push_perm _ _ _ := insertionSort_perm
  push_heap _ _ _ _ _ hlt hd _ h := descending_isHeap hlt hd h
  push_failsBy _ l := descending_failsBy l

/-! ## Comparators by several keys -/

structure WeakLess {α : Type} (r : α → α → Prop) : Prop where
  asymm : ∀ a b, r a b → ¬ r b a
  negTrans : ∀ a b c, ¬ r a b → ¬ r b c → ¬ r a c

namespace WeakLess
variable {α : Type} {r q : α → α → Prop}

theorem isStrictWeakOrder (h : WeakLess r) : IsStrictWeakOrder α r where
  irrefl a ha := h.asymm a a ha ha
  trans a b c hab hbc := by
    by_contra hac
    exact h.negTrans a c b hac (h.asymm b c hbc) hab
  incomp_trans a b c hab hbc := ⟨h.negTrans a b c hab.1 hbc.1, h.negTrans c b a hbc.2 hab.2⟩

theorem of_key {K : Type} [LE K] [LT K] [Std.IsLinearOrder K] [Std.LawfulOrderLT K] (key : α → K) :
    WeakLess fun a b => key a < key b where
  asymm _ _ hab hba := Std.lt_irrefl (Std.lt_trans hab hba)
  negTrans _ _ _ hab hbc := Std.not_lt.mpr (Std.le_trans (Std.not_lt.mp hbc) (Std.not_lt.mp hab))

theorem on {β : Type} (h : WeakLess r) (f : β → α) : WeakLess fun a b => r (f a) (f b) where
  asymm a b := h.asymm (f a) (f b)
  negTrans a b c := h.negTrans (f a) (f b) (f c)

theorem swap (h : WeakLess r) : WeakLess fun a b => r b a where
  asymm a b hab := h.asymm b a hab
  negTrans a b c hab hbc := h.negTrans c b a hbc hab

theorem false : WeakLess fun _ _ : α => False where
  asymm _ _ h := h.elim
  negTrans _ _ _ h _ := h

theorem lex (hr : WeakLess r) (hq : WeakLess q) : WeakLess fun a b => r a b ∨ ¬ r b a ∧ q a b where
  asymm a b := by
    rintro (hab | ⟨hba, hab⟩) (hba' | ⟨hab', hba'⟩)
    · exact hr.asymm a b hab hba'
    · exact hab' hab
    · exact hba hba'
    · exact hq.asymm a b hab hba'
  negTrans a b c hab hbc := by
    obtain ⟨hrab, hqab⟩ := not_or.mp hab
    obtain ⟨hrbc, hqbc⟩ := not_or.mp hbc
    refine not_or.mpr ⟨hr.negTrans a b c hrab hrbc, ?_⟩
    rintro ⟨hrca, hqac⟩
    -- neither step can be strict, or `c` would be less than `a`
    have hrba : ¬ r b a := hr.negTrans b c a hrbc hrca
    have hrcb : ¬ r c b := hr.negTrans c a b hrca hrab
    exact hq.negTrans a b c (fun h => hqab ⟨hrba, h⟩) (fun h => hqbc ⟨hrcb, h⟩) hqac

theorem of_strictWeakOrder (h : IsStrictWeakOrder α r) : WeakLess r where
  asymm a b hab hba := h.irrefl a (h.trans a b a hab hba)
  negTrans a b c hab hbc hac := by
    by_cases hba : r b a
    · exact hbc (h.trans b a c hba hac)
    by_cases hcb : r c b
    · exact hab (h.trans a c b hac hcb)
    exact (h.incomp_trans a b c ⟨hab, hba⟩ ⟨hbc, hcb⟩).1 hac

theorem forall₂_of_perm (h : WeakLess r) {l l' : List α} (hperm : l.Perm l') (hl : l.Pairwise fun a b => ¬ r b a)
    (hl' : l'.Pairwise fun a b => ¬ r b a) : List.Forall₂ (fun a b => ¬ r a b ∧ ¬ r b a) l l' := by
  let _ : Preorder α :=
    { le := fun a b => ¬ r b a
      le_refl := fun a ha => h.asymm a a ha ha
      le_trans := fun a b c hab hbc => h.negTrans c b a hbc hab }
  let toClass : α → Antisymmetrization α (· ≤ ·) := toAntisymmetrization (· ≤ ·)
  have hclasses : l.map toClass = l'.map toClass := by
    refine List.Perm.eq_of_pairwise' (r := (· ≤ ·)) (List.pairwise_map.mpr hl) (List.pairwise_map.mpr hl') ?_
    exact hperm.map toClass
  have heq : List.Forall₂ Eq (l.map toClass) (l'.map toClass) := by rw [List.forall₂_eq_eq_eq, hclasses]
  rw [List.forall₂_map_left_iff, List.forall₂_map_right_iff] at heq
  refine heq.imp fun a b hab => ?_
  obtain ⟨hle, hge⟩ : AntisymmRel (· ≤ ·) a b := Quotient.exact hab
  exact ⟨hge, hle⟩

end WeakLess

theorem IsHeap.head_max {α : Type} {lt : α → α → Prop} (hlt : WeakLess lt) {l : List α} (h : IsHeap lt l) {a b : α}
    (ha : l.head? = some a) (hb : b ∈ l) : ¬ lt a b := by
  obtain ⟨i, hi, rfl⟩ := List.getElem_of_mem hb
  -- up from `b`, from each element to its parent
  induction i using Nat.strong_induction_on with
  | _ i ih =>
    rcases Nat.eq_zero_or_pos i with rfl | hpos
    · rw [List.head?_eq_getElem?, List.getElem?_eq_getElem hi] at ha
      cases ha
      exact fun haa => hlt.asymm _ _ haa haa
    · have hparent : (i - 1) / 2 < i := by omega
      have hlength := hparent.trans hi
      have hup := ih _ hparent hlength (List.getElem_mem hlength)
      have hdown := h i _ _ (List.getElem?_eq_getElem hlength) (List.getElem?_eq_getElem hi)
      exact hlt.negTrans _ _ _ hup hdown

theorem SortSpec.sorted_of {ε α : Type} {sort : (α → α → Except ε Bool) → List α → Except ε (List α)}
    (hsort : SortSpec sort) {less : α → α → Except ε Bool} {lt : α → α → Prop} [DecidableRel lt] (hlt : WeakLess lt)
    {l : List α} (hless : Decides less lt l) :
    ∃ l', sort less l = .ok l' ∧ l'.Perm l ∧ l'.Pairwise fun a b => ¬ lt b a := by
  cases h : sort less l with
  | error e =>
    obtain ⟨a, ha, b, hb, herr⟩ := hsort.failsBy less l e h
    cases (hless a ha b hb).symm.trans herr
  | ok l' => exact ⟨l', rfl, hsort.perm _ _ _ h, hsort.sorted less lt l l' hlt.isStrictWeakOrder hless h⟩

/-! ## The orders that every sort keeps

A sort may leave the elements that its comparator does not tell apart in any order,
so that it sorts by another order only where that one is part of its own. -/

section keeps
variable {ε α : Type} {less : α → α → Except ε Bool} {lt : α → α → Prop} [DecidableRel lt] {l : List α}

theorem SortSpec.of_perm {sort : (α → α → Except ε Bool) → List α → Except ε (List α)} (hsort : SortSpec sort)
    {f : List α → List α} (hf : ∀ l, (f l).Perm l) : SortSpec fun less l => sort less (f l) where
  perm less l l' h := (hsort.perm less (f l) l' h).trans (hf l)
  sorted less lt _ l l' hlt hd h :=
    hsort.sorted less lt (f l) l' hlt (fun a ha b hb => hd a ((hf l).subset ha) b ((hf l).subset hb)) h
  failsBy less l e h := by
    obtain ⟨a, ha, b, hb, he⟩ := hsort.failsBy less (f l) e h
    exact ⟨a, (hf l).subset ha, b, (hf l).subset hb, he⟩

theorem insertBy_behind (hlt : WeakLess lt) {x y : α} {l' : List α} (hd : Decides less lt (x :: l))
    (hl : l.Pairwise fun a b => ¬ lt b a) (h : insertBy less x l = .ok l') (hy : y ∈ l) (hxy : ¬ lt x y) :
    [y, x].Sublist l' := by
  induction l generalizing l' with
  | nil => cases hy
  | cons z zs ih =>
    obtain ⟨hz, hzs⟩ := List.pairwise_cons.mp hl
    rw [insertBy, hd x List.mem_cons_self z (List.mem_cons_of_mem _ List.mem_cons_self)] at h
    change (if decide (lt x z) = true then _ else _) = _ at h
    have hxz : ¬ lt x z := by
      rcases List.mem_cons.mp hy with rfl | hy
      · exact hxy
      · exact hlt.negTrans x y z hxy (hz y hy)
    rw [if_neg (by rwa [decide_eq_true_iff])] at h
    obtain ⟨r, hr, h⟩ := bind_eq_ok.mp h
    cases pure_eq_ok.mp h
    rcases List.mem_cons.mp hy with rfl | hy
    · apply List.Sublist.cons_cons
      exact List.singleton_sublist.mpr ((insertBy_perm hr).mem_iff.mpr List.mem_cons_self)
    · apply List.Sublist.cons
      have hsub : x :: zs ⊆ x :: z :: zs := List.cons_subset_cons x (List.subset_cons_self z zs)
      exact ih (fun a ha b hb => hd a (hsub ha) b (hsub hb)) hzs hr hy

def toFront [DecidableEq α] (x : α) (l : List α) : List α := if x ∈ l then x :: l.erase x else l

theorem perm_toFront [DecidableEq α] (x : α) (l : List α) : (toFront x l).Perm l := by
  unfold toFront
  split_ifs with h
  · exact (List.perm_cons_erase h).symm
  · exact .rfl

/-- Every sort by `lt` returns the elements in the order `q`, exactly if `lt` tells
apart what `q` does, the same way. -/
theorem sorts_iff [DecidableEq α] (hlt : WeakLess lt) (hless : Decides less lt l) {q : α → α → Prop} (hq : WeakLess q) :
    (∀ sort, SortSpec sort → ∀ l', sort less l = .ok l' → l'.Pairwise fun a b => ¬ q b a) ↔
      ∀ a ∈ l, ∀ b ∈ l, q a b → lt a b := by
  constructor
  · intro hall a ha b hb hab
    by_contra hnot
    -- a sort that takes `a` last puts it behind `b`
    have hsort : SortSpec fun (less : α → α → Except ε Bool) l => insertionSort less (toFront a l) :=
      sortSpec_insertionSort.of_perm (perm_toFront a)
    obtain ⟨l', h, hperm, -⟩ := hsort.sorted_of hlt hless
    have hl' := hall _ hsort l' h
    have hfront : toFront a l = a :: l.erase a := if_pos ha
    rw [hfront] at h
    obtain ⟨r, hr, hins⟩ := bind_eq_ok.mp h
    have hrperm := insertionSort_perm hr
    have hba : b ≠ a := by
      rintro rfl
      exact hq.asymm b b hab hab
    have hbr : b ∈ r := hrperm.mem_iff.mpr ((List.mem_erase_of_ne hba).mpr hb)
    have hsub : a :: r ⊆ l := List.cons_subset.mpr ⟨ha, List.Subset.trans hrperm.subset List.erase_subset⟩
    have hdr : Decides less lt (a :: r) := fun x hx y hy => hless x (hsub hx) y (hsub hy)
    have hrsorted : r.Pairwise fun x y => ¬ lt y x := by
      have hstrict := hlt.isStrictWeakOrder
      refine insertionSort_sorted hstrict.irrefl hstrict.trans ?_ hr
      exact fun x hx y hy => hless x (List.erase_subset hx) y (List.erase_subset hy)
    have hbehind := insertBy_behind hlt hdr hrsorted hins hbr hnot
    have hpair := hl'.sublist hbehind
    exact (List.pairwise_cons.mp hpair).1 a (List.mem_singleton_self a) hab
  · intro hqlt sort hsort l' h
    obtain ⟨l₁, h₁, hperm, hsorted⟩ := hsort.sorted_of hlt hless
    cases h.symm.trans h₁
    refine hsorted.imp_of_mem ?_
    intro a b ha hb hnot hqba
    exact hnot (hqlt b (hperm.subset hb) a (hperm.subset ha) hqba)

end keeps

end MyDB.Lib

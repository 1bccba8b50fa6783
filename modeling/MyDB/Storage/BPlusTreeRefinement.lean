import MyDB.Storage.BPlusTree

/-! The index over the buffer pool does what the index over the abstract page
store does: the two make the same calls, and each call refines. -/

namespace MyDB.Storage.BPlusTree
variable {n : Nat} {ptrs : List (PageId × Fin n)}

def Agree {α : Type} (a b : α) (s : BufferPool TreePage n) (m : PageMap TreePage) : Prop :=
  a = b ∧ Live [] s m

theorem refines_return {α : Type} (a : α) :
    RefinesStore (n := n) (D := TreePage) [] (pure a) (pure a) Agree :=
  Lib.Refines.pure fun _ _ h => ⟨rfl, h⟩

theorem insertEntry_bind {α β γ : Type} {R : β → γ → BufferPool TreePage n → PageMap TreePage → Prop}
    {keyOf : α → Int} {capacity start : Nat} {data : List α} {e : α}
    {f : List α → EStateM Fault (BufferPool TreePage n) β}
    {g : List α → EStateM Fault (PageMap TreePage) γ} (h : ∀ data, RefinesStore ptrs (f data) (g data) R) :
    RefinesStore ptrs (insertEntry keyOf capacity start data e >>= f)
      (insertEntry keyOf capacity start data e >>= g) R := by
  unfold insertEntry
  split_ifs
  · exact h _
  · exact refines_throw _

variable (t : BPlusTree) (key : Int) (rid : RID)

theorem insertInLeaf_refines (pid : PageId) :
    RefinesStore [] (insertInLeaf (BufferPool.store (n := n)) t pid key rid)
      (insertInLeaf PageMap.store t pid key rid) Agree := by
  unfold insertInLeaf
  refine fetchPage_bind (refines_throw _) fun f => ?_
  refine readData_bind List.mem_cons_self fun d => ?_
  cases d with
  | internal data => exact refines_throw _
  | leaf data next =>
    dsimp only
    split
    · exact writeData_bind List.mem_cons_self (unpinLast_bind fun _ => refines_return _)
    · refine insertEntry_bind fun data => writeData_bind List.mem_cons_self ?_
      split_ifs
      · exact unpinLast_bind fun _ => refines_return _
      · refine newPage_bind (refines_throw _) fun p g => writeData_bind List.mem_cons_self ?_
        refine writeData_bind (by simp) (unpinLast_bind fun _ => ?_)
        exact unpinLast_bind fun _ => refines_return _

theorem insertSeparator_refines (pid : PageId) (result : SplitResult) :
    RefinesStore [] (insertSeparator (BufferPool.store (n := n)) t pid result)
      (insertSeparator PageMap.store t pid result) Agree := by
  unfold insertSeparator
  refine fetchPage_bind (refines_throw _) fun f => ?_
  refine readData_bind List.mem_cons_self fun d => ?_
  cases d with
  | leaf data next => exact refines_throw _
  | internal data =>
    refine insertEntry_bind fun data => writeData_bind List.mem_cons_self ?_
    dsimp only
    split_ifs
    · exact unpinLast_bind fun _ => refines_return _
    · refine newPage_bind (refines_throw _) fun p g => writeData_bind List.mem_cons_self ?_
      refine writeData_bind (by simp) (unpinLast_bind fun _ => ?_)
      exact unpinLast_bind fun _ => refines_return _

theorem insertInInternal_refines
    {ins : PageId → EStateM Fault (BufferPool TreePage n) (Option SplitResult)}
    {ins' : PageId → EStateM Fault (PageMap TreePage) (Option SplitResult)}
    (h : ∀ pid, RefinesStore [] (ins pid) (ins' pid) Agree) (pid : PageId) :
    RefinesStore [] (insertInInternal BufferPool.store t ins pid key)
      (insertInInternal PageMap.store t ins' pid key) Agree := by
  unfold insertInInternal
  refine fetchPage_bind (refines_throw _) fun f => ?_
  refine readData_bind List.mem_cons_self fun d => ?_
  cases d with
  | leaf data next => exact refines_throw _
  | internal data =>
    refine unpinLast_bind fun _ => (h _).bind_eq fun result => ?_
    cases result with
    | none => exact refines_return _
    | some result => exact insertSeparator_refines t pid result

theorem insertInPage_refines (fuel : Nat) (pid : PageId) :
    RefinesStore [] (insertInPage (BufferPool.store (n := n)) t key rid fuel pid)
      (insertInPage PageMap.store t key rid fuel pid) Agree := by
  induction fuel generalizing pid with
  | zero => exact refines_throw _
  | succ fuel ih =>
    unfold insertInPage
    refine fetchPage_bind (refines_throw _) fun f => ?_
    refine readData_bind List.mem_cons_self fun d => ?_
    cases d with
    | leaf data next => exact unpinLast_bind fun _ => insertInLeaf_refines t key rid pid
    | internal data => exact unpinLast_bind fun _ => insertInInternal_refines t key ih pid

theorem insert_refines :
    RefinesStore [] (insert (BufferPool.store (n := n)) t key rid) (insert PageMap.store t key rid)
      Agree := by
  unfold insert
  split_ifs
  · refine newPage_bind (refines_throw _) fun p f => insertEntry_bind fun data => ?_
    exact writeData_bind List.mem_cons_self (unpinLast_bind fun _ => refines_return _)
  · refine numPages_bind fun pages => (insertInPage_refines t key rid pages _).bind_eq fun result => ?_
    cases result with
    | none => exact refines_return _
    | some result =>
      refine newPage_bind (refines_throw _) fun p f => insertEntry_bind fun data => ?_
      exact writeData_bind List.mem_cons_self (unpinLast_bind fun _ => refines_return _)

theorem insertAll_refines (t : BPlusTree) (ops : List (Int × RID)) :
    RefinesStore [] (insertAll (BufferPool.store (n := n)) t ops) (insertAll PageMap.store t ops)
      Agree := by
  induction ops generalizing t with
  | nil => exact refines_return t
  | cons op ops ih => exact (insert_refines t op.1 op.2).bind_eq fun t' => ih t'

theorem searchLoop_refines (fuel : Nat) (pid : PageId) :
    RefinesStore [] (searchLoop (BufferPool.store (n := n)) key fuel pid)
      (searchLoop PageMap.store key fuel pid) Agree := by
  induction fuel generalizing pid with
  | zero => exact refines_throw _
  | succ fuel ih =>
    unfold searchLoop
    refine fetchPage_bind (refines_return _) fun f => ?_
    refine readData_bind List.mem_cons_self fun d => ?_
    cases d with
    | leaf data next => exact unpinLast_bind fun _ => refines_return _
    | internal data => exact unpinLast_bind fun _ => ih _

theorem search_refines :
    RefinesStore [] (search (BufferPool.store (n := n)) t key) (search PageMap.store t key) Agree := by
  unfold search
  split_ifs
  · exact refines_return _
  · exact numPages_bind fun pages => searchLoop_refines key pages _

theorem findLeafLoop_refines (low : Int) (fuel : Nat) (pid : PageId) :
    RefinesStore [] (findLeafLoop (BufferPool.store (n := n)) low fuel pid)
      (findLeafLoop PageMap.store low fuel pid) Agree := by
  induction fuel generalizing pid with
  | zero => exact refines_throw _
  | succ fuel ih =>
    unfold findLeafLoop
    refine fetchPage_bind (refines_throw _) fun f => ?_
    refine readData_bind List.mem_cons_self fun d => ?_
    cases d with
    | leaf data next => exact unpinLast_bind fun _ => refines_return _
    | internal data => exact unpinLast_bind fun _ => ih _

theorem scanLeafLoop_refines (low high : Int) (fuel : Nat) (pid : PageId) (results : List RID) :
    RefinesStore [] (scanLeafLoop (BufferPool.store (n := n)) low high fuel pid results)
      (scanLeafLoop PageMap.store low high fuel pid results) Agree := by
  induction fuel generalizing pid results with
  | zero => exact refines_throw _
  | succ fuel ih =>
    unfold scanLeafLoop
    split_ifs
    · exact refines_return _
    · refine fetchPage_bind (refines_throw _) fun f => ?_
      refine readData_bind List.mem_cons_self fun d => ?_
      cases d with
      | internal data => exact refines_throw _
      | leaf data next =>
        refine unpinLast_bind fun _ => ?_
        split_ifs
        · exact refines_return _
        · exact ih _ _

theorem rangeScan_refines (low high : Int) (results : List RID) :
    RefinesStore [] (rangeScan (BufferPool.store (n := n)) t low high results)
      (rangeScan PageMap.store t low high results) Agree := by
  unfold rangeScan
  split_ifs
  · exact refines_return _
  · refine numPages_bind fun pages => (findLeafLoop_refines low pages _).bind_eq fun pid => ?_
    exact scanLeafLoop_refines low high (pages + 1) pid results

end MyDB.Storage.BPlusTree

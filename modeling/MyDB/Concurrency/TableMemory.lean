import MyDB.Concurrency.TableHistory

/-! The nodes of the table over its whole life: calls of `Insert` and `Lookup`, and `Clear`
(which is also the destructor) where no call is under way. `freed` are the nodes that
have been deleted. -/

namespace MyDB.Concurrency
open Lib

namespace LockFreeHashTable
variable {V : Type} {bucketCount : Nat}

/-- The inner loop of `Clear`; `none` is a node that is not there, or deleted before. -/
def deleteList (heap : List (Node V)) : Nat → Option Nat → List Nat → Option (List Nat)
  | _, none, freed => some freed
  | 0, some _, _ => none
  | fuel + 1, some cur, freed => do
    let node ← heap[cur]?
    guard (cur ∉ freed)
    deleteList heap fuel node.next (freed ++ [cur])

def clearBucket (s : LockFreeHashTable V bucketCount × List Nat) (b : Fin bucketCount) :
    Option (LockFreeHashTable V bucketCount × List Nat) := do
  let cur := s.1.buckets b
  let t := { s.1 with buckets := Function.update s.1.buckets b none }
  let freed ← deleteList t.heap t.heap.length cur s.2
  return (t, freed)

def clear (t : LockFreeHashTable V bucketCount) (freed : List Nat) :
    Option (LockFreeHashTable V bucketCount × List Nat) :=
  (List.finRange bucketCount).foldlM clearBucket (t, freed)

/-- The node that the next step of a call reads or writes, and those behind the pointers
that it has collected. -/
def CallPc.touches : CallPc V → List Nat
  | .inserting pc => pc.node.toList
  | .inserted | .load _ => []
  | .loop _ cur out => cur.toList ++ out
  | .next _ cur out => cur :: out

/-- The pointers that a call hands out, with the values behind them. -/
def handedOut (heap : List (Node V)) : CallPc V → List (Nat × V)
  | .loop _ _ out => out.filterMap fun p => heap[p]?.map fun n => (p, n.value)
  | _ => []

variable {ι : Type} [NeZero bucketCount]

/-- The states that a table comes to. `handed` are the pointers that the calls of `Lookup`
have handed out since the last `Clear`. -/
inductive Lives [DecidableEq ι] : List Nat → List (Nat × V) → Threads ι (LockFreeHashTable V bucketCount) (Option (CallPc V)) → Prop
  | start : Lives [] [] ((table V bucketCount).start ι)
  | call {freed : List Nat} {handed : List (Nat × V)}
      {c : Threads ι (LockFreeHashTable V bucketCount) (Option (CallPc V))} (h : Lives freed handed c) (i : ι)
      (op : Call V) (hi : c.locals i = none) :
      Lives freed handed ⟨c.shared, Function.update c.locals i (some op.enter)⟩
  | step {freed : List Nat} {handed : List (Nat × V)}
      {c : Threads ι (LockFreeHashTable V bucketCount) (Option (CallPc V))} (h : Lives freed handed c) (i : ι)
      {t' : LockFreeHashTable V bucketCount} {pc pc' : CallPc V} (hi : c.locals i = some pc)
      (hs : CallStep c.shared pc t' pc') : Lives freed handed ⟨t', Function.update c.locals i (some pc')⟩
  | ret {freed : List Nat} {handed : List (Nat × V)}
      {c : Threads ι (LockFreeHashTable V bucketCount) (Option (CallPc V))} (h : Lives freed handed c) (i : ι)
      {pc : CallPc V} {r : Reply V} (hi : c.locals i = some pc) (hr : Returns c.shared pc r) :
      Lives freed (handed ++ handedOut c.shared.heap pc) ⟨c.shared, Function.update c.locals i none⟩
  | clear {freed : List Nat} {handed : List (Nat × V)}
      {c : Threads ι (LockFreeHashTable V bucketCount) (Option (CallPc V))} (h : Lives freed handed c)
      (hidle : ∀ i, c.locals i = none) {t' : LockFreeHashTable V bucketCount} {freed' : List Nat}
      (hclear : c.shared.clear freed = some (t', freed')) : Lives freed' [] ⟨t', c.locals⟩

/-! ## Clear -/

section Clear
omit [NeZero bucketCount]

theorem IsChain.deleteList {heap : List (Node V)} {start : Option Nat} {l : List (Nat × Int × V)} {fuel : Nat}
    {freed : List Nat} (h : IsChain heap start l) (hfuel : l.length ≤ fuel)
    (hnodup : (freed ++ l.map Prod.fst).Nodup) :
    deleteList heap fuel start freed = some (freed ++ l.map Prod.fst) := by
  induction l generalizing start fuel freed with
  | nil =>
    obtain rfl : start = none := h
    cases fuel <;> simp [LockFreeHashTable.deleteList]
  | cons c l ih =>
    obtain ⟨p, k, v⟩ := c
    obtain ⟨rfl, next, hp, hl⟩ := h
    rw [List.map_cons, List.append_cons] at hnodup ⊢
    cases fuel with
    | zero => exact absurd hfuel (Nat.not_succ_le_zero _)
    | succ fuel =>
      have hrest := ih hl (Nat.le_of_succ_le_succ hfuel) hnodup
      have hfresh : p ∉ freed := by
        intro hmem
        have hpair := (List.nodup_append.mp (List.nodup_append.mp hnodup).1).2.2
        exact hpair p hmem p (List.mem_singleton_self p) rfl
      simp [LockFreeHashTable.deleteList, hp, hfresh, hrest]

def nodesOf (l : List (Nat × Int × V)) : Multiset Nat := (l.map Prod.fst : List Nat)

theorem clear_buckets {t : LockFreeHashTable V bucketCount} {chains : Fin bucketCount → List (Nat × Int × V)}
    (bs : List (Fin bucketCount)) (hbs : bs.Nodup) (hchain : ∀ b ∈ bs, IsChain t.heap (t.buckets b) (chains b))
    {freed : List Nat} (hnodup : ((freed : Multiset Nat) + (bs.map fun b => nodesOf (chains b)).sum).Nodup)
    (hlt : ∀ b ∈ bs, (chains b).length ≤ t.heap.length) :
    ∃ t' freed', bs.foldlM clearBucket (t, freed) = some (t', freed') ∧
      (freed' : Multiset Nat) = freed + (bs.map fun b => nodesOf (chains b)).sum ∧ t'.heap = t.heap ∧
      (∀ b ∈ bs, t'.buckets b = none) ∧ ∀ b ∉ bs, t'.buckets b = t.buckets b := by
  induction bs generalizing t freed with
  | nil => exact ⟨t, freed, rfl, by simp, rfl, by simp, fun _ _ => rfl⟩
  | cons b bs ih =>
    obtain ⟨hb, hbs⟩ := List.nodup_cons.mp hbs
    obtain ⟨hchainb, hchains⟩ := List.forall_mem_cons.mp hchain
    obtain ⟨hltb, hlts⟩ := List.forall_mem_cons.mp hlt
    rw [List.map_cons, List.sum_cons, ← add_assoc] at hnodup
    have hfront : ((freed ++ (chains b).map Prod.fst : List Nat) : Multiset Nat) = freed + nodesOf (chains b) :=
      (Multiset.coe_add _ _).symm
    rw [← hfront] at hnodup
    have hdelete := hchainb.deleteList hltb
      (Multiset.coe_nodup.mp (Multiset.nodup_of_le (Multiset.le_add_right _ _) hnodup))
    have hothers : ∀ b' ∈ bs, IsChain t.heap (Function.update t.buckets b none b') (chains b') := by
      intro b' hb'
      rw [Function.update_of_ne (ne_of_mem_of_not_mem hb' hb)]
      exact hchains b' hb'
    obtain ⟨t', freed', hfold, hfreed, hheap, hin, hout⟩ :=
      ih (t := { t with buckets := Function.update t.buckets b none }) hbs hothers hnodup hlts
    refine ⟨t', freed', ?_, ?_, hheap, ?_, ?_⟩
    · rw [List.foldlM_cons, clearBucket]
      simp [hdelete, hfold]
    · rw [hfreed, hfront, List.map_cons, List.sum_cons, add_assoc]
    · refine List.forall_mem_cons.mpr ⟨?_, hin⟩
      rw [hout b hb]
      exact Function.update_self ..
    · intro b' hb'
      obtain ⟨hne, hnotin⟩ := not_or.mp (List.mem_cons.not.mp hb')
      rw [hout b' hnotin]
      exact Function.update_of_ne hne ..

end Clear

/-! ## The ledger -/

def linked (chains : Fin bucketCount → List (Nat × Int × V)) : Multiset Nat := ∑ b, nodesOf (chains b)

omit [NeZero bucketCount] in
theorem linked_cons (chains : Fin bucketCount → List (Nat × Int × V)) (c : Nat × Int × V) (b : Fin bucketCount) :
    linked (Function.update chains b (c :: chains b)) = linked chains + {c.1} := by
  have h := Threads.sum_locals_update nodesOf chains b (c :: chains b)
  have hcons : nodesOf (c :: chains b) = {c.1} + nodesOf (chains b) := by
    rw [Multiset.singleton_add]
    rfl
  rw [hcons, ← add_assoc] at h
  exact add_right_cancel h

def owned (x : Option (CallPc V)) : Multiset Nat := ((x.bind CallPc.insertPc).bind InsertPc.node).toList

omit [NeZero bucketCount] in
theorem Matches.touches {chains : Fin bucketCount → List (Nat × Int × V)} {pc : CallPc V}
    {y : Option (SequentialObject.AtomicPc (Call V) (Reply V))} (h : Matches chains (some pc) y) {p : Nat}
    (hp : p ∈ pc.touches) : p ∈ owned (some pc) ∨ ∃ b, ∃ c ∈ chains b, c.1 = p := by
  cases pc with
  | inserting pc => exact .inl hp
  | inserted => exact absurd hp List.not_mem_nil
  | load key => exact absurd hp List.not_mem_nil
  | loop key cur out =>
    obtain ⟨b, outs, l, houts, hl, rfl, rfl, -⟩ := h.of_loop
    rcases List.mem_append.mp hp with hp | hp
    · obtain ⟨c, hc, rfl⟩ := Option.map_eq_some_iff.mp (Option.mem_toList.mp hp)
      exact .inr ⟨b, c, hl.subset (List.mem_of_head? hc), rfl⟩
    · obtain ⟨c, hc, rfl⟩ := List.mem_map.mp hp
      exact .inr ⟨b, c, houts c hc, rfl⟩
  | next key cur out =>
    obtain ⟨b, outs, l, c, houts, hl, rfl, rfl, -⟩ := h.of_next
    rcases List.mem_cons.mp hp with rfl | hp
    · exact .inr ⟨b, c, hl.subset (List.mem_cons_self ..), rfl⟩
    · obtain ⟨c, hc, rfl⟩ := List.mem_map.mp hp
      exact .inr ⟨b, c, houts c hc, rfl⟩

theorem InsertStep.allocated {t t' : LockFreeHashTable V bucketCount} {pc pc' : InsertPc V}
    (h : InsertStep t pc t' (some pc')) :
    (List.range t'.heap.length : Multiset Nat) + pc.node.toList = List.range t.heap.length + pc'.node.toList := by
  cases h with
  | new k v =>
    rw [List.length_append, List.length_singleton, List.range_succ, ← Multiset.coe_add]
    exact add_zero _
  | store k v p head =>
    rw [setNext, List.length_modify]
    rfl
  | _ => rfl

theorem TableInv.unique {t : LockFreeHashTable V bucketCount} {chains chains' : Fin bucketCount → List (Nat × Int × V)}
    {pcs pcs' : ι → Option (InsertPc V)} (h : TableInv t chains pcs) (h' : TableInv t chains' pcs') :
    chains = chains' :=
  funext fun b => (h.chain b).unique (h'.chain b)

theorem TableInv.length_le {t : LockFreeHashTable V bucketCount} {chains : Fin bucketCount → List (Nat × Int × V)}
    {pcs : ι → Option (InsertPc V)} (h : TableInv t chains pcs) (b : Fin bucketCount) :
    (chains b).length ≤ t.heap.length := by
  have hsub : (chains b).map Prod.fst ⊆ List.range t.heap.length := by
    intro p hp
    obtain ⟨c, hc, rfl⟩ := List.mem_map.mp hp
    exact List.mem_range.mpr ((h.chain b).lt_length c hc)
  simpa using ((h.nodup b).subperm hsub).length_le

theorem TableInv.ledger [DecidableEq ι] {t t' : LockFreeHashTable V bucketCount} {chains chains' : Fin bucketCount → List (Nat × Int × V)}
    {pcs pcs' : ι → Option (InsertPc V)} {i : ι} {pc pc' : CallPc V} (h : TableInv t chains pcs)
    (hi : pcs i = pc.insertPc) (hs : CallStep t pc t' pc') (h' : TableInv t' chains' pcs') :
    (List.range t'.heap.length : Multiset Nat) + (linked chains + owned (some pc)) =
      List.range t.heap.length + (linked chains' + owned (some pc')) := by
  cases hs with
  | insert hs =>
    rw [h'.unique (h.step_some hi hs), add_left_comm, add_left_comm (List.range t.heap.length : Multiset Nat)]
    exact congrArg _ hs.allocated
  | @insertReturns _ pc hs =>
    obtain ⟨p, hp, hinv⟩ := h.step_none hi hs
    have hlength : t'.heap.length = t.heap.length := by cases hs; rfl
    have howned : owned (some (CallPc.inserting pc)) = {p} := by simp [owned, CallPc.insertPc, hp]
    rw [h'.unique hinv, linked_cons, howned, hlength]
    exact congrArg _ (add_zero _).symm
  | load key => rw [h.unique h']; rfl
  | compare hn => rw [h.unique h']; rfl
  | next hn => rw [h.unique h']; rfl

structure Ledger [Fintype ι] (freed : List Nat) (handed : List (Nat × V))
    (c : Threads ι (LockFreeHashTable V bucketCount) (Option (CallPc V)))
    (chains : Fin bucketCount → List (Nat × Int × V)) : Prop where
  history : ∃ log ys, History c.shared log c.locals ys chains
  accounts : (freed : Multiset Nat) + (linked chains + ∑ i, owned (c.locals i)) = List.range c.shared.heap.length
  handed_linked : ∀ e ∈ handed, ∃ b k, (e.1, k, e.2) ∈ chains b

theorem Ledger.clear [Fintype ι] {freed : List Nat} {handed : List (Nat × V)}
    {c : Threads ι (LockFreeHashTable V bucketCount) (Option (CallPc V))}
    {chains : Fin bucketCount → List (Nat × Int × V)} (h : Ledger freed handed c chains)
    (hidle : ∀ i, c.locals i = none) :
    ∃ t' freed', c.shared.clear freed = some (t', freed') ∧ freed'.Perm (List.range c.shared.heap.length) ∧
      t'.heap = c.shared.heap ∧ ∀ b, t'.buckets b = none := by
  obtain ⟨log, ys, hhist⟩ := h.history
  have howned : ∑ i, owned (c.locals i) = 0 := Finset.sum_eq_zero fun i _ => by rw [hidle i]; rfl
  have haccounts := h.accounts
  rw [howned, add_zero, linked, Fin.sum_univ_def] at haccounts
  have hnodup : ((freed : Multiset Nat) + ((List.finRange bucketCount).map fun b => nodesOf (chains b)).sum).Nodup := by
    rw [haccounts]
    exact Multiset.coe_nodup.mpr List.nodup_range
  obtain ⟨t', freed', hclear, hfreed, hheap, hbuckets, -⟩ := clear_buckets (List.finRange bucketCount)
    (List.nodup_finRange _) (fun b _ => hhist.inv.chain b) hnodup fun b _ => hhist.inv.length_le b
  refine ⟨t', freed', hclear, ?_, hheap, fun b => hbuckets b (List.mem_finRange b)⟩
  rw [← Multiset.coe_eq_coe, hfreed, haccounts]

theorem History.of_idle {t : LockFreeHashTable V bucketCount} {xs : ι → Option (CallPc V)}
    (hbuckets : ∀ b, t.buckets b = none) (hidle : ∀ i, xs i = none) :
    History t [] xs (fun _ => none) fun _ => [] where
  inv := by
    have hnone (i : ι) (pc : InsertPc V) : (xs i).bind CallPc.insertPc ≠ some pc := by
      rw [hidle i]
      exact Option.some_ne_none pc |>.symm
    constructor
    · exact hbuckets
    · exact fun _ _ hc => absurd hc List.not_mem_nil
    · exact fun _ => List.nodup_nil
    · exact fun i pc h => absurd h (hnone i pc)
    · exact fun i pc _ h => absurd h (hnone i pc)
    · exact fun i _ pc _ _ h => absurd h (hnone i pc)
  log_eq := fun _ => rfl
  matches_at := fun i => by
    rw [hidle i]
    exact .idle

theorem mem_handedOut {heap : List (Node V)} {pc : CallPc V} {e : Nat × V} (h : e ∈ handedOut heap pc) :
    ∃ key cur out, pc = .loop key cur out ∧ e.1 ∈ out ∧ heap[e.1]?.map Node.value = some e.2 := by
  cases pc with
  | loop key cur out =>
    obtain ⟨p, hp, he⟩ := List.mem_filterMap.mp h
    obtain ⟨n, hn, rfl⟩ := Option.map_eq_some_iff.mp he
    exact ⟨key, cur, out, rfl, hp, by rw [hn]; rfl⟩
  | _ => exact absurd h List.not_mem_nil

variable [DecidableEq ι] [Fintype ι]

omit [NeZero bucketCount] in
theorem accounts_update {freed : List Nat} {xs : ι → Option (CallPc V)} {i : ι} {x' : Option (CallPc V)}
    {chains chains' : Fin bucketCount → List (Nat × Int × V)} {n n' : Nat}
    (h : (freed : Multiset Nat) + (linked chains + ∑ j, owned (xs j)) = List.range n)
    (hstep : (List.range n' : Multiset Nat) + (linked chains + owned (xs i)) =
      List.range n + (linked chains' + owned x')) :
    (freed : Multiset Nat) + (linked chains' + ∑ j, owned (Function.update xs i x' j)) = List.range n' := by
  have hsum := Threads.sum_locals_update owned xs i x'
  apply add_right_cancel (b := linked chains + owned (xs i))
  calc (freed : Multiset Nat) + (linked chains' + ∑ j, owned (Function.update xs i x' j)) + (linked chains + owned (xs i))
      = freed + linked chains + linked chains' + ((∑ j, owned (Function.update xs i x' j)) + owned (xs i)) := by
        ac_rfl
    _ = freed + (linked chains + ∑ j, owned (xs j)) + (linked chains' + owned x') := by
        rw [hsum]
        ac_rfl
    _ = List.range n' + (linked chains + owned (xs i)) := by rw [h, hstep]

theorem Lives.ledger {freed : List Nat} {handed : List (Nat × V)}
    {c : Threads ι (LockFreeHashTable V bucketCount) (Option (CallPc V))} (h : Lives freed handed c) :
    ∃ chains, Ledger freed handed c chains := by
  induction h with
  | start =>
    refine ⟨fun _ => [], ⟨[], fun _ => none, History.of_idle (fun _ => rfl) fun _ => rfl⟩, ?_, ?_⟩
    · simp [linked, nodesOf, owned, Implementation.start, table, empty]
    · exact fun e he => absurd he List.not_mem_nil
  | call _ i op hi ih =>
    obtain ⟨chains, ⟨log, ys, hhist⟩, haccounts, hhanded⟩ := ih
    refine ⟨chains, ⟨log, _, (hhist.call hi op).2⟩, accounts_update haccounts ?_, hhanded⟩
    rw [hi]
    cases op <;> rfl
  | step _ i hi hs ih =>
    obtain ⟨chains, ⟨log, ys, hhist⟩, haccounts, hhanded⟩ := ih
    obtain ⟨log', y', chains', hhist', hsuffix, -⟩ := hhist.step hi hs
    refine ⟨chains', ⟨log', _, hhist'⟩, accounts_update haccounts ?_, fun e he => ?_⟩
    · rw [hi]
      exact hhist.inv.ledger (congrArg (Option.bind · CallPc.insertPc) hi) hs hhist'.inv
    · obtain ⟨b, k, hmem⟩ := hhanded e he
      exact ⟨b, k, (hsuffix b).subset hmem⟩
  | ret _ i hi hr ih =>
    obtain ⟨chains, ⟨log, ys, hhist⟩, haccounts, hhanded⟩ := ih
    refine ⟨chains, ⟨log, _, (hhist.ret hi hr).2⟩, accounts_update haccounts ?_, ?_⟩
    · rw [hi]
      cases hr <;> rfl
    · refine List.forall_mem_append.mpr ⟨hhanded, fun e he => ?_⟩
      obtain ⟨key, cur, out, rfl, hout, hvalue⟩ := mem_handedOut he
      have hloop := hhist.matches_at i
      rw [hi] at hloop
      obtain ⟨b, outs, l, houts, -, -, rfl, -⟩ := hloop.of_loop
      obtain ⟨d, hd, hde⟩ := List.mem_map.mp hout
      obtain ⟨next, hnode⟩ := (hhist.inv.chain b).node_of_mem (houts d hd)
      rw [← hde, hnode] at hvalue
      refine ⟨b, d.2.1, ?_⟩
      rw [← hde, ← Option.some.inj hvalue]
      exact houts d hd
  | clear _ hidle hclear ih =>
    obtain ⟨chains, hledger⟩ := ih
    obtain ⟨t', freed', hclear', hperm, hheap, hbuckets⟩ := hledger.clear hidle
    rw [hclear] at hclear'
    cases hclear'
    refine ⟨fun _ => [], ⟨[], fun _ => none, History.of_idle hbuckets hidle⟩, ?_, ?_⟩
    · rw [hheap, ← Multiset.coe_eq_coe.mpr hperm]
      simp [linked, nodesOf, owned, hidle]
    · exact fun e he => absurd he List.not_mem_nil

/-- Over the whole life of a table, no call touches a node that has been deleted or was
never allocated, every pointer handed out since the last `Clear` still leads to its
value, and `Clear`, where no call is under way, comes to its end without touching a
deleted node: after it every node ever allocated has been deleted, once. -/
theorem nodes_deleted_once {freed : List Nat} {handed : List (Nat × V)}
    {c : Threads ι (LockFreeHashTable V bucketCount) (Option (CallPc V))} (h : Lives freed handed c) :
    (∀ i pc, c.locals i = some pc → ∀ p ∈ pc.touches, p < c.shared.heap.length ∧ p ∉ freed) ∧
    (∀ e ∈ handed, e.1 ∉ freed ∧ c.shared.heap[e.1]?.map Node.value = some e.2) ∧
    ((∀ i, c.locals i = none) → ∃ t' freed', c.shared.clear freed = some (t', freed') ∧
      freed'.Perm (List.range c.shared.heap.length) ∧ ∀ key, t'.lookup key = some []) := by
  obtain ⟨chains, hledger⟩ := h.ledger
  obtain ⟨⟨log, ys, hhist⟩, haccounts, hhanded⟩ := hledger
  have hnodup : ((freed : Multiset Nat) + (linked chains + ∑ j, owned (c.locals j))).Nodup := by
    rw [haccounts]
    exact Multiset.coe_nodup.mpr List.nodup_range
  have hdisjoint := (Multiset.nodup_add.mp hnodup).2.2
  have hlinked : ∀ b, ∀ d ∈ chains b, d.1 ∈ linked chains := by
    intro b d hd
    exact Multiset.mem_sum.mpr ⟨b, Finset.mem_univ b, List.mem_map_of_mem hd⟩
  have hlive (p : Nat) (hp : p ∈ linked chains + ∑ j, owned (c.locals j)) : p < c.shared.heap.length ∧ p ∉ freed := by
    refine ⟨?_, fun hfreed => Multiset.disjoint_left.mp hdisjoint hfreed hp⟩
    have hmem : p ∈ (freed : Multiset Nat) + (linked chains + ∑ j, owned (c.locals j)) :=
      Multiset.mem_add.mpr (.inr hp)
    rw [haccounts] at hmem
    exact List.mem_range.mp (Multiset.mem_coe.mp hmem)
  refine ⟨?_, ?_, ?_⟩
  · intro i pc hi p hp
    have hmatch := hhist.matches_at i
    rw [hi] at hmatch
    apply hlive
    rcases hmatch.touches hp with howned | ⟨b, d, hd, rfl⟩
    · refine Multiset.mem_add.mpr (.inr (Multiset.mem_sum.mpr ⟨i, Finset.mem_univ i, ?_⟩))
      rw [hi]
      exact howned
    · exact Multiset.mem_add.mpr (.inl (hlinked b d hd))
  · intro e he
    obtain ⟨b, k, hmem⟩ := hhanded e he
    refine ⟨(hlive e.1 (Multiset.mem_add.mpr (.inl (hlinked b _ hmem)))).2, ?_⟩
    obtain ⟨next, hnode⟩ := (hhist.inv.chain b).node_of_mem hmem
    rw [hnode]
    rfl
  · intro hidle
    obtain ⟨t', freed', hclear, hperm, -, hbuckets⟩ :=
      Ledger.clear ⟨⟨log, ys, hhist⟩, haccounts, hhanded⟩ hidle
    refine ⟨t', freed', hclear, hperm, fun key => ?_⟩
    rw [lookup, hbuckets]
    cases t'.heap.length <;> rfl

theorem nodes_deleted_once_threeEntries :
    ∃ c : Threads (Fin 2) (LockFreeHashTable Nat 1) (Option (CallPc Nat)), Lives [1, 0] [(2, 30)] c ∧
      (∃ t' freed', c.shared.clear [1, 0] = some (t', freed') ∧ freed'.Perm [0, 1, 2]) ∧
      c.shared.heap[2]?.map Node.value = some 30 := by
  have h0 : Lives [] [] ((table Nat 1).start (Fin 2)) := .start
  -- two inserts into one bucket, of which the second finds the head changed
  have h1 := (h0.call 0 (.insert 5 10) rfl).call 1 (.insert 6 20) rfl
  have h2 := (h1.step 0 rfl (.insert (.new 5 10))).step 1 rfl (.insert (.new 6 20))
  have h3 := (h2.step 0 rfl (.insert (.load 5 10 0))).step 1 rfl (.insert (.load 6 20 1))
  have h4 := (h3.step 0 rfl (.insert (.store 5 10 0 none))).step 1 rfl (.insert (.store 6 20 1 none))
  have h5 := (h4.step 0 rfl (.insertReturns (.exchange 5 10 0 none rfl))).ret 0 rfl (.inserted _)
  have h6 := (h5.step 1 rfl (.insert (.exchangeFail 6 20 1 none))).step 1 rfl (.insert (.store 6 20 1 (some 0)))
  have h7 := (h6.step 1 rfl (.insertReturns (.exchange 6 20 1 (some 0) rfl))).ret 1 rfl (.inserted _)
  have h8 := h7.clear (fun i => by fin_cases i <;> rfl) rfl
  have h9 := (h8.call 1 (.insert 5 30) rfl).step 1 rfl (.insert (.new 5 30))
  have h10 := (h9.step 1 rfl (.insert (.load 5 30 2))).step 1 rfl (.insert (.store 5 30 2 none))
  have h11 := (h10.step 1 rfl (.insertReturns (.exchange 5 30 2 none rfl))).ret 1 rfl (.inserted _)
  have h12 := (h11.call 0 (.lookup 5) rfl).step 0 rfl (.load _ 5)
  have h13 := (h12.step 0 rfl (.compare rfl)).step 0 rfl (.next rfl)
  have h14 := h13.ret 0 (r := .found [30]) rfl (.found rfl)
  obtain ⟨-, hhanded, hclear⟩ := nodes_deleted_once h14
  obtain ⟨t', freed', hsome, hperm, -⟩ := hclear fun i => by fin_cases i <;> rfl
  exact ⟨_, h14, ⟨t', freed', hsome, hperm⟩, (hhanded (2, 30) (List.mem_singleton_self _)).2⟩

end LockFreeHashTable

end MyDB.Concurrency

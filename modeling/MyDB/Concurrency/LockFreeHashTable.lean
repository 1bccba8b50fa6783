import MyDB.Lib.Threads

/-! The lock-free hash table. A node is an index of `heap`, to which `new`
appends, so two allocations never give the same node. The steps of `Insert` are
its atomic operations, taken as sequentially consistent. -/

namespace MyDB.Concurrency
open Lib

structure Node (V : Type) where
  key : Int
  value : V
  next : Option Nat

structure LockFreeHashTable (V : Type) (bucketCount : Nat) where
  buckets : Fin bucketCount → Option Nat
  heap : List (Node V)

namespace LockFreeHashTable
variable {V : Type} {bucketCount : Nat}

/-- The constructor. -/
def empty : LockFreeHashTable V bucketCount := ⟨fun _ => none, []⟩

/-- `node->next.store(head)`. -/
def setNext (t : LockFreeHashTable V bucketCount) (node : Nat) (head : Option Nat) :
    LockFreeHashTable V bucketCount :=
  { t with heap := t.heap.modify node fun n => { n with next := head } }

def hash (bucketCount : Nat) [NeZero bucketCount] (key : Int) : Fin bucketCount :=
  let u := UInt32.ofInt key
  let u := u ^^^ (u >>> 16)
  let u := u * 0x45d9f3b
  let u := u ^^^ (u >>> 16)
  Fin.ofNat bucketCount u.toNat

/-- The loop of `Lookup`; `none` is a list that does not end within `fuel` nodes. -/
def lookupLoop (heap : List (Node V)) (key : Int) : Nat → Option Nat → Option (List V)
  | _, none => some []
  | 0, some _ => none
  | fuel + 1, some cur => do
    let node ← heap[cur]?
    let out ← lookupLoop heap key fuel node.next
    return if node.key = key then node.value :: out else out

def lookup [NeZero bucketCount] (t : LockFreeHashTable V bucketCount) (key : Int) : Option (List V) :=
  lookupLoop t.heap key t.heap.length (t.buckets (hash bucketCount key))

/-! ## Insert -/

/-- Where a call of `Insert` stands: before `new`, before the load of the bucket,
before the store of `next`, before the compare-exchange. -/
inductive InsertPc (V : Type) where
  | new (key : Int) (value : V)
  | load (key : Int) (value : V) (node : Nat)
  | store (key : Int) (value : V) (node : Nat) (head : Option Nat)
  | exchange (key : Int) (value : V) (node : Nat) (head : Option Nat)

/-- One atomic step; `none` is the return. -/
inductive InsertStep [NeZero bucketCount] (t : LockFreeHashTable V bucketCount) :
    InsertPc V → LockFreeHashTable V bucketCount → Option (InsertPc V) → Prop
  | new (key : Int) (value : V) : InsertStep t (.new key value)
      { t with heap := t.heap ++ [⟨key, value, none⟩] } (some (.load key value t.heap.length))
  | load (key : Int) (value : V) (node : Nat) : InsertStep t (.load key value node) t
      (some (.store key value node (t.buckets (hash bucketCount key))))
  | store (key : Int) (value : V) (node : Nat) (head : Option Nat) :
      InsertStep t (.store key value node head) (t.setNext node head)
        (some (.exchange key value node head))
  | exchange (key : Int) (value : V) (node : Nat) (head : Option Nat)
      (h : t.buckets (hash bucketCount key) = head) : InsertStep t (.exchange key value node head)
        { t with buckets := Function.update t.buckets (hash bucketCount key) (some node) } none
  -- a weak compare-exchange may also fail where the bucket is the expected one
  | exchangeFail (key : Int) (value : V) (node : Nat) (head : Option Nat) :
      InsertStep t (.exchange key value node head) t
        (some (.store key value node (t.buckets (hash bucketCount key))))

/-! ## The lists of the buckets

A list is given with the node, the key and the value of each of its elements. -/

def IsChain (heap : List (Node V)) : Option Nat → List (Nat × Int × V) → Prop
  | start, [] => start = none
  | start, (p, k, v) :: l => start = some p ∧ ∃ next, heap[p]? = some ⟨k, v, next⟩ ∧ IsChain heap next l

theorem IsChain.congr {heap heap' : List (Node V)} {start : Option Nat} {l : List (Nat × Int × V)}
    (h : IsChain heap start l) (heq : ∀ c ∈ l, ∀ n, heap[c.1]? = some n → heap'[c.1]? = some n) :
    IsChain heap' start l := by
  induction l generalizing start with
  | nil => exact h
  | cons c l ih =>
    obtain ⟨p, k, v⟩ := c
    obtain ⟨hs, next, hp, hl⟩ := h
    exact ⟨hs, next, heq _ (List.mem_cons_self ..) _ hp, ih hl fun c hc => heq c (List.mem_cons_of_mem _ hc)⟩

theorem IsChain.lt_length {heap : List (Node V)} {start : Option Nat} {l : List (Nat × Int × V)}
    (h : IsChain heap start l) : ∀ c ∈ l, c.1 < heap.length := by
  induction l generalizing start with
  | nil => exact fun c hc => absurd hc List.not_mem_nil
  | cons c l ih =>
    obtain ⟨p, k, v⟩ := c
    obtain ⟨-, next, hp, hl⟩ := h
    have hlt : p < heap.length := (List.getElem?_eq_some_iff.mp hp).1
    exact List.forall_mem_cons.mpr ⟨hlt, ih hl⟩

theorem IsChain.lookupLoop {heap : List (Node V)} {key : Int} {start : Option Nat}
    {l : List (Nat × Int × V)} {fuel : Nat} (h : IsChain heap start l) (hfuel : l.length ≤ fuel) :
    lookupLoop heap key fuel start = some ((l.filter fun c => c.2.1 = key).map fun c => c.2.2) := by
  induction l generalizing start fuel with
  | nil =>
    obtain rfl : start = none := h
    cases fuel <;> rfl
  | cons c l ih =>
    obtain ⟨p, k, v⟩ := c
    obtain ⟨rfl, next, hp, hl⟩ := h
    cases fuel with
    | zero => exact absurd hfuel (Nat.not_succ_le_zero _)
    | succ fuel =>
      have hrest := ih hl (Nat.le_of_succ_le_succ hfuel)
      by_cases hk : k = key
      · simp [LockFreeHashTable.lookupLoop, hp, hrest, hk]
      · simp [LockFreeHashTable.lookupLoop, hp, hrest, hk]

/-! ## What the inserting threads keep -/

def contents (chains : Fin bucketCount → List (Nat × Int × V)) : Multiset (Int × V) :=
  ∑ b, ((chains b).map Prod.snd : Multiset (Int × V))

theorem contents_cons (chains : Fin bucketCount → List (Nat × Int × V)) (c : Nat × Int × V) (b : Fin bucketCount) :
    contents (Function.update chains b (c :: chains b)) = contents chains + {c.2} := by
  have h := Threads.sum_locals_update
    (fun l : List (Nat × Int × V) => (l.map Prod.snd : Multiset (Int × V))) chains b (c :: chains b)
  rw [List.map_cons, ← Multiset.cons_coe, ← Multiset.singleton_add, ← add_assoc] at h
  exact add_right_cancel h

theorem getElem?_setNext_of_ne (t : LockFreeHashTable V bucketCount) {p q : Nat} (hpq : q ≠ p) (head : Option Nat) :
    (t.setNext p head).heap[q]? = t.heap[q]? := by
  simp [setNext, Ne.symm hpq]

def InsertPc.node : InsertPc V → Option Nat
  | .new .. => none
  | .load _ _ node | .store _ _ node _ | .exchange _ _ node _ => some node

def InsertPc.entry : InsertPc V → Int × V
  | .new k v | .load k v _ | .store k v _ _ | .exchange k v _ _ => (k, v)

def InsertPc.Owns (heap : List (Node V)) : InsertPc V → Prop
  | .new .. => True
  | .load k v node | .store k v node _ => ∃ next, heap[node]? = some ⟨k, v, next⟩
  | .exchange k v node head => heap[node]? = some ⟨k, v, head⟩

theorem InsertPc.Owns.congr {heap heap' : List (Node V)} {pc : InsertPc V} (h : pc.Owns heap)
    (heq : ∀ p n, pc.node = some p → heap[p]? = some n → heap'[p]? = some n) : pc.Owns heap' := by
  cases pc with
  | new k v => exact trivial
  | load k v p => exact h.imp fun _ hp => heq p _ rfl hp
  | store k v p head => exact h.imp fun _ hp => heq p _ rfl hp
  | exchange k v p head => exact heq p _ rfl h

theorem InsertPc.Owns.lt_length {heap : List (Node V)} {pc : InsertPc V} {p : Nat} (h : pc.Owns heap)
    (hp : pc.node = some p) : p < heap.length := by
  cases pc with
  | new k v => cases hp
  | load k v q =>
    obtain ⟨next, hq⟩ := h
    cases hp
    exact (List.getElem?_eq_some_iff.mp hq).1
  | store k v q head =>
    obtain ⟨next, hq⟩ := h
    cases hp
    exact (List.getElem?_eq_some_iff.mp hq).1
  | exchange k v q head =>
    cases hp
    exact (List.getElem?_eq_some_iff.mp h).1

variable {ι : Type} [NeZero bucketCount]

structure TableInv (t : LockFreeHashTable V bucketCount) (chains : Fin bucketCount → List (Nat × Int × V))
    (pcs : ι → Option (InsertPc V)) : Prop where
  chain : ∀ b, IsChain t.heap (t.buckets b) (chains b)
  hashed : ∀ b, ∀ c ∈ chains b, hash bucketCount c.2.1 = b
  nodup : ∀ b, ((chains b).map Prod.fst).Nodup
  owns : ∀ i pc, pcs i = some pc → pc.Owns t.heap
  unlinked : ∀ i pc p, pcs i = some pc → pc.node = some p → ∀ b, ∀ c ∈ chains b, c.1 ≠ p
  distinct : ∀ i j pc pc' p, pcs i = some pc → pcs j = some pc' → pc.node = some p →
    pc'.node = some p → i = j

def inFlight : Option (InsertPc V) → Multiset (Int × V)
  | none => 0
  | some pc => {pc.entry}

theorem tableInv_empty : TableInv (empty : LockFreeHashTable V bucketCount) (fun _ => [])
    (fun _ : ι => none) where
  chain := fun _ => rfl
  hashed := fun _ _ hc => absurd hc List.not_mem_nil
  nodup := fun _ => List.nodup_nil
  owns := fun _ _ h => by cases h
  unlinked := fun _ _ _ h => by cases h
  distinct := fun _ _ _ _ _ h => by cases h

section Step
variable [DecidableEq ι] {t t' : LockFreeHashTable V bucketCount}
  {chains : Fin bucketCount → List (Nat × Int × V)} {pcs : ι → Option (InsertPc V)} {i : ι}
  {pc : InsertPc V}

theorem TableInv.local (h : TableInv t chains pcs) {pc' : InsertPc V}
    (hbuckets : t'.buckets = t.buckets)
    (hheap : ∀ p n, (∀ pc, pcs i = some pc → pc.node ≠ some p) → t.heap[p]? = some n → t'.heap[p]? = some n)
    (howns : pc'.Owns t'.heap)
    (hnode : ∀ p, pc'.node = some p → (∀ b, ∀ c ∈ chains b, c.1 ≠ p) ∧
      ∀ j pc, j ≠ i → pcs j = some pc → pc.node ≠ some p) :
    TableInv t' chains (Function.update pcs i (some pc')) := by
  have hcase {j : ι} {pc : InsertPc V} (hj : Function.update pcs i (some pc') j = some pc) :
      (j = i ∧ pc = pc') ∨ (j ≠ i ∧ pcs j = some pc) := by
    by_cases hji : j = i
    · subst hji
      rw [Function.update_self] at hj
      exact Or.inl ⟨rfl, (Option.some.inj hj).symm⟩
    · rw [Function.update_of_ne hji] at hj
      exact Or.inr ⟨hji, hj⟩
  refine ⟨?_, h.hashed, h.nodup, ?_, ?_, ?_⟩
  · intro b
    rw [hbuckets]
    refine (h.chain b).congr fun c hc n hn => hheap c.1 n ?_ hn
    intro pc hpc hp
    exact h.unlinked i pc c.1 hpc hp b c hc rfl
  · intro j pc hj
    rcases hcase hj with ⟨-, rfl⟩ | ⟨hji, hj⟩
    · exact howns
    · refine (h.owns j pc hj).congr fun p n hp hn => hheap p n ?_ hn
      intro pc₂ hpc₂ hp₂
      exact hji (h.distinct j i pc pc₂ p hj hpc₂ hp hp₂)
  · intro j pc p hj hp
    rcases hcase hj with ⟨-, rfl⟩ | ⟨-, hj⟩
    · exact (hnode p hp).1
    · exact h.unlinked j pc p hj hp
  · intro j j' pc₁ pc₂ p h₁ h₂ hp₁ hp₂
    rcases hcase h₁ with ⟨hj, rfl⟩ | ⟨hj, hold₁⟩
    · rcases hcase h₂ with ⟨hj', -⟩ | ⟨hj', hold₂⟩
      · rw [hj, hj']
      · exact absurd hp₂ ((hnode p hp₁).2 j' pc₂ hj' hold₂)
    · rcases hcase h₂ with ⟨-, rfl⟩ | ⟨-, hold₂⟩
      · exact absurd hp₁ ((hnode p hp₂).2 j pc₁ hj hold₁)
      · exact h.distinct j j' pc₁ pc₂ p hold₁ hold₂ hp₁ hp₂

theorem TableInv.link (h : TableInv t chains pcs) {k : Int} {v : V} {p : Nat}
    (hi : pcs i = some (.exchange k v p (t.buckets (hash bucketCount k)))) :
    TableInv { t with buckets := Function.update t.buckets (hash bucketCount k) (some p) }
      (Function.update chains (hash bucketCount k) ((p, k, v) :: chains (hash bucketCount k)))
      (Function.update pcs i none) := by
  have hold {j : ι} {pc : InsertPc V} (hj : Function.update pcs i none j = some pc) :
      j ≠ i ∧ pcs j = some pc := by
    by_cases hji : j = i
    · subst hji
      rw [Function.update_self] at hj
      cases hj
    · rw [Function.update_of_ne hji] at hj
      exact ⟨hji, hj⟩
  have hnew : ∀ b, ∀ c ∈ chains b, c.1 ≠ p := h.unlinked i _ p hi rfl
  have hmem {b : Fin bucketCount} {c : Nat × Int × V}
      (hc : c ∈ Function.update chains (hash bucketCount k) ((p, k, v) :: chains (hash bucketCount k)) b) :
      (b = hash bucketCount k ∧ c = (p, k, v)) ∨ c ∈ chains b := by
    by_cases hb : b = hash bucketCount k
    · subst hb
      rw [Function.update_self] at hc
      exact (List.mem_cons.mp hc).imp_left fun e => ⟨rfl, e⟩
    · rw [Function.update_of_ne hb] at hc
      exact Or.inr hc
  refine ⟨?_, ?_, ?_, ?_, ?_, ?_⟩
  · intro b
    change IsChain t.heap (Function.update t.buckets _ _ b) _
    by_cases hb : b = hash bucketCount k
    · subst hb
      rw [Function.update_self, Function.update_self]
      exact ⟨rfl, _, h.owns i _ hi, h.chain _⟩
    · rw [Function.update_of_ne hb, Function.update_of_ne hb]
      exact h.chain b
  · intro b c hc
    rcases hmem hc with ⟨rfl, rfl⟩ | hc
    · rfl
    · exact h.hashed b c hc
  · intro b
    by_cases hb : b = hash bucketCount k
    · subst hb
      rw [Function.update_self, List.map_cons, List.nodup_cons, List.mem_map]
      refine ⟨?_, h.nodup _⟩
      rintro ⟨c, hc, e⟩
      exact hnew _ c hc e
    · rw [Function.update_of_ne hb]
      exact h.nodup b
  · intro j pc hj
    exact h.owns j pc (hold hj).2
  · intro j pc q hj hq b c hc
    rcases hmem hc with ⟨-, rfl⟩ | hc
    · rintro rfl
      exact (hold hj).1 (h.distinct j i pc _ _ (hold hj).2 hi hq rfl)
    · exact h.unlinked j pc q (hold hj).2 hq b c hc
  · intro j j' pc₁ pc₂ q h₁ h₂ hq₁ hq₂
    exact h.distinct j j' pc₁ pc₂ q (hold h₁).2 (hold h₂).2 hq₁ hq₂

theorem TableInv.step (h : TableInv t chains pcs) (hi : pcs i = some pc) {pc' : Option (InsertPc V)}
    (hs : InsertStep t pc t' pc') :
    ∃ chains', TableInv t' chains' (Function.update pcs i pc') ∧
      contents chains' + inFlight pc' = contents chains + inFlight (some pc) := by
  have hnode : ∀ p, pc.node = some p → (∀ b, ∀ c ∈ chains b, c.1 ≠ p) ∧
      ∀ j pc₂, j ≠ i → pcs j = some pc₂ → pc₂.node ≠ some p := by
    intro p hp
    refine ⟨h.unlinked i pc p hi hp, ?_⟩
    intro j pc₂ hji hj hp₂
    exact hji (h.distinct j i pc₂ pc p hj hi hp₂ hp)
  cases hs with
  | new k v =>
    refine ⟨chains, h.local rfl ?_ ⟨none, List.getElem?_concat_length⟩ ?_, rfl⟩
    · intro p n _ hp
      exact (List.getElem?_append_left (List.getElem?_eq_some_iff.mp hp).1).trans hp
    · intro p hp
      cases hp
      constructor
      · intro b c hc
        exact ((h.chain b).lt_length c hc).ne
      · intro j pc₂ _ hj hp₂
        exact lt_irrefl _ ((h.owns j pc₂ hj).lt_length hp₂)
  | load k v p =>
    have howns := h.owns i _ hi
    exact ⟨chains, h.local rfl (fun _ _ _ hp => hp) howns hnode, rfl⟩
  | store k v p head =>
    refine ⟨chains, h.local rfl ?_ ?_ hnode, rfl⟩
    · intro q n hq hn
      rw [getElem?_setNext_of_ne]
      · exact hn
      · rintro rfl
        exact hq _ hi rfl
    · obtain ⟨next, hp⟩ := h.owns i _ hi
      change (t.heap.modify p _)[p]? = _
      rw [List.getElem?_modify_eq, hp]
      rfl
  | exchange k v p head hb =>
    subst hb
    refine ⟨_, h.link hi, ?_⟩
    rw [contents_cons]
    exact add_zero _
  | exchangeFail k v p head =>
    exact ⟨chains, h.local rfl (fun _ _ _ hp => hp) ⟨head, h.owns i _ hi⟩ hnode, rfl⟩

theorem TableInv.begin (h : TableInv t chains pcs) (k : Int) (v : V) :
    TableInv t chains (Function.update pcs i (some (.new k v))) :=
  h.local rfl (fun _ _ _ hp => hp) trivial fun _ hp => by cases hp

end Step

theorem TableInv.lookup {t : LockFreeHashTable V bucketCount}
    {chains : Fin bucketCount → List (Nat × Int × V)} {pcs : ι → Option (InsertPc V)}
    (h : TableInv t chains pcs) (key : Int) :
    ∃ out, t.lookup key = some out ∧
      (out : Multiset V) = ((contents chains).filter fun e => e.1 = key).map Prod.snd := by
  have hchain := h.chain (hash bucketCount key)
  have hlen : (chains (hash bucketCount key)).length ≤ t.heap.length := by
    have hsub : ((chains (hash bucketCount key)).map Prod.fst).Subperm (List.range t.heap.length) := by
      refine (h.nodup (hash bucketCount key)).subperm fun p hp => ?_
      obtain ⟨c, hc, rfl⟩ := List.mem_map.mp hp
      exact List.mem_range.mpr (hchain.lt_length c hc)
    simpa using hsub.length_le
  refine ⟨_, hchain.lookupLoop hlen, ?_⟩
  have hother : ∀ b, b ≠ hash bucketCount key →
      (((chains b).map Prod.snd : Multiset (Int × V)).filter fun e => e.1 = key) = 0 := by
    intro b hb
    rw [Multiset.filter_eq_nil]
    intro e he hk
    obtain ⟨c, hc, rfl⟩ := List.mem_map.mp (Multiset.mem_coe.mp he)
    exact hb ((h.hashed b c hc).symm.trans (congrArg _ hk))
  rw [contents, filter_sum, Finset.sum_eq_single_of_mem _ (Finset.mem_univ _) fun b _ hb => hother b hb,
    Multiset.filter_coe, Multiset.map_coe, List.filter_map, List.map_map]
  rfl

/-! ## Any number of threads -/

/-- A thread with the calls of `Insert` it has yet to make. -/
structure Inserter (V : Type) where
  calls : List (Int × V)
  pc : Option (InsertPc V)

inductive InserterStep : LockFreeHashTable V bucketCount → Inserter V → LockFreeHashTable V bucketCount →
    Inserter V → Prop
  | call (t : LockFreeHashTable V bucketCount) (k : Int) (v : V) (calls : List (Int × V)) :
      InserterStep t ⟨(k, v) :: calls, none⟩ t ⟨calls, some (.new k v)⟩
  | insert {t t' : LockFreeHashTable V bucketCount} (calls : List (Int × V)) {pc : InsertPc V}
      {pc' : Option (InsertPc V)} (h : InsertStep t pc t' pc') :
      InserterStep t ⟨calls, some pc⟩ t' ⟨calls, pc'⟩

def Inserter.work (l : Inserter V) : Multiset (Int × V) := l.calls + inFlight l.pc

section Threads
variable {n : Nat}

def inserters (calls : Fin n → List (Int × V)) :
    Threads (Fin n) (LockFreeHashTable V bucketCount) (Inserter V) :=
  ⟨empty, fun i => ⟨calls i, none⟩⟩

def InsertersInv (total : Multiset (Int × V))
    (c : Threads (Fin n) (LockFreeHashTable V bucketCount) (Inserter V)) : Prop :=
  ∃ chains, TableInv c.shared chains (fun i => (c.locals i).pc) ∧
    contents chains + ∑ i, (c.locals i).work = total

theorem insertersInv_step {total : Multiset (Int × V)}
    (c : Threads (Fin n) (LockFreeHashTable V bucketCount) (Inserter V)) (i : Fin n)
    (t' : LockFreeHashTable V bucketCount) (l' : Inserter V) (h : InsertersInv total c)
    (hs : InserterStep c.shared (c.locals i) t' l') :
    InsertersInv total ⟨t', Function.update c.locals i l'⟩ := by
  obtain ⟨chains, hinv, htotal⟩ := h
  have hpcs : (fun j => (Function.update c.locals i l' j).pc) =
      Function.update (fun j => (c.locals j).pc) i l'.pc := Function.comp_update Inserter.pc ..
  have hsum := Threads.sum_locals_update Inserter.work c.locals i l'
  generalize hl : c.locals i = l at hs hsum
  have hpc : (c.locals i).pc = l.pc := congrArg Inserter.pc hl
  -- one thread's entries and those linked are together the same before and after
  suffices ∃ chains', TableInv t' chains' (Function.update (fun j => (c.locals j).pc) i l'.pc) ∧
      contents chains' + l'.work = contents chains + l.work by
    obtain ⟨chains', hinv', hwork⟩ := this
    refine ⟨chains', ?_, ?_⟩
    · rw [hpcs]
      exact hinv'
    · refine add_right_cancel (b := l.work) ?_
      rw [← htotal, add_assoc, hsum, add_left_comm, hwork, add_left_comm, add_assoc]
  cases hs with
  | call k v calls =>
    refine ⟨chains, hinv.begin k v, congrArg (contents chains + ·) ?_⟩
    change (calls : Multiset (Int × V)) + {(k, v)} = ((k, v) :: calls : List (Int × V)) + 0
    rw [add_zero, ← Multiset.cons_coe, Multiset.add_comm, Multiset.singleton_add]
  | insert calls hs =>
    obtain ⟨chains', hinv', hcontents⟩ := hinv.step hpc hs
    refine ⟨chains', hinv', ?_⟩
    change contents chains' + (_ + inFlight _) = contents chains + (_ + inFlight _)
    rw [add_left_comm, hcontents, add_left_comm]

/-- After any interleaving of any number of threads in which every call of
`Insert` has returned, `Lookup` finds just what was inserted with the key, and
the lists of the buckets end and do not repeat a node. -/
theorem lookup_after_inserts (calls : Fin n → List (Int × V))
    {c : Threads (Fin n) (LockFreeHashTable V bucketCount) (Inserter V)}
    (hrun : Threads.Run InserterStep (inserters calls) c)
    (hdone : ∀ i, c.locals i = ⟨[], none⟩) :
    (∀ key, ∃ out, c.shared.lookup key = some out ∧
      (out : Multiset V) = ((∑ i, (calls i : Multiset (Int × V))).filter fun e => e.1 = key).map Prod.snd) ∧
    ∀ b, ∃ l, IsChain c.shared.heap (c.shared.buckets b) l ∧ (l.map Prod.fst).Nodup := by
  have hstart : InsertersInv (∑ i, (calls i : Multiset (Int × V)))
      (inserters calls : Threads (Fin n) (LockFreeHashTable V bucketCount) (Inserter V)) := by
    refine ⟨fun _ => [], tableInv_empty, ?_⟩
    simp [contents, inserters, Inserter.work, inFlight]
  obtain ⟨chains, hinv, htotal⟩ := hrun.invariant insertersInv_step hstart
  have hcontents : contents chains = ∑ i, (calls i : Multiset (Int × V)) := by
    rw [← htotal]
    simp [hdone, Inserter.work, inFlight]
  refine ⟨fun key => ?_, fun b => ⟨chains b, hinv.chain b, hinv.nodup b⟩⟩
  rw [← hcontents]
  exact hinv.lookup key

end Threads

def contendedCalls : Fin 2 → List (Int × Nat) := ![[(5, 10)], [(5, 20)]]

theorem lookup_after_inserts_contended :
    ∃ c : Threads (Fin 2) (LockFreeHashTable Nat 1) (Inserter Nat),
      Threads.Run InserterStep (inserters contendedCalls) c ∧
      ∃ out, c.shared.lookup 5 = some out ∧ (out : Multiset Nat) = {10, 20} := by
  have h1 : Threads.Run InserterStep (inserters contendedCalls :
      Threads (Fin 2) (LockFreeHashTable Nat 1) (Inserter Nat)) _ := .tail .refl (.run 0 (.call _ 5 10 []))
  have h2 := h1.tail (.run 1 (.call _ 5 20 []))
  have h3 := h2.tail (.run 0 (.insert [] (.new 5 10)))
  have h4 := h3.tail (.run 0 (.insert [] (.load 5 10 0)))
  have h5 := h4.tail (.run 1 (.insert [] (.new 5 20)))
  have h6 := h5.tail (.run 1 (.insert [] (.load 5 20 1)))
  have h7 := h6.tail (.run 1 (.insert [] (.store 5 20 1 none)))
  have h8 := h7.tail (.run 1 (.insert [] (.exchange 5 20 1 none rfl)))
  have h9 := h8.tail (.run 0 (.insert [] (.store 5 10 0 none)))
  have h10 := h9.tail (.run 0 (.insert [] (.exchangeFail 5 10 0 none)))
  have h11 := h10.tail (.run 0 (.insert [] (.store 5 10 0 (some 1))))
  have h12 := h11.tail (.run 0 (.insert [] (.exchange 5 10 0 (some 1) rfl)))
  have hdone := lookup_after_inserts contendedCalls h12 fun i => by fin_cases i <;> rfl
  obtain ⟨out, hout, hvalues⟩ := hdone.1 5
  refine ⟨_, h12, out, hout, hvalues.trans ?_⟩
  rw [Fin.sum_univ_two]
  decide

end LockFreeHashTable

end MyDB.Concurrency

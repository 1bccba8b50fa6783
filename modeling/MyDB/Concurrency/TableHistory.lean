import MyDB.Concurrency.LockFreeHashTable
import MyDB.Lib.ConcurrentObject

/-! Calls of `Insert` and `Lookup` by any number of threads at the same time. `Lookup` hands
out pointers to the values, which are read when it has returned. The table is
linearizable: `Insert` takes effect at its successful compare-exchange and `Lookup` at its
load of the bucket. -/

namespace MyDB.Concurrency
open Lib

namespace LockFreeHashTable
variable {V : Type} {bucketCount : Nat}

inductive Call (V : Type) where
  | insert (key : Int) (value : V)
  | lookup (key : Int)

inductive Reply (V : Type) where
  | inserted
  | found (values : List V)

/-- Where a call is. `Lookup` is before the load of the bucket, at the head of its loop, or
before the load of `next`. -/
inductive CallPc (V : Type) where
  | inserting (pc : InsertPc V)
  | inserted
  | load (key : Int)
  | loop (key : Int) (cur : Option Nat) (out : List Nat)
  | next (key : Int) (cur : Nat) (out : List Nat)

inductive CallStep [NeZero bucketCount] : LockFreeHashTable V bucketCount → CallPc V →
    LockFreeHashTable V bucketCount → CallPc V → Prop
  | insert {t t' : LockFreeHashTable V bucketCount} {pc pc' : InsertPc V} (h : InsertStep t pc t' (some pc')) :
      CallStep t (.inserting pc) t' (.inserting pc')
  | insertReturns {t t' : LockFreeHashTable V bucketCount} {pc : InsertPc V} (h : InsertStep t pc t' none) :
      CallStep t (.inserting pc) t' .inserted
  | load (t : LockFreeHashTable V bucketCount) (key : Int) :
      CallStep t (.load key) t (.loop key (t.buckets (hash bucketCount key)) [])
  | compare {t : LockFreeHashTable V bucketCount} {key : Int} {cur : Nat} {out : List Nat} {node : Node V}
      (h : t.heap[cur]? = some node) :
      CallStep t (.loop key (some cur) out) t (.next key cur (if node.key = key then out ++ [cur] else out))
  | next {t : LockFreeHashTable V bucketCount} {key : Int} {cur : Nat} {out : List Nat} {node : Node V}
      (h : t.heap[cur]? = some node) : CallStep t (.next key cur out) t (.loop key node.next out)

def deref (heap : List (Node V)) (out : List Nat) : Option (List V) :=
  out.mapM fun p => heap[p]?.map Node.value

inductive Returns : LockFreeHashTable V bucketCount → CallPc V → Reply V → Prop
  | inserted (t : LockFreeHashTable V bucketCount) : Returns t .inserted .inserted
  | found {t : LockFreeHashTable V bucketCount} {key : Int} {out : List Nat} {values : List V}
      (h : deref t.heap out = some values) : Returns t (.loop key none out) (.found values)

def Call.enter : Call V → CallPc V
  | .insert key value => .inserting (.new key value)
  | .lookup key => .load key

def table (V : Type) (bucketCount : Nat) [NeZero bucketCount] :
    Implementation (LockFreeHashTable V bucketCount) (Call V) (Reply V) (CallPc V) where
  init := empty
  enter := Call.enter
  step := CallStep
  result := Returns

def valuesOf (log : List (Int × V)) (key : Int) : List V :=
  (log.filter fun e => e.1 = key).map Prod.snd

/-- What the table is for: a log of the entries, from which those with a key are read. -/
def logObject (V : Type) : SequentialObject (List (Int × V)) (Call V) (Reply V) where
  init := []
  apply
    | .insert key value, log => (.inserted, (key, value) :: log)
    | .lookup key, log => (.found (valuesOf log key), log)

theorem valuesOf_cons (e : Int × V) (log : List (Int × V)) (key : Int) :
    valuesOf (e :: log) key = if e.1 = key then e.2 :: valuesOf log key else valuesOf log key := by
  by_cases h : e.1 = key
  · simp [valuesOf, h]
  · simp [valuesOf, h]

/-! ## What a step of `Insert` does -/

theorem IsChain.unique {heap : List (Node V)} {start : Option Nat} {l l' : List (Nat × Int × V)}
    (h : IsChain heap start l) (h' : IsChain heap start l') : l = l' := by
  induction l generalizing start l' with
  | nil =>
    obtain rfl : start = none := h
    cases l' with
    | nil => rfl
    | cons c l' => cases h'.1
  | cons c l ih =>
    obtain ⟨p, k, v⟩ := c
    obtain ⟨rfl, next, hp, hl⟩ := h
    cases l' with
    | nil => cases h'
    | cons c' l' =>
      obtain ⟨p', k', v'⟩ := c'
      obtain ⟨hpp', next', hp', hl'⟩ := h'
      cases hpp'
      rw [hp] at hp'
      cases hp'
      rw [ih hl hl']

theorem IsChain.start_eq {heap : List (Node V)} {start : Option Nat} {l : List (Nat × Int × V)}
    (h : IsChain heap start l) : start = l.head?.map Prod.fst := by
  cases l with
  | nil => exact h
  | cons c l => exact h.1

theorem IsChain.of_suffix {heap : List (Node V)} {start : Option Nat} {l m : List (Nat × Int × V)}
    (h : IsChain heap start l) (hm : m <:+ l) : IsChain heap (m.head?.map Prod.fst) m := by
  obtain ⟨front, rfl⟩ := hm
  induction front generalizing start with
  | nil =>
    cases m with
    | nil => rfl
    | cons c m =>
      obtain ⟨p, k, v⟩ := c
      exact ⟨rfl, h.2⟩
  | cons c front ih =>
    obtain ⟨p, k, v⟩ := c
    obtain ⟨-, next, -, hl⟩ := h
    exact ih hl

theorem IsChain.node_of_mem {heap : List (Node V)} {start : Option Nat} {l : List (Nat × Int × V)}
    (h : IsChain heap start l) {c : Nat × Int × V} (hc : c ∈ l) :
    ∃ next, heap[c.1]? = some ⟨c.2.1, c.2.2, next⟩ := by
  induction l generalizing start with
  | nil => exact absurd hc List.not_mem_nil
  | cons c' l ih =>
    obtain ⟨p, k, v⟩ := c'
    obtain ⟨-, next, hp, hl⟩ := h
    rcases List.mem_cons.mp hc with rfl | hc
    · exact ⟨next, hp⟩
    · exact ih hl hc

section InsertStep
variable [NeZero bucketCount] {t t' : LockFreeHashTable V bucketCount} {pc : InsertPc V}

theorem InsertStep.getElem?_heap {pc' : Option (InsertPc V)} (h : InsertStep t pc t' pc') {p : Nat} {n : Node V}
    (hp : pc.node ≠ some p) (hn : t.heap[p]? = some n) : t'.heap[p]? = some n := by
  cases h with
  | new k v => exact (List.getElem?_append_left (List.getElem?_eq_some_iff.mp hn).1).trans hn
  | store k v q head =>
    have hpq : p ≠ q := fun e => hp (congrArg some e.symm)
    exact (getElem?_setNext_of_ne t hpq head).trans hn
  | _ => exact hn

theorem InsertStep.buckets_eq {pc' : InsertPc V} (h : InsertStep t pc t' (some pc')) : t'.buckets = t.buckets := by
  cases h <;> rfl

theorem InsertStep.entry_eq {pc' : InsertPc V} (h : InsertStep t pc t' (some pc')) : pc'.entry = pc.entry := by
  cases h <;> rfl

variable {ι : Type} [DecidableEq ι] {chains : Fin bucketCount → List (Nat × Int × V)}
  {pcs : ι → Option (InsertPc V)} {i : ι}

theorem TableInv.step_some (h : TableInv t chains pcs) (hi : pcs i = some pc) {pc' : InsertPc V}
    (hs : InsertStep t pc t' (some pc')) : TableInv t' chains (Function.update pcs i (some pc')) := by
  obtain ⟨chains', hinv, -⟩ := h.step hi hs
  have hchains : chains' = chains := by
    funext b
    refine (hinv.chain b).unique ?_
    rw [hs.buckets_eq]
    refine (h.chain b).congr fun c hc n hn => hs.getElem?_heap ?_ hn
    exact fun hp => h.unlinked i pc c.1 hi hp b c hc rfl
  rwa [hchains] at hinv

theorem TableInv.step_none (h : TableInv t chains pcs) (hi : pcs i = some pc) (hs : InsertStep t pc t' none) :
    ∃ p, pc.node = some p ∧ TableInv t' (Function.update chains (hash bucketCount pc.entry.1)
      ((p, pc.entry) :: chains (hash bucketCount pc.entry.1))) (Function.update pcs i none) := by
  cases hs with
  | exchange k v p head hb =>
    subst hb
    exact ⟨p, rfl, h.link hi⟩

end InsertStep

/-! ## The simulation -/

def CallPc.insertPc : CallPc V → Option (InsertPc V)
  | .inserting pc => some pc
  | _ => none

open SequentialObject (AtomicPc)

/-- A `Lookup` that has loaded its bucket stands at the end of a list that was then linked:
`outs` are the nodes it has found and `l` is what is left. -/
inductive Matches (chains : Fin bucketCount → List (Nat × Int × V)) :
    Option (CallPc V) → Option (AtomicPc (Call V) (Reply V)) → Prop
  | idle : Matches chains none none
  | inserting (pc : InsertPc V) :
      Matches chains (some (.inserting pc)) (some (.pending (.insert pc.entry.1 pc.entry.2)))
  | inserted : Matches chains (some .inserted) (some (.done .inserted))
  | load (key : Int) : Matches chains (some (.load key)) (some (.pending (.lookup key)))
  | loop (key : Int) {b : Fin bucketCount} (outs : List (Nat × Int × V)) {l : List (Nat × Int × V)}
      (houts : ∀ c ∈ outs, c ∈ chains b) (hl : l <:+ chains b) :
      Matches chains (some (.loop key (l.head?.map Prod.fst) (outs.map Prod.fst)))
        (some (.done (.found (outs.map (fun c => c.2.2) ++ valuesOf (l.map Prod.snd) key))))
  | next (key : Int) {b : Fin bucketCount} (outs : List (Nat × Int × V)) {l : List (Nat × Int × V)}
      {c : Nat × Int × V} (houts : ∀ c ∈ outs, c ∈ chains b) (hl : c :: l <:+ chains b) :
      Matches chains (some (.next key c.1 (outs.map Prod.fst)))
        (some (.done (.found (outs.map (fun c => c.2.2) ++ valuesOf (l.map Prod.snd) key))))

theorem Matches.mono {chains chains' : Fin bucketCount → List (Nat × Int × V)}
    (hle : ∀ b, chains b <:+ chains' b) {x : Option (CallPc V)} {y : Option (AtomicPc (Call V) (Reply V))}
    (h : Matches chains x y) : Matches chains' x y := by
  cases h with
  | idle => exact .idle
  | inserting pc => exact .inserting pc
  | inserted => exact .inserted
  | load key => exact .load key
  | loop key outs houts hl => exact .loop key outs (fun c hc => (hle _).subset (houts c hc)) (hl.trans (hle _))
  | next key outs houts hl => exact .next key outs (fun c hc => (hle _).subset (houts c hc)) (hl.trans (hle _))

theorem Matches.of_loop {chains : Fin bucketCount → List (Nat × Int × V)} {key : Int} {cur : Option Nat}
    {out : List Nat} {y : Option (AtomicPc (Call V) (Reply V))} (h : Matches chains (some (.loop key cur out)) y) :
    ∃ (b : Fin bucketCount) (outs l : List (Nat × Int × V)), (∀ c ∈ outs, c ∈ chains b) ∧ l <:+ chains b ∧
      cur = l.head?.map Prod.fst ∧ out = outs.map Prod.fst ∧
      y = some (.done (.found (outs.map (fun c => c.2.2) ++ valuesOf (l.map Prod.snd) key))) := by
  generalize hx : some (CallPc.loop key cur out) = x at h
  cases h with
  | loop key outs houts hl =>
    cases hx
    exact ⟨_, _, _, houts, hl, rfl, rfl, rfl⟩
  | _ => cases hx

theorem Matches.of_next {chains : Fin bucketCount → List (Nat × Int × V)} {key : Int} {cur : Nat}
    {out : List Nat} {y : Option (AtomicPc (Call V) (Reply V))} (h : Matches chains (some (.next key cur out)) y) :
    ∃ (b : Fin bucketCount) (outs l : List (Nat × Int × V)) (c : Nat × Int × V),
      (∀ c ∈ outs, c ∈ chains b) ∧ c :: l <:+ chains b ∧ cur = c.1 ∧ out = outs.map Prod.fst ∧
      y = some (.done (.found (outs.map (fun c => c.2.2) ++ valuesOf (l.map Prod.snd) key))) := by
  generalize hx : some (CallPc.next key cur out) = x at h
  cases h with
  | next key outs houts hl =>
    cases hx
    exact ⟨_, _, _, _, houts, hl, rfl, rfl, rfl⟩
  | _ => cases hx

theorem Matches.compare {t : LockFreeHashTable V bucketCount} {chains : Fin bucketCount → List (Nat × Int × V)}
    (hchain : ∀ b, IsChain t.heap (t.buckets b) (chains b)) {key : Int} {cur : Nat} {out : List Nat}
    {y : Option (AtomicPc (Call V) (Reply V))} (h : Matches chains (some (.loop key (some cur) out)) y)
    {node : Node V} (hn : t.heap[cur]? = some node) :
    Matches chains (some (.next key cur (if node.key = key then out ++ [cur] else out))) y := by
  obtain ⟨b, outs, l, houts, hl, hcur, rfl, rfl⟩ := h.of_loop
  cases l with
  | nil => cases hcur
  | cons c l =>
    cases hcur
    have hc : c ∈ chains b := hl.subset (List.mem_cons_self ..)
    obtain ⟨next, hnode⟩ := (hchain b).node_of_mem hc
    rw [hn] at hnode
    cases hnode
    by_cases hk : c.2.1 = key
    · have hnext := Matches.next key (outs ++ [c]) (List.forall_mem_append.mpr ⟨houts, by simpa using hc⟩) hl
      simpa [hk, valuesOf_cons] using hnext
    · have hnext := Matches.next key outs houts hl
      simpa [hk, valuesOf_cons] using hnext

theorem Matches.advance {t : LockFreeHashTable V bucketCount} {chains : Fin bucketCount → List (Nat × Int × V)}
    (hchain : ∀ b, IsChain t.heap (t.buckets b) (chains b)) {key : Int} {cur : Nat} {out : List Nat}
    {y : Option (AtomicPc (Call V) (Reply V))} (h : Matches chains (some (.next key cur out)) y)
    {node : Node V} (hn : t.heap[cur]? = some node) : Matches chains (some (.loop key node.next out)) y := by
  obtain ⟨b, outs, l, c, houts, hl, rfl, rfl, rfl⟩ := h.of_next
  obtain ⟨-, next, hnode, hrest⟩ := (hchain b).of_suffix hl
  rw [hn] at hnode
  cases hnode
  rw [hrest.start_eq]
  exact .loop key outs houts ((List.suffix_cons ..).trans hl)

variable {ι : Type}

theorem Matches.update [DecidableEq ι] {chains chains' : Fin bucketCount → List (Nat × Int × V)} {xs : ι → Option (CallPc V)}
    {ys : ι → Option (AtomicPc (Call V) (Reply V))} (h : ∀ j, Matches chains (xs j) (ys j))
    (hle : ∀ b, chains b <:+ chains' b) (i : ι) {x : Option (CallPc V)} {y : Option (AtomicPc (Call V) (Reply V))}
    (hxy : Matches chains' x y) (j : ι) : Matches chains' (Function.update xs i x j) (Function.update ys i y j) := by
  by_cases hji : j = i
  · subst hji
    rwa [Function.update_self, Function.update_self]
  · rw [Function.update_of_ne hji, Function.update_of_ne hji]
    exact (h j).mono hle

theorem suffix_update_cons (chains : Fin bucketCount → List (Nat × Int × V)) (b : Fin bucketCount)
    (c : Nat × Int × V) (b' : Fin bucketCount) : chains b' <:+ Function.update chains b (c :: chains b) b' := by
  by_cases hb : b' = b
  · subst hb
    rw [Function.update_self]
    exact List.suffix_cons ..
  · rw [Function.update_of_ne hb]

theorem deref_map {heap : List (Node V)} {outs : List (Nat × Int × V)}
    (h : ∀ c ∈ outs, ∃ next, heap[c.1]? = some ⟨c.2.1, c.2.2, next⟩) :
    deref heap (outs.map Prod.fst) = some (outs.map fun c => c.2.2) := by
  induction outs with
  | nil => rfl
  | cons c outs ih =>
    obtain ⟨⟨next, hc⟩, houts⟩ := List.forall_mem_cons.mp h
    have hrest := ih houts
    rw [deref] at hrest ⊢
    simp [hc, hrest]

theorem Matches.returns {t : LockFreeHashTable V bucketCount} {chains : Fin bucketCount → List (Nat × Int × V)}
    (hchain : ∀ b, IsChain t.heap (t.buckets b) (chains b)) {pc : CallPc V}
    {y : Option (AtomicPc (Call V) (Reply V))} (h : Matches chains (some pc) y) {r : Reply V}
    (hr : Returns t pc r) : y = some (.done r) := by
  cases h with
  | inserting pc => cases hr
  | inserted =>
    cases hr
    rfl
  | load key => cases hr
  | @loop key b outs l houts hl =>
    have hderef := deref_map fun c hc => (hchain b).node_of_mem (houts c hc)
    generalize hcur : l.head?.map Prod.fst = cur at hr
    cases hr with
    | found h =>
      have hnil : l = [] := List.head?_eq_none_iff.mp (Option.map_eq_none_iff.mp hcur)
      rw [hderef] at h
      cases h
      rw [hnil]
      simp [valuesOf]
  | next key outs houts hl => cases hr

variable [NeZero bucketCount]

structure History (t : LockFreeHashTable V bucketCount) (log : List (Int × V))
    (xs : ι → Option (CallPc V)) (ys : ι → Option (AtomicPc (Call V) (Reply V)))
    (chains : Fin bucketCount → List (Nat × Int × V)) : Prop where
  inv : TableInv t chains fun i => (xs i).bind CallPc.insertPc
  log_eq : ∀ b, (chains b).map Prod.snd = log.filter fun e => hash bucketCount e.1 = b
  matches_at : ∀ i, Matches chains (xs i) (ys i)

def Follows (c : Threads ι (LockFreeHashTable V bucketCount) (Option (CallPc V)))
    (a : Threads ι (List (Int × V)) (Option (AtomicPc (Call V) (Reply V)))) : Prop :=
  ∃ chains, History c.shared a.shared c.locals a.locals chains

theorem History.valuesOf_chain {t : LockFreeHashTable V bucketCount} {log : List (Int × V)}
    {xs : ι → Option (CallPc V)} {ys : ι → Option (AtomicPc (Call V) (Reply V))}
    {chains : Fin bucketCount → List (Nat × Int × V)} (h : History t log xs ys chains) (key : Int) :
    valuesOf ((chains (hash bucketCount key)).map Prod.snd) key = valuesOf log key := by
  rw [h.log_eq, valuesOf, valuesOf, List.filter_filter]
  congr 1
  apply List.filter_congr
  intro e _
  by_cases hk : e.1 = key
  · simp [hk]
  · simp [hk]

section Simulation
variable {t t' : LockFreeHashTable V bucketCount} {log : List (Int × V)} {xs : ι → Option (CallPc V)}
  {ys : ι → Option (AtomicPc (Call V) (Reply V))} {chains : Fin bucketCount → List (Nat × Int × V)} {i : ι}

variable [DecidableEq ι]

theorem History.local (h : History t log xs ys chains) {x : Option (CallPc V)}
    {y : Option (AtomicPc (Call V) (Reply V))}
    (hinv : TableInv t' chains (Function.update (fun j => (xs j).bind CallPc.insertPc) i (x.bind CallPc.insertPc)))
    (hxy : Matches chains x y) :
    History t' log (Function.update xs i x) (Function.update ys i y) chains where
  inv := by
    have heq : (fun j => (Function.update xs i x j).bind CallPc.insertPc) =
        Function.update (fun j => (xs j).bind CallPc.insertPc) i (x.bind CallPc.insertPc) :=
      Function.comp_update (fun x => Option.bind x CallPc.insertPc) ..
    rwa [heq]
  log_eq := h.log_eq
  matches_at := Matches.update h.matches_at (fun _ => List.suffix_rfl) i hxy

theorem History.read (h : History t log xs ys chains) {x : Option (CallPc V)}
    {y : Option (AtomicPc (Call V) (Reply V))} (hi : (xs i).bind CallPc.insertPc = none)
    (hx : x.bind CallPc.insertPc = none) (hxy : Matches chains x y) :
    History t log (Function.update xs i x) (Function.update ys i y) chains := by
  refine h.local ?_ hxy
  rw [hx, ← hi, Function.update_eq_self]
  exact h.inv

theorem History.link (h : History t log xs ys chains) {pc : InsertPc V} (hi : xs i = some (.inserting pc))
    (hs : InsertStep t pc t' none) :
    ∃ chains', History t' (pc.entry :: log) (Function.update xs i (some .inserted))
      (Function.update ys i (some (.done .inserted))) chains' ∧ ∀ b, chains b <:+ chains' b := by
  have hpc : (xs i).bind CallPc.insertPc = some pc := by rw [hi]; rfl
  obtain ⟨p, -, hinv⟩ := h.inv.step_none hpc hs
  have hsuffix := suffix_update_cons chains (hash bucketCount pc.entry.1) (p, pc.entry)
  refine ⟨_, ⟨?_, ?_, Matches.update h.matches_at hsuffix i .inserted⟩, hsuffix⟩
  · have heq : (fun j => (Function.update xs i (some CallPc.inserted) j).bind CallPc.insertPc) =
        Function.update (fun j => (xs j).bind CallPc.insertPc) i none :=
      Function.comp_update (fun x => Option.bind x CallPc.insertPc) ..
    rw [heq]
    exact hinv
  · intro b
    by_cases hb : b = hash bucketCount pc.entry.1
    · subst hb
      simp [h.log_eq]
    · rw [Function.update_of_ne hb, h.log_eq, List.filter_cons_of_neg]
      simpa using Ne.symm hb

theorem History.step (h : History t log xs ys chains) {pc pc' : CallPc V} (hi : xs i = some pc)
    (hs : CallStep t pc t' pc') :
    ∃ log' y' chains', History t' log' (Function.update xs i (some pc')) (Function.update ys i y') chains' ∧
      (∀ b, chains b <:+ chains' b) ∧
      (y' = ys i ∧ log' = log ∨ ∃ op, ys i = some (.pending op) ∧ y' = some (.done ((logObject V).apply op log).1) ∧
        log' = ((logObject V).apply op log).2) := by
  have hai := h.matches_at i
  rw [hi] at hai
  generalize hy : ys i = y at hai
  cases hs with
  | @insert _ pc pc' hs =>
    cases hai
    have hpc : (xs i).bind CallPc.insertPc = some pc := by rw [hi]; rfl
    refine ⟨log, _, chains, h.local (h.inv.step_some hpc hs) ?_, fun _ => List.suffix_rfl, .inl ⟨rfl, rfl⟩⟩
    rw [← hs.entry_eq]
    exact .inserting pc'
  | @insertReturns _ pc hs =>
    cases hai
    obtain ⟨chains', hlink, hsuffix⟩ := h.link hi hs
    exact ⟨_, _, chains', hlink, hsuffix, .inr ⟨.insert pc.entry.1 pc.entry.2, rfl, rfl, rfl⟩⟩
  | load key =>
    have hread : (xs i).bind CallPc.insertPc = none := by rw [hi]; rfl
    cases hai
    have hloop := Matches.loop key [] (fun _ hc => absurd hc List.not_mem_nil)
      (List.suffix_refl (chains (hash bucketCount key)))
    rw [← (h.inv.chain _).start_eq, h.valuesOf_chain] at hloop
    exact ⟨log, _, chains, h.read hread rfl hloop, fun _ => List.suffix_rfl, .inr ⟨.lookup key, rfl, rfl, rfl⟩⟩
  | compare hn =>
    have hread : (xs i).bind CallPc.insertPc = none := by rw [hi]; rfl
    exact ⟨log, _, chains, h.read hread rfl (hai.compare h.inv.chain hn), fun _ => List.suffix_rfl, .inl ⟨rfl, rfl⟩⟩
  | next hn =>
    have hread : (xs i).bind CallPc.insertPc = none := by rw [hi]; rfl
    exact ⟨log, _, chains, h.read hread rfl (hai.advance h.inv.chain hn), fun _ => List.suffix_rfl, .inl ⟨rfl, rfl⟩⟩

theorem History.call (h : History t log xs ys chains) (hi : xs i = none) (op : Call V) :
    ys i = none ∧
      History t log (Function.update xs i (some op.enter)) (Function.update ys i (some (.pending op))) chains := by
  have hai := h.matches_at i
  rw [hi] at hai
  generalize hy : ys i = y at hai
  cases hai
  refine ⟨rfl, ?_⟩
  cases op with
  | insert k v => exact h.local (h.inv.begin k v) (.inserting (.new k v))
  | lookup key =>
    refine h.read ?_ rfl (.load key)
    rw [hi]
    rfl

theorem History.ret (h : History t log xs ys chains) {pc : CallPc V} (hi : xs i = some pc) {r : Reply V}
    (hr : Returns t pc r) :
    ys i = some (.done r) ∧ History t log (Function.update xs i none) (Function.update ys i none) chains := by
  have hai := h.matches_at i
  rw [hi] at hai
  refine ⟨hai.returns h.inv.chain hr, h.read ?_ rfl .idle⟩
  rw [hi]
  cases hr with
  | inserted => rfl
  | found => rfl

end Simulation

theorem simulates_logObject [DecidableEq ι] :
    Simulates (table V bucketCount) (logObject V) (Follows (ι := ι)) where
  start := ⟨fun _ => [], tableInv_empty, fun _ => rfl, fun _ => .idle⟩
  call := by
    rintro c a i op ⟨chains, h⟩ hi
    obtain ⟨hai, hcall⟩ := h.call hi op
    exact ⟨hai, chains, hcall⟩
  step := by
    rintro c a _ ⟨chains, h⟩ ⟨i, hs⟩
    generalize hx : c.locals i = x at hs
    cases hs with
    | step hs =>
      obtain ⟨log', y', chains', hstep, -, ⟨rfl, rfl⟩ | ⟨op, hop, rfl, rfl⟩⟩ := h.step hx hs
      · rw [Function.update_eq_self] at hstep
        exact ⟨a, .refl, chains', hstep⟩
      · exact ⟨_, (logObject V).run_apply hop, chains', hstep⟩
  ret := by
    rintro c a i pc r ⟨chains, h⟩ hi hr
    obtain ⟨hai, hret⟩ := h.ret hi hr
    exact ⟨hai, chains, hret⟩

/-! ## Calls that run alone -/

/-- The weak compare-exchange of `Insert` fails although the bucket is the expected one. -/
def SpuriousFailure (t : LockFreeHashTable V bucketCount) (pc : CallPc V) (_ : LockFreeHashTable V bucketCount)
    (pc' : CallPc V) : Prop :=
  ∃ key value node head, pc = .inserting (.exchange key value node head) ∧ t.buckets (hash bucketCount key) = head ∧
    pc' = .inserting (.store key value node head)

abbrev CallFinishes (t : LockFreeHashTable V bucketCount) (pc : CallPc V) : Prop :=
  (table V bucketCount).Finishes SpuriousFailure t pc

theorem finishes_inserted (t : LockFreeHashTable V bucketCount) : CallFinishes t .inserted := by
  refine .intro (.inl ⟨_, .inserted t⟩) fun t' pc' hs _ => ?_
  cases hs

theorem finishes_of_step {t t' : LockFreeHashTable V bucketCount} {pc pc' : CallPc V} (hs : CallStep t pc t' pc')
    (hweak : ¬ SpuriousFailure t pc t' pc')
    (hnext : ∀ t₁ pc₁, CallStep t pc t₁ pc₁ → ¬ SpuriousFailure t pc t₁ pc₁ → CallFinishes t₁ pc₁) : CallFinishes t pc :=
  .intro (.inr ⟨t', pc', hs, hweak⟩) hnext

theorem not_spurious {t t' : LockFreeHashTable V bucketCount} {pc pc' : CallPc V}
    (h : ∀ key value node head, pc ≠ .inserting (.exchange key value node head)) : ¬ SpuriousFailure t pc t' pc' := by
  rintro ⟨key, value, node, head, hpc, -⟩
  exact h key value node head hpc

theorem finishes_exchange_current (t : LockFreeHashTable V bucketCount) (k : Int) (v : V) (p : Nat) :
    CallFinishes t (.inserting (.exchange k v p (t.buckets (hash bucketCount k)))) := by
  refine finishes_of_step (.insertReturns (.exchange k v p _ rfl)) ?_ fun t₁ pc₁ hs hweak => ?_
  · rintro ⟨key, value, node, head, -, -, hpc⟩
    cases hpc
  · cases hs with
    | insert hs =>
      cases hs with
      | exchangeFail => exact absurd ⟨k, v, p, _, rfl, rfl, rfl⟩ hweak
    | insertReturns hs => exact finishes_inserted _

theorem finishes_store_current (t : LockFreeHashTable V bucketCount) (k : Int) (v : V) (p : Nat) :
    CallFinishes t (.inserting (.store k v p (t.buckets (hash bucketCount k)))) := by
  refine finishes_of_step (.insert (.store k v p _)) (not_spurious nofun) fun t₁ pc₁ hs _ => ?_
  cases hs with
  | insert hs =>
    cases hs with
    | store => exact finishes_exchange_current (t.setNext p (t.buckets (hash bucketCount k))) k v p
  | insertReturns hs => cases hs

theorem finishes_exchange (t : LockFreeHashTable V bucketCount) (k : Int) (v : V) (p : Nat) (head : Option Nat) :
    CallFinishes t (.inserting (.exchange k v p head)) := by
  by_cases hhead : t.buckets (hash bucketCount k) = head
  · subst hhead
    exact finishes_exchange_current t k v p
  -- another thread has changed the bucket, which is loaded anew
  · refine finishes_of_step (.insert (.exchangeFail k v p head)) ?_ fun t₁ pc₁ hs _ => ?_
    · rintro ⟨key, value, node, head', hpc, hbucket, -⟩
      cases hpc
      exact hhead hbucket
    · cases hs with
      | insert hs =>
        cases hs with
        | exchangeFail => exact finishes_store_current t k v p
      | insertReturns hs =>
        cases hs with
        | exchange _ _ _ _ hbucket => exact absurd hbucket hhead

theorem finishes_insert (t : LockFreeHashTable V bucketCount) (pc : InsertPc V) : CallFinishes t (.inserting pc) := by
  have hload (t : LockFreeHashTable V bucketCount) (k : Int) (v : V) (p : Nat) :
      CallFinishes t (.inserting (.load k v p)) := by
    refine finishes_of_step (.insert (.load k v p)) (not_spurious nofun) fun t₁ pc₁ hs _ => ?_
    cases hs with
    | insert hs =>
      cases hs with
      | load => exact finishes_store_current t k v p
    | insertReturns hs => cases hs
  cases pc with
  | new k v =>
    refine finishes_of_step (.insert (.new k v)) (not_spurious nofun) fun t₁ pc₁ hs _ => ?_
    cases hs with
    | insert hs =>
      cases hs with
      | new => exact hload _ k v _
    | insertReturns hs => cases hs
  | load k v p => exact hload t k v p
  | store k v p head =>
    refine finishes_of_step (.insert (.store k v p head)) (not_spurious nofun) fun t₁ pc₁ hs _ => ?_
    cases hs with
    | insert hs =>
      cases hs with
      | store => exact finishes_exchange _ k v p head
    | insertReturns hs => cases hs
  | exchange k v p head => exact finishes_exchange t k v p head

theorem finishes_next {t : LockFreeHashTable V bucketCount} {key : Int} {cur : Nat} {out : List Nat} {node : Node V}
    (hnode : t.heap[cur]? = some node) (h : CallFinishes t (.loop key node.next out)) :
    CallFinishes t (.next key cur out) := by
  refine finishes_of_step (.next hnode) (not_spurious nofun) fun t₁ pc₁ hs _ => ?_
  cases hs with
  | next hnode' =>
    cases hnode.symm.trans hnode'
    exact h

theorem finishes_loop {t : LockFreeHashTable V bucketCount} {chains : Fin bucketCount → List (Nat × Int × V)}
    (hchain : ∀ b, IsChain t.heap (t.buckets b) (chains b)) {b : Fin bucketCount} (key : Int) (outs : List (Nat × Int × V))
    {l : List (Nat × Int × V)} (houts : ∀ c ∈ outs, c ∈ chains b) (hl : l <:+ chains b) :
    CallFinishes t (.loop key (l.head?.map Prod.fst) (outs.map Prod.fst)) := by
  induction l generalizing outs with
  | nil =>
    refine .intro (.inl ⟨_, .found (deref_map fun c hc => (hchain b).node_of_mem (houts c hc))⟩) fun t' pc' hs _ => ?_
    cases hs
  | cons c l ih =>
    obtain ⟨-, next, hnode, hrest⟩ := (hchain b).of_suffix hl
    have hlater (outs : List (Nat × Int × V)) (houts : ∀ c ∈ outs, c ∈ chains b) :
        CallFinishes t (.next key c.1 (outs.map Prod.fst)) := by
      refine finishes_next hnode ?_
      rw [hrest.start_eq]
      exact ih outs houts ((List.suffix_cons ..).trans hl)
    refine finishes_of_step (.compare hnode) (not_spurious nofun) fun t₁ pc₁ hs _ => ?_
    cases hs with
    | compare hnode' =>
      cases hnode.symm.trans hnode'
      by_cases hk : c.2.1 = key
      · have hc : c ∈ chains b := hl.subset (List.mem_cons_self ..)
        have htaken := hlater (outs ++ [c]) (List.forall_mem_append.mpr ⟨houts, by simpa using hc⟩)
        simpa [hk] using htaken
      · simpa [hk] using hlater outs houts

theorem Follows.finishes [DecidableEq ι] {c : Threads ι (LockFreeHashTable V bucketCount) (Option (CallPc V))}
    {a : Threads ι (List (Int × V)) (Option (AtomicPc (Call V) (Reply V)))} (h : Follows c a) {i : ι} {pc : CallPc V}
    (hi : c.locals i = some pc) : CallFinishes c.shared pc := by
  obtain ⟨chains, h⟩ := h
  have hai := h.matches_at i
  rw [hi] at hai
  cases pc with
  | inserting pc => exact finishes_insert c.shared pc
  | inserted => exact finishes_inserted c.shared
  | load key =>
    refine finishes_of_step (.load _ key) (not_spurious nofun) fun t₁ pc₁ hs _ => ?_
    cases hs with
    | load =>
      rw [(h.inv.chain _).start_eq]
      exact finishes_loop h.inv.chain key [] (fun _ hc => absurd hc List.not_mem_nil) List.suffix_rfl
  | loop key cur out =>
    obtain ⟨b, outs, l, houts, hl, rfl, rfl, -⟩ := hai.of_loop
    exact finishes_loop h.inv.chain key outs houts hl
  | next key cur out =>
    obtain ⟨b, outs, l, c, houts, hl, rfl, rfl, -⟩ := hai.of_next
    obtain ⟨-, next, hnode, hrest⟩ := (h.inv.chain b).of_suffix hl
    refine finishes_next hnode ?_
    rw [hrest.start_eq]
    exact finishes_loop h.inv.chain key outs houts ((List.suffix_cons ..).trans hl)

/-- On a sequentially consistent memory, under any interleaving of calls of `Insert` and
`Lookup`, the calls and their results are those of a log in which every operation is one
step: a `Lookup` finds what had been linked when it loaded its bucket, the last entry
first, whatever is inserted while it goes through the list. No call waits for another:
from wherever it is, a call that runs alone is never stuck, and every one of its runs
comes to the return unless compare-exchanges fail for nothing without end. -/
theorem table_linearizable [DecidableEq ι] :
    Linearizable ι (table V bucketCount) (logObject V) ∧
    ∀ (hist : List (Event ι (Call V) (Reply V))) (c : Threads ι (LockFreeHashTable V bucketCount) (Option (CallPc V))),
      (table V bucketCount).Reaches hist c →
        ∀ i pc, c.locals i = some pc → (table V bucketCount).ReturnsAlone SpuriousFailure c.shared pc := by
  refine ⟨simulates_logObject.linearizable, fun hist c hc i pc hi => ?_⟩
  -- a step of the call leads to a state of the same kind
  refine Implementation.returnsAlone_of_finishes (I := fun t pc => ∃ c : Threads ι _ _, (table V bucketCount).Reaches hist c ∧
    c.shared = t ∧ c.locals i = some pc) ?_ ?_ ⟨c, hc, rfl, hi⟩
  · rintro t pc t' pc' ⟨c, hc, rfl, hi⟩ hs
    exact ⟨_, hc.step (.of_local hi (.step hs)), rfl, Function.update_self ..⟩
  · rintro t pc ⟨c, hc, rfl, hi⟩
    obtain ⟨a, -, hrel⟩ := simulates_logObject.reaches hc
    exact hrel.finishes hi

/-- The history of a `Lookup` that loads the bucket before another thread links its node,
and returns after that. -/
def overlap : List (Event (Fin 2) (Call Nat) (Reply Nat)) :=
  [.call 0 (.insert 5 10), .ret 0 .inserted, .call 1 (.lookup 5), .call 0 (.insert 5 20), .ret 0 .inserted,
    .ret 1 (.found [10])]

theorem table_linearizable_overlap :
    ∃ c c' : Threads (Fin 2) (LockFreeHashTable Nat 1) (Option (CallPc Nat)),
      ((table Nat 1).Reaches overlap.dropLast c' ∧ ∃ pc, c'.locals 1 = some pc ∧
        (table Nat 1).ReturnsAlone SpuriousFailure c'.shared pc) ∧
      (table Nat 1).Reaches overlap c ∧ ∃ a, (logObject Nat).atomic.Reaches overlap a := by
  have h0 : (table Nat 1).Reaches [] ((table Nat 1).start (Fin 2)) := .start
  have h1 := h0.call 0 (.insert 5 10) rfl
  have h2 := h1.step (.of_local (i := 0) rfl (.step (.insert (.new 5 10))))
  have h3 := h2.step (.of_local (i := 0) rfl (.step (.insert (.load 5 10 0))))
  have h4 := h3.step (.of_local (i := 0) rfl (.step (.insert (.store 5 10 0 none))))
  have h5 := h4.step (.of_local (i := 0) rfl (.step (.insertReturns (.exchange 5 10 0 none rfl))))
  have h6 := h5.ret 0 rfl (.inserted _)
  have h7 := h6.call 1 (.lookup 5) rfl
  have h8 := h7.step (.of_local (i := 1) rfl (.step (.load _ 5)))
  have h9 := h8.call 0 (.insert 5 20) rfl
  have h10 := h9.step (.of_local (i := 0) rfl (.step (.insert (.new 5 20))))
  have h11 := h10.step (.of_local (i := 0) rfl (.step (.insert (.load 5 20 1))))
  have h12 := h11.step (.of_local (i := 0) rfl (.step (.insert (.store 5 20 1 (some 0)))))
  have h13 := h12.step (.of_local (i := 0) rfl (.step (.insertReturns (.exchange 5 20 1 (some 0) rfl))))
  have h14 := h13.ret 0 rfl (.inserted _)
  have h15 := h14.step (.of_local (i := 1) rfl (.step (.compare rfl)))
  have h16 := h15.step (.of_local (i := 1) rfl (.step (.next rfl)))
  have h17 := h16.ret 1 (r := .found [10]) rfl (.found rfl)
  exact ⟨_, _, ⟨h14, _, rfl, table_linearizable.2 _ _ h14 1 _ rfl⟩, h17, table_linearizable.1 _ _ h17⟩

end LockFreeHashTable

end MyDB.Concurrency

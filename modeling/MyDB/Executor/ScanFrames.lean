import MyDB.Executor.ParallelSeqScan
import MyDB.Storage.PinBalance

/-! A read of a table without a frame for each page it has in hand. `FetchPage`
returns null then, `Scan` and `GetPageIds` stop, `ScanPage` skips its page, and no
error is reported. -/

namespace MyDB.Executor.ParallelSeqScan
open MyDB.Lib MyDB.Lib.ClaimLoop MyDB.Storage MyDB.Storage.HeapFile
variable {frames n : Nat} {m₀ : PageMap HeapPage} {hf : HeapFile} {ids : List PageId} {s : BufferPool HeapPage frames}

/-! ## The steps of a worker -/

theorem finishes_of_scanSlotsM {pid : PageId} {page : Fin frames} {tupleSize total left slot : Nat} {out : List Tuple}
    {r : List Tuple × Bool} {s₁ s' : BufferPool HeapPage frames} {unpinned : Bool} (htotal : slot + left = total)
    (hslots : scanSlotsM BufferPool.store (fun out _ t => pure (out ++ [t], true)) page tupleSize pid left slot out s =
      .ok r s₁)
    (hunpin : BufferPool.store.unpinPage pid false s₁ = .ok unpinned s') :
    (scanTask frames tupleSize).Finishes s out (.slot pid page total slot) s' r.1 := by
  induction left generalizing slot out with
  | zero =>
    cases hslots
    exact .last (.unpin out htotal.ge hunpin)
  | succ left ih =>
    obtain ⟨data, s₂, hread, hrest⟩ := run_bind_eq_ok.mp hslots
    cases hread
    obtain ⟨t, htuple, hnext⟩ := ofExcept_bind_eq_ok.mp hrest
    exact .more (.slot out (by omega) rfl htuple) (ih (by omega) hnext)

theorem finishes_of_scanPage {pid : PageId} {out out' : List Tuple} {s' : BufferPool HeapPage frames}
    (hrun : scanPage BufferPool.store hf pid (fun out _ t => pure (out ++ [t])) out s = .ok out' s') :
    (scanTask frames hf.schema.getTupleSize).Finishes s out (.fetch pid) s' out' := by
  obtain ⟨page, s₁, hfetch, hrest⟩ := run_bind_eq_ok.mp hrun
  cases page with
  | none =>
    cases hrest
    exact .last (.noFrame out hfetch)
  | some page =>
    obtain ⟨data, s₂, hread, hrest₁⟩ := run_bind_eq_ok.mp hrest
    obtain ⟨r, s₃, hslots, hrest₂⟩ := run_bind_eq_ok.mp hrest₁
    obtain ⟨unpinned, s₄, hunpin, hreturn⟩ := run_bind_eq_ok.mp hrest₂
    cases hreturn
    exact .more (.fetch out hfetch) (.more (.count out hread) (finishes_of_scanSlotsM (Nat.zero_add _) hslots hunpin))

/-! ## The pages that a read comes to -/

instance (m : PageMap HeapPage) (p : PageId) : Decidable (Fetchable m p) := inferInstanceAs (Decidable (_ ∨ _))

def readable (m : PageMap HeapPage) (ids : List PageId) : List PageId := ids.takeWhile fun p => Fetchable m p

def blocked (m : PageMap HeapPage) (ids : List PageId) : List PageId := ids.dropWhile fun p => Fetchable m p

theorem readable_append_blocked (m : PageMap HeapPage) (ids : List PageId) : readable m ids ++ blocked m ids = ids :=
  List.takeWhile_append_dropWhile

theorem fetchable_of_mem {p : PageId} (h : p ∈ readable m₀ ids) : Fetchable m₀ p := by
  have hp := List.mem_takeWhile_imp h
  simpa using hp

theorem not_fetchable_head : ∀ p ∈ (blocked m₀ ids).head?, ¬ Fetchable m₀ p := by
  intro p hp
  have hhead := List.head?_dropWhile_not (fun p => decide (Fetchable m₀ p)) ids
  rw [show ids.dropWhile (fun p => decide (Fetchable m₀ p)) = blocked m₀ ids from rfl, Option.mem_def.mp hp] at hhead
  simpa using hhead

theorem readable_of_free (hfree : m₀.free ≠ 0) : readable m₀ ids = ids := by
  rw [readable, List.takeWhile_eq_self_iff]
  exact fun p _ => decide_eq_true (Or.inr hfree)

def visible (m : PageMap HeapPage) (ids : List PageId) : List PageId := readable m ids ++ (blocked m ids).head?.toList

theorem visible_sublist (m : PageMap HeapPage) (ids : List PageId) : (visible m ids).Sublist ids := by
  conv_rhs => rw [← readable_append_blocked m ids]
  refine List.Sublist.append_left ?_ _
  cases blocked m ids with
  | nil => exact List.nil_sublist _
  | cons p rest => exact List.singleton_sublist.mpr List.mem_cons_self

theorem visible_ne_nil (h : ids ≠ []) : visible m₀ ids ≠ [] := by
  rw [← readable_append_blocked m₀ ids] at h
  rw [visible]
  cases hb : blocked m₀ ids with
  | nil =>
    rw [hb, List.append_nil] at h
    rwa [List.head?_nil, Option.toList_none, List.append_nil]
  | cons p rest => exact List.append_ne_nil_of_right_ne_nil _ (List.cons_ne_nil p [])

theorem blocked_of_visible {p : PageId} (h : p ∈ visible m₀ ids) (hp : ¬ Fetchable m₀ p) : p ∈ blocked m₀ ids := by
  rcases List.mem_append.mp h with hmem | hmem
  · exact absurd (fetchable_of_mem hmem) hp
  · exact List.mem_of_mem_head? (Option.mem_toList.mp hmem)

theorem visible_of_free (hfree : m₀.free ≠ 0) : visible m₀ ids = ids ∧ blocked m₀ ids = [] := by
  have happ := readable_append_blocked m₀ ids
  rw [readable_of_free hfree] at happ
  have hnil : blocked m₀ ids = [] := by simpa using happ
  refine ⟨?_, hnil⟩
  rw [visible, readable_of_free hfree, hnil, List.head?_nil, Option.toList_none, List.append_nil]

theorem scan_readable (hs : Holds s m₀) (h : Represents m₀ hf ids) :
    ∃ s', scan BufferPool.store hf pushBack [] s =
      .ok (chainRows m₀ hf.schema.getTupleSize (readable m₀ ids)) s' := by
  have hsub : readable m₀ ids ⊆ ids := (List.takeWhile_sublist _).subset
  have hchain : PageChain m₀ hf.firstPageId (readable m₀ ids ++ blocked m₀ ids) := by
    rw [readable_append_blocked]
    exact h.chain
  have hlen : (readable m₀ ids).length < m₀.numPages + 1 :=
    Nat.lt_succ_of_le ((List.takeWhile_sublist _).length_le.trans h.chain.length_le)
  have hrun := scanLoop_chain pushBack hs.wf hchain (fun p hp => h.fits p (hsub hp)) (fun p hp => fetchable_of_mem hp)
    not_fetchable_head hlen []
  rw [visit_pushBack, map_snd_chainEntries] at hrun
  obtain ⟨_, s', hrun', rfl, -⟩ := (scan_refines hf pushBack []).ok (live_nil.mpr hs) hrun
  exact ⟨s', hrun'⟩

theorem getPageIds_visible (hs : Holds s m₀) (h : Represents m₀ hf ids) :
    ∃ s', getPageIds BufferPool.store hf s = .ok (visible m₀ ids) s' ∧ Holds s' m₀ := by
  have hchain : PageChain m₀ hf.firstPageId (readable m₀ ids ++ blocked m₀ ids) := by
    rw [readable_append_blocked]
    exact h.chain
  have hlen : (readable m₀ ids).length < m₀.numPages + 1 :=
    Nat.lt_succ_of_le ((List.takeWhile_sublist _).length_le.trans h.chain.length_le)
  have hrun := getPageIdsLoop_chain hs.wf hchain (fun p hp => fetchable_of_mem hp) not_fetchable_head hlen []
  obtain ⟨_, s', hrun', rfl, hlive⟩ := (getPageIds_refines hf).ok (live_nil.mpr hs) hrun
  exact ⟨s', hrun', live_nil.mp hlive⟩

/-! ## Enough frames -/

/-- A read either gives all the tuples or reports an error: `Scan`, and the workers of
`ParallelSeqScan` under every schedule. -/
def Delivers (s : BufferPool HeapPage frames) (hf : HeapFile) (nThreads : Nat) (stored : List Tuple) : Prop :=
  (∀ out s', scan BufferPool.store hf pushBack [] s = .ok out s' → out.Perm stored) ∧
  ∀ ids s', getPageIds BufferPool.store hf s = .ok ids s' →
    ∀ c : Threads (Fin (min nThreads ids.length)) (Shared (BufferPool HeapPage frames)) (Worker (List Tuple) (ScanPc frames)),
      Threads.Run (Step (scanTask frames hf.schema.getTupleSize) ids) (start s' []) c →
      (∀ i, (c.locals i).pc = .done) → (merged c).Perm stored

def unpinnedPages (m : PageMap HeapPage) (ids : List PageId) : List PageId := ids.filter fun p => m.pins p = 0

/-- There are tuples only where frames are sure to be found. -/
def Frames (m : PageMap HeapPage) (ids : List PageId) (nThreads : Nat) : Prop :=
  if m.free = 0 then ∀ p ∈ blocked m ids, (m.contents p).numTuples = 0
  else min nThreads (unpinnedPages m ids).length ≤ m.free ∨ ∀ p ∈ unpinnedPages m ids, (m.contents p).numTuples = 0

theorem pageRows_eq_nil {tupleSize : Nat} {d : HeapPage} (h : d.numTuples = 0) : pageRows tupleSize d = [] := by
  rw [pageRows, h]
  rfl

theorem chainRows_eq_nil {tupleSize : Nat} (h : ∀ p ∈ ids, (m₀.contents p).numTuples = 0) :
    chainRows m₀ tupleSize ids = [] := List.flatMap_eq_nil_iff.mpr fun p hp => pageRows_eq_nil (h p hp)

theorem frameOf_eq_one {x : Option (PageId × Fin frames)} (h : frameOf m₀ x = 1) :
    ∃ y, x = some y ∧ m₀.pins y.1 = 0 := by
  cases x with
  | none => cases h
  | some y =>
    refine ⟨y, rfl, ?_⟩
    by_contra hne
    rw [frameOf, if_neg hne] at h
    cases h

theorem ScanInv.lt_unpinned {ι : Type} [Fintype ι] [DecidableEq ι] {lost : Multiset Tuple → Prop} {next : Nat}
    {pcs : ι → Option (ScanPc frames)} {m : Multiset Tuple} (h : ScanInv m₀ lost ids next s pcs m) (hnodup : ids.Nodup)
    {i : ι} {pid : PageId} (hi : pcs i = some (.fetch pid)) (hpins : m₀.pins pid = 0)
    (hall : ∑ j, frameOf m₀ (heldPages pcs j) = m₀.free) : m₀.free < (unpinnedPages m₀ ids).length := by
  have hnone : heldPages pcs i = none := heldPages_fetch hi
  have hheld {j : ι} {y : PageId × Fin frames} (hj : heldPages pcs j = some y) : y.1 ∈ ids ∧ y.1 ≠ pid := by
    obtain ⟨q, hq, hy⟩ := Option.bind_eq_some_iff.mp hj
    refine ⟨held_pid hy ▸ List.mem_of_mem_take (h.sound j q hq).2, fun e => ?_⟩
    obtain rfl := h.distinct j i q _ hq hi ((held_pid hy).symm.trans e)
    rw [hnone] at hj
    cases hj
  let holders : Finset ι := Finset.univ.filter fun j => frameOf m₀ (heldPages pcs j) = 1
  have hcard : holders.card = m₀.free := by
    rw [← hall, Finset.card_filter]
    refine Finset.sum_congr rfl fun j _ => ?_
    have hle : frameOf m₀ (heldPages pcs j) ≤ 1 := frameOf_le _
    split_ifs with hone
    · exact hone.symm
    · omega
  have hmaps : Set.MapsTo (fun j => ((heldPages pcs j).map Prod.fst).getD 0) holders
      ((unpinnedPages m₀ ids).toFinset.erase pid : Finset PageId) := by
    intro j hj
    obtain ⟨y, hy, hzero⟩ := frameOf_eq_one (Finset.mem_filter.mp hj).2
    have hmem := hheld hy
    simp only [hy, Option.map_some, Option.getD_some, Finset.coe_erase, List.coe_toFinset]
    exact ⟨List.mem_filter.mpr ⟨hmem.1, decide_eq_true hzero⟩, hmem.2⟩
  have hinj : Set.InjOn (fun j => ((heldPages pcs j).map Prod.fst).getD 0) holders := by
    intro j hj k hk e
    obtain ⟨y, hy, -⟩ := frameOf_eq_one (Finset.mem_filter.mp hj).2
    obtain ⟨z, hz, -⟩ := frameOf_eq_one (Finset.mem_filter.mp hk).2
    simp only [hy, hz, Option.map_some, Option.getD_some] at e
    exact h.readers.distinct j k y z hy hz e
  have hpid : pid ∈ (unpinnedPages m₀ ids).toFinset :=
    List.mem_toFinset.mpr (List.mem_filter.mpr ⟨List.mem_of_mem_take (h.sound i _ hi).2, decide_eq_true hpins⟩)
  have hle := Finset.card_le_card_of_injOn _ hmaps hinj
  have hdistinct : (unpinnedPages m₀ ids).Nodup := hnodup.filter _
  rw [hcard, Finset.card_erase_of_mem hpid, List.toFinset_card_of_nodup hdistinct] at hle
  have hpos : 0 < (unpinnedPages m₀ ids).length := List.length_pos_of_mem (List.mem_toFinset.mp hpid)
  omega

theorem rows_visible (h : ∀ p ∈ blocked m₀ ids, (m₀.contents p).numTuples = 0) (tupleSize : Nat) :
    chainRows m₀ tupleSize (visible m₀ ids) = chainRows m₀ tupleSize ids ∧
    chainRows m₀ tupleSize (readable m₀ ids) = chainRows m₀ tupleSize ids := by
  have hsplit (xs ys : List PageId) (hys : ∀ p ∈ ys, (m₀.contents p).numTuples = 0) :
      chainRows m₀ tupleSize (xs ++ ys) = chainRows m₀ tupleSize xs := by
    rw [chainRows, List.flatMap_append]
    exact (congrArg (_ ++ ·) (chainRows_eq_nil hys)).trans (List.append_nil _)
  have hids := hsplit (readable m₀ ids) _ h
  rw [readable_append_blocked] at hids
  refine ⟨?_, hids.symm⟩
  rw [hids]
  refine hsplit _ _ fun p hp => h p ?_
  exact List.mem_of_mem_head? (Option.mem_toList.mp hp)

theorem Frames.blocked_empty {nThreads : Nat} (h : Frames m₀ ids nThreads) :
    ∀ p ∈ blocked m₀ ids, (m₀.contents p).numTuples = 0 := by
  intro p hp
  by_cases hfree : m₀.free = 0
  · rw [Frames, if_pos hfree] at h
    exact h p hp
  · rw [(visible_of_free hfree).2] at hp
    cases hp

theorem Frames.skipped_empty {nThreads : Nat} (h : Frames m₀ ids nThreads) (hnodup : ids.Nodup) (hn : n ≤ nThreads)
    {lost : Multiset Tuple → Prop} {next : Nat} {pcs : Fin n → Option (ScanPc frames)} {m : Multiset Tuple} {i : Fin n}
    {pid : PageId} (hinv : ScanInv m₀ lost (visible m₀ ids) next s pcs m) (hi : pcs i = some (.fetch pid))
    (hpins : m₀.pins pid = 0) (hall : ∑ j, frameOf m₀ (heldPages pcs j) = m₀.free) :
    (m₀.contents pid).numTuples = 0 := by
  have hpid := List.mem_of_mem_take (hinv.sound i _ hi).2
  by_cases hfree : m₀.free = 0
  · have hblocked : ¬ Fetchable m₀ pid := not_or.mpr ⟨not_not.mpr hpins, not_not.mpr hfree⟩
    exact h.blocked_empty pid (blocked_of_visible hpid hblocked)
  · rw [(visible_of_free hfree).1] at hinv hpid
    have hpages := hinv.lt_unpinned hnodup hi hpins hall
    have hworkers : ∑ j, frameOf m₀ (heldPages pcs j) < Fintype.card (Fin n) := sum_frameOf_lt (heldPages_fetch hi)
    rw [Fintype.card_fin, hall] at hworkers
    rw [Frames, if_neg hfree] at h
    exact (h.resolve_left fun hle => by omega) pid (List.mem_filter.mpr ⟨hpid, decide_eq_true hpins⟩)

theorem delivers_of_frames (hs : Holds s m₀) (h : Represents m₀ hf ids) {nThreads : Nat} (hn : 1 ≤ nThreads)
    (hframes : Frames m₀ ids nThreads) : Delivers s hf nThreads (rows m₀ hf ids) := by
  obtain ⟨hvisible, hread⟩ := rows_visible hframes.blocked_empty hf.schema.getTupleSize
  obtain ⟨s₁, hscan⟩ := scan_readable hs h
  obtain ⟨s₂, hids, hs₂⟩ := getPageIds_visible hs h
  refine ⟨fun out s' hout => ?_, fun ids' s' hids' => ?_⟩
  · cases hout.symm.trans hscan
    rw [hread]
    rfl
  · cases hids'.symm.trans hids
    intro c hrun hdone
    have hsub := visible_sublist m₀ ids
    obtain ⟨m, hacc⟩ := scan_run hs₂ (h.chain.nodup.sublist hsub) (fun p hp => h.chain.range p (hsub.subset hp))
      (fun p hp => h.fits p (hsub.subset hp)) (· = 0) rfl (fun next st pcs m i pid hinv hi hpins hall => by
        rw [hinv.missing, pageRows_eq_nil (hframes.skipped_empty h.chain.nodup (min_le_left ..) hinv hi hpins hall)]
        rfl) hrun
    have hlen : 0 < (visible m₀ ids).length :=
      List.length_pos_iff.mpr (visible_ne_nil (List.ne_nil_of_mem h.last_mem))
    have : NeZero (min nThreads (visible m₀ ids).length) := ⟨(lt_min hn hlen).ne'⟩
    have htotal := hacc.done hdone
    rw [hacc.inv.missing, zero_add, sum_map_coe, ← coe_merged] at htotal
    rw [rows, ← hvisible]
    exact Multiset.coe_eq_coe.mp htotal

/-! ## Too few frames -/

theorem length_pageRows (tupleSize : Nat) (d : HeapPage) : (pageRows tupleSize d).length = d.numTuples := by
  rw [pageRows, List.length_map, List.length_range]

theorem exists_sublist_through {α : Type} {a : α} {l : List α} (ha : a ∈ l) {k : Nat} (hk : k < l.length) :
    ∃ xs ys, (xs ++ a :: ys).Sublist l ∧ xs.length + ys.length = k := by
  obtain ⟨before, after, rfl⟩ := List.append_of_mem ha
  rw [List.length_append, List.length_cons] at hk
  refine ⟨before.take k, after.take (k - before.length), ?_, ?_⟩
  · exact (List.take_sublist _ _).append ((List.take_sublist _ _).cons_cons a)
  · rw [List.length_take, List.length_take]
    omega

section starve
variable {tupleSize : Nat}
  {c : Threads (Fin n) (Shared (BufferPool HeapPage frames)) (Worker (List Tuple) (ScanPc frames))}

theorem idle_update {ws : Fin n → Worker (List Tuple) (ScanPc frames)} (h : ∀ j, heldPages (busy ws) j = none) (i : Fin n)
    {w : Worker (List Tuple) (ScanPc frames)} (hw : w.pc.current.bind ScanPc.held = none) :
    ∀ j, heldPages (busy (Function.update ws i w)) j = none := by
  intro j
  rw [busy_update, heldPages_update, Function.update_apply]
  split_ifs
  · exact hw
  · exact h j

theorem claim_step {w : Fin n} (hw : (c.locals w).pc = .claim) {a : PageId} {rest : List PageId}
    (hrest : ids.drop c.shared.next = a :: rest) :
    Threads.Step (Step (scanTask frames tupleSize) ids) c ⟨⟨c.shared.next + 1, c.shared.state⟩,
      Function.update c.locals w ⟨(c.locals w).out, .busy (.fetch a)⟩⟩ ∧ ids.drop (c.shared.next + 1) = rest := by
  have ha : ids[c.shared.next]? = some a := by rw [← List.head?_drop, hrest, List.head?_cons]
  have hl : c.locals w = ⟨(c.locals w).out, .claim⟩ := congrArg (Worker.mk _) hw
  refine ⟨.of_local hl (.claim ha), ?_⟩
  rw [← List.tail_drop, hrest, List.tail_cons]

variable (hs : Holds s m₀) (hnodup : ids.Nodup) (hrange : ∀ p ∈ ids, 0 ≤ p ∧ p < m₀.numPages)
  (hfits : ∀ p ∈ ids, Fits tupleSize (m₀.contents p))
include hs hnodup hrange hfits

theorem claims_run {us rest : List PageId} (hsub : us.Sublist rest)
    (hc : Threads.Run (Step (scanTask frames tupleSize) ids) (start s []) c) (hrest : ids.drop c.shared.next = rest)
    {ws : List (Fin n)} (hws : ws.Nodup) (hlen : ws.length = us.length) (hclaim : ∀ w ∈ ws, (c.locals w).pc = .claim)
    (hidle : ∀ j, heldPages (busy c.locals) j = none) :
    ∃ c', Threads.Run (Step (scanTask frames tupleSize) ids) c c' ∧ (∀ j, heldPages (busy c'.locals) j = none) ∧
      (∀ w, w ∉ ws → c'.locals w = c.locals w) ∧
      List.Forall₂ (fun w u => (c'.locals w).pc = .busy (.fetch u)) ws us := by
  induction hsub generalizing c ws with
  | slnil =>
    obtain rfl := List.eq_nil_of_length_eq_zero hlen
    exact ⟨c, .refl, hidle, fun _ _ => rfl, .nil⟩
  | @cons us rest a hsub ih =>
    cases ws with
    | nil =>
      obtain rfl := List.eq_nil_of_length_eq_zero hlen.symm
      exact ⟨c, .refl, hidle, fun _ _ => rfl, .nil⟩
    | cons w ws =>
      obtain ⟨hw, hws'⟩ := List.forall_mem_cons.mp hclaim
      obtain ⟨hstep, hdrop⟩ := claim_step hw hrest
      have hc₁ := hc.tail hstep
      obtain ⟨s', out', hfin⟩ := scan_finishes hs hnodup hrange hfits _ hc₁ w _ _ (Function.update_self ..)
      have hrun : Threads.Run (Step (scanTask frames tupleSize) ids) ⟨⟨c.shared.next + 1, c.shared.state⟩, _⟩ _ :=
        hfin.run (Function.update_self w _ c.locals)
      rw [Function.update_idem] at hrun
      have hother (v : Fin n) (hv : v ≠ w) (x : Worker (List Tuple) (ScanPc frames)) :
          Function.update c.locals w x v = c.locals v := Function.update_of_ne hv _ _
      have hclaim₂ : ∀ v ∈ w :: ws, (Function.update c.locals w ⟨out', .claim⟩ v).pc = .claim := by
        refine List.forall_mem_cons.mpr ⟨by rw [Function.update_self], fun v hv => ?_⟩
        rw [hother v (ne_of_mem_of_not_mem hv (List.nodup_cons.mp hws).1)]
        exact hws' v hv
      obtain ⟨c', hrun', hidle', hsame, hfetch⟩ :=
        ih (hc₁.trans hrun) hdrop hws hlen hclaim₂ (idle_update hidle w rfl)
      refine ⟨c', (Relation.ReflTransGen.single hstep).trans (hrun.trans hrun'), hidle', fun v hv => ?_, hfetch⟩
      rw [hsame v hv]
      exact hother v (fun e => hv (e ▸ List.mem_cons_self)) _
  | @cons_cons us rest a hsub ih =>
    cases ws with
    | nil => cases hlen
    | cons w ws =>
      obtain ⟨hw, hws'⟩ := List.forall_mem_cons.mp hclaim
      obtain ⟨hnew, hnodup'⟩ := List.nodup_cons.mp hws
      obtain ⟨hstep, hdrop⟩ := claim_step hw hrest
      have hclaim₁ : ∀ v ∈ ws, (Function.update c.locals w ⟨(c.locals w).out, .busy (.fetch a)⟩ v).pc = .claim := by
        intro v hv
        rw [Function.update_of_ne (ne_of_mem_of_not_mem hv hnew)]
        exact hws' v hv
      obtain ⟨c', hrun', hidle', hsame, hfetch⟩ :=
        ih (hc.tail hstep) hdrop hnodup' (Nat.succ.inj hlen) hclaim₁ (idle_update hidle w rfl)
      refine ⟨c', (Relation.ReflTransGen.single hstep).trans hrun', hidle', fun v hv => ?_, .cons ?_ hfetch⟩
      · rw [List.mem_cons, not_or] at hv
        rw [hsame v hv.2]
        exact Function.update_of_ne hv.1 _ _
      · rw [hsame w hnew]
        exact congrArg Worker.pc (Function.update_self w _ c.locals)

theorem fetches_run (hc : Threads.Run (Step (scanTask frames tupleSize) ids) (start s []) c) {ws : List (Fin n)}
    (hws : ws.Nodup) (hfetch : ∀ w ∈ ws, ∃ u, (c.locals w).pc = .busy (.fetch u) ∧ m₀.pins u = 0)
    (hsum : ∑ j, frameOf m₀ (heldPages (busy c.locals) j) + ws.length ≤ m₀.free) :
    ∃ c', Threads.Run (Step (scanTask frames tupleSize) ids) c c' ∧
      ∑ j, frameOf m₀ (heldPages (busy c'.locals) j) = ∑ j, frameOf m₀ (heldPages (busy c.locals) j) + ws.length ∧
      ∀ w, w ∉ ws → c'.locals w = c.locals w := by
  induction ws generalizing c with
  | nil => exact ⟨c, .refl, rfl, fun _ _ => rfl⟩
  | cons w ws ih =>
    obtain ⟨⟨u, hw, hpins⟩, hrest⟩ := List.forall_mem_cons.mp hfetch
    obtain ⟨hnew, hnodup'⟩ := List.nodup_cons.mp hws
    rw [List.length_cons] at hsum
    obtain ⟨m, hacc⟩ := scan_run hs hnodup hrange hfits (fun _ => True) trivial (fun _ _ _ _ _ _ _ _ _ _ => trivial) hc
    have hl : c.locals w = ⟨(c.locals w).out, .busy (.fetch u)⟩ := congrArg (Worker.mk _) hw
    have hp : busy c.locals w = some (.fetch u) := by
      rw [busy, hw]
      rfl
    rcases hacc.inv.fetch hp hrange with ⟨page, s', hrun, -, -⟩ | ⟨s', -, -, -, hall⟩
    · have hstep : Threads.Step (Step (scanTask frames tupleSize) ids) c _ := .of_local hl (.work (.fetch _ hrun))
      have hrest₁ : ∀ v ∈ ws, ∃ u', (Function.update c.locals w
          ⟨(c.locals w).out, .ofOption (some (.count u page))⟩ v).pc = .busy (.fetch u') ∧ m₀.pins u' = 0 := by
        intro v hv
        rw [Function.update_of_ne (ne_of_mem_of_not_mem hv hnew)]
        exact hrest v hv
      have hheld : heldPages (busy (Function.update c.locals w ⟨(c.locals w).out, .ofOption (some (.count u page))⟩)) =
          Function.update (heldPages (busy c.locals)) w (some (u, page)) := by
        rw [busy_update, heldPages_update]
        rfl
      have hone : frameOf m₀ (some (u, page)) = 1 := if_pos hpins
      have hadd := Threads.sum_locals_update (frameOf m₀) (heldPages (busy c.locals)) w (some (u, page))
      rw [heldPages_fetch hp, hone, ← hheld] at hadd
      change _ + 0 = _ at hadd
      obtain ⟨c', hrun', hsum', hsame⟩ := ih (hc.tail hstep) hnodup' hrest₁ (by simp only; omega)
      refine ⟨c', .head hstep hrun', ?_, fun v hv => ?_⟩
      · rw [hsum', List.length_cons]
        simp only
        omega
      · rw [List.mem_cons, not_or] at hv
        rw [hsame v hv.2]
        exact Function.update_of_ne hv.1 _ _
    · omega

theorem skip_run (hc : Threads.Run (Step (scanTask frames tupleSize) ids) (start s []) c) {w : Fin n} {u : PageId}
    (hw : (c.locals w).pc = .busy (.fetch u)) (hpins : m₀.pins u = 0)
    (hall : ∑ j, frameOf m₀ (heldPages (busy c.locals) j) = m₀.free) :
    ∃ c', Threads.Run (Step (scanTask frames tupleSize) ids) c c' ∧ (∀ i, (c'.locals i).pc = .done) ∧
      (merged c').length + (m₀.contents u).numTuples ≤ (chainRows m₀ tupleSize ids).length := by
  obtain ⟨m, hacc⟩ := scan_run hs hnodup hrange hfits (fun _ => True) trivial (fun _ _ _ _ _ _ _ _ _ _ => trivial) hc
  have hl : c.locals w = ⟨(c.locals w).out, .busy (.fetch u)⟩ := congrArg (Worker.mk _) hw
  have hp : busy c.locals w = some (.fetch u) := by
    rw [busy, hw]
    rfl
  rcases hacc.inv.fetch hp hrange with ⟨page, s', -, -, hroom⟩ | ⟨s', hrun, hreaders, -, -⟩
  · exact absurd ⟨hpins, hall⟩ hroom
  · let gone : Multiset Tuple := (pageRows tupleSize (m₀.contents u) : List Tuple)
    have hstep : Threads.Step (Step (scanTask frames tupleSize) ids) c _ := .of_local hl (.work (.noFrame _ hrun))
    have hreaders' : Readers m₀ s' (Function.update (heldPages (busy c.locals)) w none) := by
      rw [← heldPages_fetch hp, Function.update_eq_self]
      exact hreaders
    have hinv : ScanInv m₀ (gone ≤ ·) ids c.shared.next s' (Function.update (busy c.locals) w none) (m + gone) :=
      hacc.inv.advance hp hreaders' (fun p hp => by cases hp) (Multiset.le_add_left gone m)
    have hshare : m + gone + (((c.locals w).out : Multiset Tuple) + 0) = m + (((c.locals w).out : Multiset Tuple) + gone) := by
      rw [add_zero, add_assoc, add_comm gone]
    obtain ⟨c', hrun', hdone⟩ := scan_completes hs hnodup hrange hfits (hc.tail hstep)
    have hkept : ∃ m', Accounted ids (fun pid => (pageRows tupleSize (m₀.contents pid) : Multiset Tuple))
        (fun out : List Tuple => (out : Multiset Tuple)) (ScanPc.pending m₀ tupleSize) (ScanInv m₀ (gone ≤ ·) ids) c' m' :=
      hrun'.invariant (accounted_step (scanAccounts hs.wf hnodup hrange hfits fun _ _ _ m _ _ hinv _ _ _ =>
        hinv.missing.trans (Multiset.le_add_right m _))) ⟨_, hacc.work hl hinv hshare⟩
    obtain ⟨m', hacc'⟩ := hkept
    have : Nonempty (Fin n) := ⟨w⟩
    have htotal := hacc'.done hdone
    rw [sum_map_coe, ← coe_merged] at htotal
    have hcard := congrArg Multiset.card htotal
    rw [Multiset.card_add, Multiset.coe_card, Multiset.coe_card] at hcard
    have hgone := Multiset.card_le_card hacc'.inv.missing
    rw [Multiset.coe_card, length_pageRows] at hgone
    refine ⟨c', .head hstep hrun', hdone, ?_⟩
    rw [chainRows, ← hcard, Nat.add_comm]
    exact Nat.add_le_add_right hgone _

theorem starves (hworkers : m₀.free < n) (hpages : m₀.free < (unpinnedPages m₀ ids).length) {p : PageId}
    (hp : p ∈ unpinnedPages m₀ ids) :
    ∃ c : Threads (Fin n) (Shared (BufferPool HeapPage frames)) (Worker (List Tuple) (ScanPc frames)),
      Threads.Run (Step (scanTask frames tupleSize) ids) (start s []) c ∧ (∀ i, (c.locals i).pc = .done) ∧
      (merged c).length + (m₀.contents p).numTuples ≤ (chainRows m₀ tupleSize ids).length := by
  obtain ⟨xs, ys, hsub, hlen⟩ := exists_sublist_through hp hpages
  have hzero {u : PageId} (hu : u ∈ xs ++ p :: ys) : m₀.pins u = 0 :=
    of_decide_eq_true (List.mem_filter.mp (hsub.subset hu)).2
  let ws : List (Fin n) := (List.finRange n).take (m₀.free + 1)
  have hws : ws.Nodup := (List.nodup_finRange n).sublist (List.take_sublist _ _)
  have hwslen : ws.length = (xs ++ p :: ys).length := by
    rw [List.length_take, List.length_finRange, List.length_append, List.length_cons]
    omega
  obtain ⟨c₁, hrun₁, hidle, -, hfetch⟩ := claims_run hs hnodup hrange hfits (hsub.trans List.filter_sublist) .refl rfl hws hwslen
    (fun _ _ => rfl) (fun _ => rfl)
  have hbefore := List.forall₂_take_append _ _ _ hfetch
  have hafter := List.forall₂_drop_append _ _ _ hfetch
  obtain ⟨w, ws₂, hw, hws₂, hsplit⟩ := List.forall₂_cons_right_iff.mp hafter
  have hparts : ws = ws.take xs.length ++ w :: ws₂ := by rw [← hsplit, List.take_append_drop]
  rw [hparts] at hws
  have hothers : ∀ v ∈ ws.take xs.length ++ ws₂, ∃ u, (c₁.locals v).pc = .busy (.fetch u) ∧ m₀.pins u = 0 := by
    intro v hv
    rcases List.mem_append.mp hv with hv | hv
    · obtain ⟨u, hu, hpc⟩ := exists_of_forall₂ hbefore hv
      exact ⟨u, hpc, hzero (List.mem_append_left _ hu)⟩
    · obtain ⟨u, hu, hpc⟩ := exists_of_forall₂ hws₂ hv
      exact ⟨u, hpc, hzero (List.mem_append_right _ (List.mem_cons_of_mem _ hu))⟩
  have hcount : (ws.take xs.length ++ ws₂).length = m₀.free := by
    rw [List.length_append, hbefore.length_eq, hws₂.length_eq, hlen]
  have hnone : ∑ j, frameOf m₀ (heldPages (busy c₁.locals) j) = 0 :=
    Finset.sum_eq_zero fun j _ => by
      rw [hidle j]
      rfl
  obtain ⟨hnew, hothersNodup⟩ := List.nodup_cons.mp (List.nodup_middle.mp hws)
  obtain ⟨c₂, hrun₂, hsum, hsame⟩ := fetches_run hs hnodup hrange hfits hrun₁ hothersNodup hothers
    (by rw [hnone, hcount, Nat.zero_add])
  rw [hnone, hcount, Nat.zero_add] at hsum
  obtain ⟨c, hrun, hdone, hlost⟩ := skip_run hs hnodup hrange hfits (hrun₁.trans hrun₂) ((congrArg Worker.pc (hsame w hnew)).trans hw)
    (hzero (List.mem_append_right _ List.mem_cons_self)) hsum
  exact ⟨c, hrun₁.trans (hrun₂.trans hrun), hdone, hlost⟩

end starve

theorem blocked_empty_of_scan {tupleSize : Nat}
    (h : (chainRows m₀ tupleSize (readable m₀ ids)).Perm (chainRows m₀ tupleSize ids)) :
    ∀ p ∈ blocked m₀ ids, (m₀.contents p).numTuples = 0 := by
  intro p hp
  have hlen := h.length_eq
  nth_rewrite 2 [← readable_append_blocked m₀ ids] at hlen
  rw [chainRows, chainRows, List.flatMap_append, List.length_append, Nat.left_eq_add, List.length_eq_zero_iff] at hlen
  rw [← length_pageRows tupleSize, List.flatMap_eq_nil_iff.mp hlen p hp]
  rfl

/-- For every heap file, pool, pins of other clients and number of threads: no read
leaves out tuples without an error exactly if there are frames for the pages with
tuples. -/
theorem delivers_iff (hs : Holds s m₀) (h : Represents m₀ hf ids) {nThreads : Nat} (hn : 1 ≤ nThreads) :
    Delivers s hf nThreads (rows m₀ hf ids) ↔ Frames m₀ ids nThreads := by
  refine ⟨fun ⟨hserial, hparallel⟩ => ?_, delivers_of_frames hs h hn⟩
  rw [Frames]
  split_ifs with hfree
  · obtain ⟨s₁, hscan⟩ := scan_readable hs h
    exact blocked_empty_of_scan (hserial _ _ hscan)
  · by_contra hshort
    rw [not_or, not_le, lt_min_iff] at hshort
    obtain ⟨⟨hworkers, hpages⟩, hrows⟩ := hshort
    push Not at hrows
    obtain ⟨p, hp, htuples⟩ := hrows
    obtain ⟨s₂, hids, hs₂⟩ := getPageIds_visible hs h
    rw [(visible_of_free hfree).1] at hids
    have hle : (unpinnedPages m₀ ids).length ≤ ids.length := List.length_filter_le _ _
    obtain ⟨c, hrun, hdone, hlost⟩ := starves hs₂ h.chain.nodup h.chain.range h.fits
      (lt_min hworkers (hpages.trans_le hle)) hpages hp
    have hperm := (hparallel ids s₂ hids c hrun hdone).length_eq
    rw [rows] at hperm
    omega

theorem delivers_iff_oneThread : Delivers (BufferPool.init 1 twoPages) twoPageTable 1
    (rows (BufferPool.init 1 twoPages).view twoPageTable [0, 1]) := by
  refine (delivers_iff (holds_init twoPages) represents_twoPages le_rfl).mpr ?_
  exact Or.inl (by decide)

/-- A table with a tuple on each of its two pages, in a pool of one frame. When another
client has pinned the frame, `Scan` returns no tuple, and when nobody has, two workers
can return one of the two. -/
theorem scan_short :
    (∃ pinned s' s'', BufferPool.store.newPage (BufferPool.init 1 twoPages) = .ok pinned s' ∧
      scan BufferPool.store twoPageTable pushBack [] s' = .ok [] s'') ∧
    (∃ s' c, getPageIds BufferPool.store twoPageTable (BufferPool.init 1 twoPages) = .ok [0, 1] s' ∧
      Threads.Run (Step (scanTask 1 4) [0, 1])
        (start s' [] : Threads (Fin 2) (Shared (BufferPool HeapPage 1)) (Worker (List Tuple) (ScanPc 1))) c ∧
      (∀ i, (c.locals i).pc = .done) ∧ (merged c).length ≤ 1) ∧
    (rows (BufferPool.init 1 twoPages).view twoPageTable [0, 1]).length = 2 := by
  have hrep := represents_twoPages
  refine ⟨⟨_, _, _, rfl, rfl⟩, ?_, by decide⟩
  obtain ⟨s', hids, hs'⟩ := getPageIds_visible (holds_init twoPages) hrep
  obtain ⟨c, hrun, hdone, hlost⟩ := starves (n := 2) (p := 0) hs' hrep.chain.nodup hrep.chain.range hrep.fits
    (by decide) (by decide) (by decide)
  exact ⟨s', c, hids, hrun, hdone, Nat.le_of_succ_le_succ hlost⟩

end MyDB.Executor.ParallelSeqScan

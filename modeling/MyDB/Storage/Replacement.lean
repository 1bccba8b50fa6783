import MyDB.Lib.Recency
import MyDB.Storage.BufferPoolRuns

/-! Which page the buffer pool evicts. `recent` are the resident pages in the order of the
replacer's list; what each call does to it is said once, and the victim is then read off
the log of the accesses. -/

namespace MyDB.Storage
open BufferPool Lib

variable {D : Type} {n : Nat}

theorem LruReplacer.evict_split {F : Type} [DecidableEq F] (r : LruReplacer F) {f : F} {r' : LruReplacer F}
    (h : r.evict = some (f, r')) :
    ∃ newer older, r.order = newer ++ f :: older ∧ r'.order = newer ++ older ∧ ∀ g ∈ older, g ∉ r.evictable := by
  obtain ⟨hfind, horder, -⟩ := r.evict_eq_some h
  obtain ⟨-, before, after, hsplit, hbefore⟩ := List.find?_eq_some_iff_append.mp hfind
  rw [List.reverse_eq_iff, List.reverse_append, List.reverse_cons, List.append_assoc, List.singleton_append] at hsplit
  refine ⟨after.reverse, before.reverse, hsplit, ?_, ?_⟩
  · have hnodup := r.order_nodup
    rw [hsplit, List.nodup_middle, List.nodup_cons] at hnodup
    rw [horder, hsplit, List.filter_append, List.filter_cons_of_neg (by simp), ← List.filter_append,
      List.filter_eq_self.mpr]
    intro g hg
    simpa using ne_of_mem_of_not_mem hg hnodup.1
  · intro g hg
    simpa using hbefore g (List.mem_reverse.mp hg)

def PoolOp.accessed (s : BufferPool D n) : PoolOp → List PageId
  | .newPage => if s.getFreeFrame.isSome then [(s.disk.numPages : PageId)] else []
  | .fetchPage p => if (s.lookup p).isSome ∨ s.getFreeFrame.isSome then [p] else []
  | _ => []

namespace BufferPool

def recent (s : BufferPool D n) : List PageId := s.replacer.order.map fun f => (s.frames f).pageId

section Recent
variable {off : Option (Fin n)} {s : BufferPool D n}

theorem RepInv.mem_recent (h : RepInv off s) {p : PageId} : p ∈ s.recent ↔ ∃ f, s.lookup p = some f := by
  constructor
  · intro hp
    obtain ⟨f, hf, rfl⟩ := List.mem_map.mp hp
    obtain ⟨q, hq⟩ := (h.order_iff f).mp hf
    exact ⟨f, by rw [h.page_id q f hq, hq]⟩
  · rintro ⟨f, hf⟩
    exact List.mem_map.mpr ⟨f, (h.order_iff f).mpr ⟨p, hf⟩, h.page_id p f hf⟩

theorem RepInv.filter_recent (h : RepInv off s) {p : PageId} {f : Fin n} (hp : s.lookup p = some f) :
    (s.replacer.order.filter (· ≠ f)).map (fun g => (s.frames g).pageId) = s.recent.filter (· ≠ p) := by
  rw [recent, List.filter_map]
  congr 1
  apply List.filter_congr
  intro g hg
  obtain ⟨q, hq⟩ := (h.order_iff g).mp hg
  simp only [Function.comp_apply, h.page_id q g hq, decide_eq_decide, not_iff_not, ne_eq]
  constructor
  · rintro rfl
    exact h.lookup_inj hq hp
  · rintro rfl
    rw [hp] at hq
    exact (Option.some.inj hq).symm

end Recent

section Calls
variable {s s' : BufferPool D n}

theorem recent_congr (horder : s'.replacer.order = s.replacer.order)
    (hframes : ∀ f ∈ s.replacer.order, (s'.frames f).pageId = (s.frames f).pageId) : s'.recent = s.recent := by
  rw [recent, recent, horder]
  exact List.map_congr_left hframes

theorem recent_pinFrame (h : RepInv none s) {p : PageId} {f : Fin n} (hp : s.lookup p = some f) :
    (s.pinFrame f).recent = touch p s.recent := by
  have hframes (g : Fin n) : ((s.pinFrame f).frames g).pageId = (s.frames g).pageId := by
    by_cases hg : g = f
    · simp [pinFrame, hg]
    · simp [pinFrame, hg]
  rw [recent, touch, ← h.filter_recent hp]
  simp only [hframes]
  rw [pinFrame, LruReplacer.order_setEvictable, LruReplacer.order_recordAccess, List.map_cons, h.page_id p f hp]

theorem RepInv.off_order {f : Fin n} (h : RepInv (some f) s) : f ∉ s.replacer.order := fun hf => by
  obtain ⟨p, hp⟩ := (h.order_iff f).mp hf
  exact (h.off_out f rfl).2 p hp

theorem recent_install {f : Fin n} (hf : f ∉ s.replacer.order) (page : Page D) :
    (s.install f page).recent = page.pageId :: s.recent := by
  have horder : (s.install f page).replacer.order = f :: s.replacer.order := by
    rw [install, LruReplacer.order_setEvictable, LruReplacer.order_recordAccess]
    exact touch_of_not_mem hf
  rw [recent, horder, List.map_cons]
  congr 1
  · simp [install]
  · refine List.map_congr_left fun g hg => congrArg Page.pageId ?_
    exact Function.update_of_ne (ne_of_mem_of_not_mem hg hf) ..

theorem recent_getFreeFrame (h : RepInv none s) {f : Fin n} (he : s.getFreeFrame = some (f, s')) :
    (s.freeList ≠ [] ∧ s'.recent = s.recent) ∨
    s.freeList = [] ∧ ∃ newer v older, s.lookup v = some f ∧ s.recent = newer ++ v :: older ∧
      s'.recent = newer ++ older ∧ ∀ w ∈ older, 0 < s.pins w := by
  unfold getFreeFrame at he
  split at he
  · next g rest hl =>
    obtain ⟨rfl, rfl⟩ := Prod.mk.inj (Option.some.inj he)
    exact .inl ⟨by simp [hl], rfl⟩
  · next hl =>
    split at he
    · next g r hev =>
      obtain ⟨rfl, rfl⟩ := Prod.mk.inj (Option.some.inj he)
      refine .inr ⟨hl, ?_⟩
      obtain ⟨newer, older, hsplit, hrest, holder⟩ := s.replacer.evict_split hev
      obtain ⟨v, hv⟩ := (h.order_iff g).mp (s.replacer.mem_of_evict hev).1
      have hg : g ∉ newer ++ older := by
        have hnodup := s.replacer.order_nodup
        rw [hsplit, List.nodup_middle] at hnodup
        exact (List.nodup_cons.mp hnodup).1
      refine ⟨newer.map fun g => (s.frames g).pageId, v, older.map fun g => (s.frames g).pageId, hv, ?_, ?_, ?_⟩
      · rw [recent, hsplit, List.map_append, List.map_cons, h.page_id v g hv]
      · rw [← List.map_append, recent]
        change r.order.map _ = _
        rw [hrest]
        refine List.map_congr_left fun g' hg' => congrArg Page.pageId ?_
        exact Function.update_of_ne (ne_of_mem_of_not_mem hg' hg) ..
      · intro w hw
        obtain ⟨g', hg', rfl⟩ := List.mem_map.mp hw
        obtain ⟨q, hq⟩ := (h.order_iff g').mp (by rw [hsplit]; simp [hg'])
        have hpin : (s.frames g').pinCount ≠ 0 := fun h0 => holder g' hg' ((h.evictable_iff g').mpr ⟨⟨q, hq⟩, h0⟩)
        rw [h.page_id q g' hq, pins, hq]
        exact Nat.pos_of_ne_zero hpin
    · cases he

inductive Accessed (s : BufferPool D n) (p : PageId) : List PageId → Prop
  | hit (hp : p ∈ s.recent) : Accessed s p (touch p s.recent)
  | free (hp : p ∉ s.recent) (hfree : s.freeList ≠ []) : Accessed s p (p :: s.recent)
  | evict {newer older : List PageId} {v : PageId} (hp : p ∉ s.recent) (hfree : s.freeList = [])
      (hrecent : s.recent = newer ++ v :: older) (hv : s.pins v = 0) (holder : ∀ w ∈ older, 0 < s.pins w) :
      Accessed s p (p :: (newer ++ older))

theorem accessed_install (h : RepInv none s) {f : Fin n} {s₁ s₂ : BufferPool D n} (he : s.getFreeFrame = some (f, s₁))
    {p : PageId} (hp : s.lookup p = none) (hs₂ : s₂.recent = p :: s₁.recent) : Accessed s p s₂.recent := by
  have hnot : p ∉ s.recent := fun hmem => by
    obtain ⟨g, hg⟩ := h.mem_recent.mp hmem
    rw [hp] at hg
    cases hg
  rw [hs₂]
  rcases recent_getFreeFrame h he with ⟨hfree, heq⟩ | ⟨hfree, newer, v, older, hv, hrecent, heq, holder⟩
  · rw [heq]
    exact .free hnot hfree
  · rw [heq]
    refine .evict hnot hfree hrecent ?_ holder
    rw [pins, hv]
    exact (getFreeFrame_spec h he).pin_zero

theorem accessed_newPage [Zero D] (h : RepInv none s) {r : PageId × Fin n} (hr : newPage s = .ok (some r) s') :
    r.1 = s.disk.numPages ∧ Accessed s s.disk.numPages s'.recent := by
  unfold newPage at hr
  split at hr
  · cases hr
  · next f s₁ he =>
    have ht := getFreeFrame_spec h he
    cases hr
    have hid : (s₁.disk.allocatePage.1 : PageId) = s.disk.numPages := congrArg Nat.cast ht.numPages_eq
    refine ⟨hid, accessed_install h he h.lookup_numPages ?_⟩
    rw [← hid]
    exact recent_install (s := { s₁ with disk := s₁.disk.allocatePage.2 }) ht.inv.off_order _

theorem accessed_fetchPage (h : RepInv none s) {p : PageId} {f : Fin n} (hr : fetchPage p s = .ok (some f) s') :
    Accessed s p s'.recent := by
  unfold fetchPage at hr
  split at hr
  · next g hp =>
    cases hr
    rw [recent_pinFrame h hp]
    exact .hit (h.mem_recent.mpr ⟨_, hp⟩)
  · next hp =>
    split at hr
    · cases hr
    · next g s₁ he =>
      have ht := getFreeFrame_spec h he
      split at hr
      · cases hr
      · cases hr
        exact accessed_install h he hp (recent_install ht.inv.off_order _)

theorem Accessed.sublist {p : PageId} {l : List PageId} (h : Accessed s p l) :
    ∃ rest, rest.Sublist s.recent ∧ l = touch p rest := by
  cases h with
  | hit hp => exact ⟨_, .refl _, rfl⟩
  | free hp hfree => exact ⟨_, .refl _, (touch_of_not_mem hp).symm⟩
  | @evict newer older v hp hfree hrecent hv holder =>
    have hsub : (newer ++ older).Sublist s.recent := by
      rw [hrecent]
      exact (List.Sublist.refl newer).append (List.sublist_cons_self v older)
    exact ⟨_, hsub, (touch_of_not_mem fun hmem => hp (hsub.subset hmem)).symm⟩

theorem recent_unpinFrame (s : BufferPool D n) (f : Fin n) (isDirty : Bool) :
    (s.unpinFrame f isDirty).recent = s.recent := by
  refine recent_congr ?_ fun g _ => ?_
  · rw [unpinFrame]
    split_ifs <;> rfl
  · by_cases hg : g = f
    · simp [unpinFrame, hg]
    · simp [unpinFrame, hg]

theorem recent_flushFrame (s : BufferPool D n) (p : PageId) (f : Fin n) : (s.flushFrame p f).recent = s.recent := by
  refine recent_congr rfl fun g _ => ?_
  by_cases hg : g = f
  · simp [flushFrame, hg]
  · simp [flushFrame, hg]

theorem recent_flushEntries (es : List (Σ _ : PageId, Fin n)) (s : BufferPool D n) :
    (es.foldl flushEntry s).recent = s.recent := by
  induction es generalizing s with
  | nil => rfl
  | cons e es ih =>
    rw [List.foldl_cons, ih, flushEntry]
    split_ifs
    · exact recent_flushFrame ..
    · rfl

theorem recent_freeFrame [Zero D] (h : RepInv none s) {p : PageId} {f : Fin n} (hp : s.lookup p = some f) :
    (s.freeFrame p f).recent = s.recent.filter (· ≠ p) := by
  rw [← h.filter_recent hp, recent]
  change ((s.replacer.remove f).order).map _ = _
  rw [LruReplacer.order_remove]
  refine List.map_congr_left fun g hg => congrArg Page.pageId ?_
  exact Function.update_of_ne (of_decide_eq_true (List.mem_filter.mp hg).2) ..

theorem recent_exec [Zero D] {op : PoolOp} (h : RepInv none s) (hr : op.exec s = .ok () s') :
    (∃ p, op.accessed s = [p] ∧ Accessed s p s'.recent) ∨
      op.accessed s = [] ∧ (s'.recent = s.recent ∨ ∃ p, op = .deletePage p ∧ s'.recent = s.recent.filter (· ≠ p)) := by
  cases op with
  | newPage =>
    obtain ⟨r, hr⟩ := discard_eq_ok.mp hr
    cases r with
    | none =>
      rcases newPage_cases h hr with ⟨-, rfl, hfree⟩ | ⟨f, s₁, hr', -⟩
      · exact .inr ⟨by simp [PoolOp.accessed, hfree], .inl rfl⟩
      · cases hr'
    | some r =>
      refine .inl ⟨_, ?_, (accessed_newPage h hr).2⟩
      unfold newPage at hr
      split at hr
      · cases hr
      · next he => simp [PoolOp.accessed, he]
  | fetchPage p =>
    obtain ⟨r, hr⟩ := discard_eq_ok.mp hr
    cases r with
    | none =>
      rcases fetchPage_cases h hr with ⟨f, hr', -⟩ | ⟨-, rfl, hp, hfree⟩ | ⟨f, s₁, hr', -⟩
      · cases hr'
      · exact .inr ⟨by simp [PoolOp.accessed, hp, hfree], .inl rfl⟩
      · cases hr'
    | some f =>
      refine .inl ⟨p, ?_, accessed_fetchPage h hr⟩
      unfold fetchPage at hr
      split at hr
      · next hp => simp [PoolOp.accessed, hp]
      · split at hr
        · cases hr
        · next he => simp [PoolOp.accessed, he]
  | unpinPage p d =>
    refine .inr ⟨rfl, .inl ?_⟩
    obtain ⟨r, hr⟩ := discard_eq_ok.mp hr
    unfold unpinPage at hr
    split at hr
    · cases hr
      rfl
    · split_ifs at hr <;> cases hr
      · rfl
      · exact recent_unpinFrame ..
  | flushPage p =>
    refine .inr ⟨rfl, .inl ?_⟩
    obtain ⟨r, hr⟩ := discard_eq_ok.mp hr
    unfold flushPage at hr
    split at hr <;> cases hr
    · rfl
    · exact recent_flushFrame ..
  | flushAllPages =>
    cases hr
    exact .inr ⟨rfl, .inl (recent_flushEntries ..)⟩
  | deletePage p =>
    refine .inr ⟨rfl, ?_⟩
    obtain ⟨r, hr⟩ := discard_eq_ok.mp hr
    unfold deletePage at hr
    split at hr
    · cases hr
      exact .inl rfl
    · next f hp =>
      split_ifs at hr <;> cases hr
      · exact .inl rfl
      · exact .inr ⟨p, rfl, recent_freeFrame h hp⟩

end Calls

end BufferPool

/-! ## Runs -/

/-- The states of a pool, with the pages that have been handed out, the last one first. -/
inductive Logged [Zero D] (disk : DiskManager D) : List PageId → BufferPool D n → Prop
  | init : Logged disk [] (BufferPool.init n disk)
  | step {log : List PageId} {s s' : BufferPool D n} (h : Logged disk log s) (op : PoolOp)
      (hr : op.exec s = .ok () s') : Logged disk (op.accessed s ++ log) s'

section Logged
variable [Zero D] {disk : DiskManager D} {log : List PageId} {s s' : BufferPool D n}

theorem Logged.repInv (h : Logged disk log s) : RepInv none s := by
  induction h with
  | init => exact repInv_init disk
  | step _ op hr ih => exact repInv_exec ih hr

theorem Logged.ordered (h : Logged disk log s) : s.recent.Pairwise fun a b => log.idxOf a < log.idxOf b := by
  induction h with
  | init => exact .nil
  | step hlog op hr ih =>
    rcases recent_exec hlog.repInv hr with ⟨p, hacc, haccessed⟩ | ⟨hacc, heq | ⟨p, -, heq⟩⟩
    · obtain ⟨rest, hsub, heq⟩ := haccessed.sublist
      rw [hacc, heq]
      exact pairwise_touch (ih.sublist hsub) p
    · rw [hacc, heq]
      exact ih
    · rw [hacc, heq]
      exact ih.filter _

/-- A page that leaves the pool, other than by `DeletePage`, was not pinned and has been
handed out longest ago of all resident pages that are not pinned; no frame was free, and
every other page stays. -/
theorem evicts_least_recent (h : Logged disk log s) (op : PoolOp) (hr : op.exec s = .ok () s') {v : PageId}
    {f : Fin n} (hv : s.lookup v = some f) (hgone : s'.lookup v = none) (hop : op ≠ .deletePage v) :
    s.pins v = 0 ∧ s.freeList = [] ∧
    (∀ w g, s.lookup w = some g → s.pins w = 0 → w ≠ v → log.idxOf w < log.idxOf v) ∧
    ∀ w g, s.lookup w = some g → w ≠ v → ∃ g', s'.lookup w = some g' := by
  have hinv := h.repInv
  have hinv' := repInv_exec hinv hr
  have hmem : v ∈ s.recent := hinv.mem_recent.mpr ⟨f, hv⟩
  have hnot : v ∉ s'.recent := fun hmem' => by
    obtain ⟨g, hg⟩ := hinv'.mem_recent.mp hmem'
    rw [hgone] at hg
    cases hg
  rcases recent_exec hinv hr with ⟨p, -, haccessed⟩ | ⟨-, heq | ⟨p, rfl, heq⟩⟩
  · generalize hl : s'.recent = l at haccessed
    rw [hl] at hnot
    cases haccessed with
    | hit hp => exact absurd (mem_touch.mpr (.inr hmem)) hnot
    | free hp hfree => exact absurd (List.mem_cons_of_mem _ hmem) hnot
    | @evict newer older v' hp hfree hrecent hpins holder =>
      have hordered := h.ordered
      rw [hrecent] at hmem hordered
      obtain rfl : v = v' := by
        by_contra hne
        have hrest : v ∈ newer ++ older := by simpa [hne] using hmem
        exact hnot (List.mem_cons_of_mem _ hrest)
      have hsplit {w : PageId} {g : Fin n} (hw : s.lookup w = some g) (hwv : w ≠ v) : w ∈ newer ∨ w ∈ older := by
        have hmemw : w ∈ s.recent := hinv.mem_recent.mpr ⟨g, hw⟩
        rw [hrecent] at hmemw
        simpa [hwv] using hmemw
      refine ⟨hpins, hfree, fun w g hw hunpinned hwv => ?_, fun w g hw hwv => ?_⟩
      · rcases hsplit hw hwv with hnewer | holder'
        · exact (List.pairwise_append.mp hordered).2.2 w hnewer v (List.mem_cons_self ..)
        · exact absurd hunpinned (holder w holder').ne'
      · refine hinv'.mem_recent.mp ?_
        rw [hl]
        exact List.mem_cons_of_mem _ (List.mem_append.mpr (hsplit hw hwv))
  · rw [heq] at hnot
    exact absurd hmem hnot
  · have hvp : v ≠ p := fun e => hop (by rw [e])
    rw [heq] at hnot
    exact absurd (List.mem_filter.mpr ⟨hmem, by simpa using hvp⟩) hnot

theorem evicts_least_recent_twoFrames :
    ∃ (log : List PageId) (s s' : BufferPool Nat 2), Logged ⟨0, fun _ => 0⟩ log s ∧
      PoolOp.newPage.exec s = .ok () s' ∧ s.lookup 1 = some 1 ∧ s'.lookup 1 = none ∧
      log.idxOf 0 < log.idxOf 1 := by
  have h0 : Logged ⟨0, fun _ => 0⟩ [] (BufferPool.init 2 ⟨0, fun _ => (0 : Nat)⟩) := .init
  have h1 := h0.step .newPage rfl
  have h2 := h1.step .newPage rfl
  have h3 := h2.step (.unpinPage 0 false) rfl
  have h4 := h3.step (.unpinPage 1 false) rfl
  have h5 := h4.step (.fetchPage 0) rfl
  have h6 := h5.step (.unpinPage 0 false) rfl
  have hevict := evicts_least_recent h6 .newPage rfl (v := 1) rfl rfl (by decide)
  exact ⟨_, _, _, h6, rfl, rfl, rfl, hevict.2.2.1 0 0 rfl rfl (by decide)⟩

end Logged

end MyDB.Storage

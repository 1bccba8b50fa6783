import MyDB.Storage.LruReplacer

/-! The replacer against the history of its calls. The log has an entry for each call
that did something, the newest first; which frames there are, which of them may be
evicted and which is the oldest are read off the log alone. -/

namespace MyDB.Storage
variable {F : Type} [DecidableEq F]

inductive LruEvent (F : Type) where
  | accessed (f : F)
  | setEvictable (f : F) (evictable : Bool)
  | removed (f : F)
  | evicted (f : F)
  deriving DecidableEq, Repr

namespace LruEvent

def lastAccess (f : F) : List (LruEvent F) → Nat
  | [] => 0
  | accessed g :: log => if g = f then log.length + 1 else lastAccess f log
  | _ :: log => lastAccess f log

def tracked (f : F) : List (LruEvent F) → Bool
  | [] => false
  | accessed g :: log => g = f || tracked f log
  | setEvictable _ _ :: log => tracked f log
  | removed g :: log => g ≠ f && tracked f log
  | evicted g :: log => g ≠ f && tracked f log

def marked (f : F) : List (LruEvent F) → Bool
  | [] => false
  | accessed _ :: log => marked f log
  | setEvictable g evictable :: log => if g = f then evictable else marked f log
  | removed g :: log => g ≠ f && marked f log
  | evicted g :: log => g ≠ f && marked f log

theorem lastAccess_le (f : F) (log : List (LruEvent F)) : lastAccess f log ≤ log.length := by
  induction log with
  | nil => exact le_rfl
  | cons e log ih =>
    have hle := ih.trans (Nat.le_succ log.length)
    cases e with
    | accessed g =>
      unfold lastAccess
      split_ifs
      · exact le_rfl
      · exact hle
    | _ => exact hle

end LruEvent

open LruEvent

inductive LruCall (F : Type) where
  | recordAccess (f : F)
  | setEvictable (f : F) (evictable : Bool)
  | remove (f : F)
  | evict
  deriving DecidableEq, Repr

/-- A call, with what it adds to the log: an `Evict` that returns false adds nothing. -/
def LruCall.exec (s : LruReplacer F × List (LruEvent F)) : LruCall F → LruReplacer F × List (LruEvent F)
  | recordAccess f => (s.1.recordAccess f, accessed f :: s.2)
  | setEvictable f evictable => (s.1.setEvictable f evictable, .setEvictable f evictable :: s.2)
  | remove f => (s.1.remove f, removed f :: s.2)
  | evict =>
    match s.1.evict with
    | some (f, r) => (r, evicted f :: s.2)
    | none => s

def LruCall.history (calls : List (LruCall F)) : LruReplacer F × List (LruEvent F) :=
  calls.foldl LruCall.exec (.empty, [])

namespace LruReplacer

structure Follows (r : LruReplacer F) (log : List (LruEvent F)) : Prop where
  mem_order : ∀ f, f ∈ r.order ↔ tracked f log = true
  mem_evictable : ∀ f, f ∈ r.evictable ↔ marked f log = true
  recent : r.order.Pairwise fun f g => lastAccess g log < lastAccess f log

section steps
variable {r r' : LruReplacer F} {log : List (LruEvent F)}

theorem follows_empty : Follows (empty : LruReplacer F) [] := ⟨by simp [tracked], by simp [marked], by simp⟩

theorem Follows.recordAccess (h : Follows r log) (f : F) : Follows (r.recordAccess f) (accessed f :: log) := by
  refine ⟨fun g => ?_, h.mem_evictable, ?_⟩
  · rw [order_recordAccess]
    by_cases hg : f = g
    · simp [tracked, hg]
    · simp [tracked, hg, Ne.symm hg, h.mem_order]
  · rw [order_recordAccess, List.pairwise_cons]
    have htime {g : F} (hg : g ≠ f) : lastAccess g (accessed f :: log) = lastAccess g log := if_neg hg.symm
    constructor
    · intro g hg
      have hne : g ≠ f := by simpa using (List.mem_filter.mp hg).2
      rw [htime hne, lastAccess, if_pos rfl]
      exact Nat.lt_succ_of_le (lastAccess_le g log)
    · refine (h.recent.filter _).imp_of_mem fun {g k} hg hk hlt => ?_
      have hg' : g ≠ f := by simpa using (List.mem_filter.mp hg).2
      have hk' : k ≠ f := by simpa using (List.mem_filter.mp hk).2
      rwa [htime hg', htime hk']

theorem Follows.setEvictable (h : Follows r log) (f : F) (b : Bool) :
    Follows (r.setEvictable f b) (.setEvictable f b :: log) := by
  refine ⟨h.mem_order, fun g => ?_, h.recent⟩
  rw [evictable_setEvictable]
  by_cases hg : f = g
  · subst hg
    cases b <;> simp [marked]
  · cases b <;> simp [marked, hg, Ne.symm hg, h.mem_evictable]

theorem Follows.forget (h : Follows r log) (f : F) (horder : r'.order = r.order.filter (· ≠ f))
    (hevictable : r'.evictable = r.evictable.erase f) {e : LruEvent F} (he : e = removed f ∨ e = evicted f) :
    Follows r' (e :: log) := by
  have htracked (g : F) : tracked g (e :: log) = (decide (f ≠ g) && tracked g log) := by rcases he with rfl | rfl <;> rfl
  have hmarked (g : F) : marked g (e :: log) = (decide (f ≠ g) && marked g log) := by rcases he with rfl | rfl <;> rfl
  have htime (g : F) : lastAccess g (e :: log) = lastAccess g log := by rcases he with rfl | rfl <;> rfl
  refine ⟨fun g => ?_, fun g => ?_, ?_⟩
  · rw [horder, htracked, List.mem_filter, h.mem_order]
    simp only [Bool.and_eq_true, decide_eq_true_eq, and_comm, ne_comm]
  · rw [hevictable, hmarked, Finset.mem_erase, h.mem_evictable]
    simp only [Bool.and_eq_true, decide_eq_true_eq, ne_comm]
  · rw [horder]
    simp only [htime]
    exact h.recent.filter _

theorem Follows.exec {s : LruReplacer F × List (LruEvent F)} (h : Follows s.1 s.2) (call : LruCall F) :
    Follows (call.exec s).1 (call.exec s).2 := by
  cases call with
  | recordAccess f => exact h.recordAccess f
  | setEvictable f b => exact h.setEvictable f b
  | remove f => exact h.forget f (order_remove s.1 f) (evictable_remove s.1 f) (Or.inl rfl)
  | evict =>
    unfold LruCall.exec
    dsimp only
    split
    · next f r hev =>
      obtain ⟨-, horder, hevictable⟩ := s.1.evict_eq_some hev
      exact h.forget f horder hevictable (Or.inr rfl)
    · exact h

theorem follows_history (calls : List (LruCall F)) : Follows (LruCall.history calls).1 (LruCall.history calls).2 := by
  unfold LruCall.history
  induction calls using List.reverseRecOn with
  | nil => exact follows_empty
  | append_singleton calls call ih =>
    rw [List.foldl_append]
    exact ih.exec call

end steps

def Candidate (log : List (LruEvent F)) (f : F) : Prop := tracked f log = true ∧ marked f log = true

theorem Follows.candidate_iff {r : LruReplacer F} {log : List (LruEvent F)} (h : Follows r log) (f : F) :
    Candidate log f ↔ f ∈ r.order ∧ f ∈ r.evictable := by
  rw [h.mem_order, h.mem_evictable]
  rfl

theorem Follows.evict_eq_none_iff {r : LruReplacer F} {log : List (LruEvent F)} (h : Follows r log) :
    r.evict = none ↔ ∀ f, ¬ Candidate log f := by
  rw [r.evict_eq_none_iff]
  simp only [h.candidate_iff, not_and]

theorem Follows.evict_oldest {r r' : LruReplacer F} {log : List (LruEvent F)} (h : Follows r log) {f : F}
    (hev : r.evict = some (f, r')) :
    Candidate log f ∧ ∀ g, Candidate log g → g ≠ f → lastAccess f log < lastAccess g log := by
  refine ⟨(h.candidate_iff f).mpr (r.mem_of_evict hev), fun g hg hne => ?_⟩
  obtain ⟨hmem, hevictable⟩ := (h.candidate_iff g).mp hg
  obtain ⟨hfind, -⟩ := r.evict_eq_some hev
  -- the scan from the back passed only frames that are not evictable
  obtain ⟨-, passed, ahead, hsplit, hpassed⟩ := List.find?_eq_some_iff_append.mp hfind
  have horder : r.order = ahead.reverse ++ f :: passed.reverse := by
    rw [← List.reverse_reverse r.order, hsplit]
    simp
  have hahead : g ∈ ahead.reverse := by
    rw [horder, List.mem_append, List.mem_cons] at hmem
    rcases hmem with hmem | hmem | hmem
    · exact hmem
    · exact absurd hmem hne
    · have hnot := hpassed g (List.mem_reverse.mp hmem)
      simp [hevictable] at hnot
  have hrecent := h.recent
  rw [horder] at hrecent
  exact (List.pairwise_append.mp hrecent).2.2 g hahead f List.mem_cons_self

/-- For every sequence of calls: the list has no duplicates and is what the map indexes;
`Evict` returns true if and only if there is a candidate, takes the one that was accessed
first, forgets it and keeps the order of the others; and it changes nothing if it returns
false. -/
theorem evict_least_recent (calls : List (LruCall F)) :
    let r := (LruCall.history calls).1
    let log := (LruCall.history calls).2
    r.order.Nodup ∧ (∀ f i, r.lruMap f = some i ↔ ⟨i, f⟩ ∈ r.lruList) ∧
      (r.evict.isSome ↔ ∃ f, Candidate log f) ∧
      (∀ f r', r.evict = some (f, r') →
        (Candidate log f ∧ ∀ g, Candidate log g → g ≠ f → lastAccess f log < lastAccess g log) ∧
        r'.order = r.order.filter (· ≠ f) ∧ r'.evictable = r.evictable.erase f) ∧
      (r.evict = none → LruCall.evict.exec (LruCall.history calls) = LruCall.history calls) := by
  intro r log
  have h : Follows r log := follows_history calls
  refine ⟨r.order_nodup, r.map_iff, ?_, fun f r' hev => ⟨h.evict_oldest hev, (r.evict_eq_some hev).2⟩, fun hev => ?_⟩
  · rw [← not_iff_not, Bool.not_eq_true, Option.isSome_eq_false_iff, Option.isNone_iff_eq_none, h.evict_eq_none_iff]
    exact not_exists.symm
  · unfold LruCall.exec
    rw [show (LruCall.history calls).1.evict = none from hev]

/-! ## The size -/

def evictions : Nat → LruReplacer F → Nat
  | 0, _ => 0
  | k + 1, r =>
    match r.evict with
    | some (_, r') => evictions k r' + 1
    | none => 0

theorem evictions_eq (r : LruReplacer F) {k : Nat} (hk : r.order.length ≤ k) :
    evictions k r = (r.evictable.filter (· ∈ r.order)).card := by
  induction k generalizing r with
  | zero =>
    rw [List.eq_nil_of_length_eq_zero (Nat.le_zero.mp hk)]
    simp [evictions]
  | succ k ih =>
    unfold evictions
    split
    · next f r' hev =>
      obtain ⟨-, horder, hevictable⟩ := r.evict_eq_some hev
      obtain ⟨hmem, hmem'⟩ := r.mem_of_evict hev
      have hlength : r'.order.length ≤ k := by
        rw [horder]
        refine Nat.le_of_lt_succ (lt_of_lt_of_le ?_ hk)
        exact List.length_filter_lt_length_iff_exists.mpr ⟨f, hmem, by simp⟩
      have hfilter : r'.evictable.filter (· ∈ r'.order) = (r.evictable.filter (· ∈ r.order)).erase f := by
        ext g
        simp only [horder, hevictable, Finset.mem_filter, Finset.mem_erase, List.mem_filter, decide_eq_true_eq]
        tauto
      rw [ih r' hlength, hfilter, Finset.card_erase_add_one (Finset.mem_filter.mpr ⟨hmem', hmem⟩)]
    · next hev =>
      have hnone := r.evict_eq_none_iff.mp hev
      symm
      rw [Finset.card_eq_zero, Finset.filter_eq_empty_iff]
      exact fun f hf hmem => hnone f hmem hf

/-- For every sequence of calls: the calls of `Evict` that would succeed are as many as
the frames that are both in the list and evictable, and `Size` is that number if and
only if every marked frame has been accessed. -/
theorem size_eq_evictions_iff (calls : List (LruCall F)) (k : Nat) :
    let r := (LruCall.history calls).1
    let log := (LruCall.history calls).2
    r.order.length ≤ k → evictions k r = (r.evictable.filter (· ∈ r.order)).card ∧
      (r.size = evictions k r ↔ ∀ f, marked f log = true → tracked f log = true) := by
  intro r log hk
  have h : Follows r log := follows_history calls
  have hevictions := evictions_eq r hk
  refine ⟨hevictions, ?_⟩
  rw [hevictions, size, eq_comm, Finset.card_filter_eq_iff]
  simp only [← h.mem_order, ← h.mem_evictable]

theorem size_eq_evictions_two :
    let calls : List (LruCall Nat) := [.recordAccess 1, .recordAccess 2, .setEvictable 1 true, .setEvictable 2 true, .recordAccess 3]
    let r := (LruCall.history calls).1
    r.size = 2 ∧ evictions 3 r = 2 ∧
      ∀ f, marked f (LruCall.history calls).2 = true → tracked f (LruCall.history calls).2 = true := by
  intro calls r
  have hsize : r.size = 2 := by decide
  have hevictions : evictions 3 r = 2 := by decide
  exact ⟨hsize, hevictions, (size_eq_evictions_iff calls 3 (by decide)).2.mp (hsize.trans hevictions.symm)⟩

/-- A frame that is marked before any access is counted, and `Evict` does not find it. -/
theorem size_untracked :
    let r := (LruCall.history [(LruCall.setEvictable 1 true : LruCall Nat)]).1
    r.size = 1 ∧ r.evict = none ∧ ∀ k, evictions k r = 0 := by
  refine ⟨rfl, rfl, fun k => ?_⟩
  cases k with
  | zero => rfl
  | succ k => rfl

end LruReplacer
end MyDB.Storage

import MyDB.Storage.PoolReaders

/-! A client of the buffer pool, with other clients at work between its calls: they
pin and unpin pages as a schedule says, which has a list of calls for each of the
client's. Whatever the schedule, the pages in the pool read as they did, and the
pins that the client does not have are those of the others. -/

namespace MyDB.Storage
open Lib BufferPool
variable {D : Type} {n : Nat}

inductive ClientCall where
  | newPage
  | fetchPage (p : PageId)
  | unpinPage (p : PageId) (isDirty : Bool)
  deriving DecidableEq, Repr

/-- The pool, with the pins that the other clients have and the pages that they
have written. -/
structure Clients (D : Type) (n : Nat) where
  pool : BufferPool D n
  pins : PageId → Nat
  written : PageId → Bool
  schedule : List (List ClientCall)

namespace Clients

def call {α : Type} (x : EStateM Fault (BufferPool D n) α) : EStateM Fault (Clients D n) α := fun c =>
  match x c.pool with
  | .ok a pool => .ok a { c with pool }
  | .error e pool => .error e { c with pool }

variable [Zero D]

def tookPage (c : Clients D n) (p : PageId) (pool : BufferPool D n) : Clients D n :=
  { c with pool, pins := Function.update c.pins p (c.pins p + 1) }

/-- Another client fetches a page that exists and unpins one that it has pinned; the
last to unpin a page that they have written says so. -/
def run (c : Clients D n) : ClientCall → Clients D n
  | .newPage =>
    match BufferPool.store.newPage c.pool with
    | .ok (some (p, _)) pool => c.tookPage p pool
    | .ok none pool => { c with pool }
    | .error _ pool => { c with pool }
  | .fetchPage p =>
    if 0 ≤ p ∧ p < c.pool.disk.numPages then
      match BufferPool.store.fetchPage p c.pool with
      | .ok (some _) pool => c.tookPage p pool
      | .ok none pool => { c with pool }
      | .error _ pool => { c with pool }
    else c
  | .unpinPage p isDirty =>
    if c.pins p ≠ 0 ∧ (c.pins p = 1 → c.written p = true → isDirty = true) then
      match BufferPool.store.unpinPage p isDirty c.pool with
      | .ok _ pool => { c with pool, pins := Function.update c.pins p (c.pins p - 1) }
      | .error _ pool => { c with pool }
    else c

def advance (c : Clients D n) : Clients D n :=
  match c.schedule with
  | [] => c
  | calls :: schedule => calls.foldl run { c with schedule }

def store : PageStore (Clients D n) D (Fin n) where
  newPage := fun c => call BufferPool.store.newPage c.advance
  fetchPage := fun p c => call (BufferPool.store.fetchPage p) c.advance
  unpinPage := fun p isDirty c => call (BufferPool.store.unpinPage p isDirty) c.advance
  readData := fun f => call (BufferPool.store.readData f)
  writeData := fun f d => call (BufferPool.store.writeData f d)
  numPages := call BufferPool.store.numPages

end Clients

/-! ## What the others leave -/

structure PageMap.Keeps (m m' : PageMap D) : Prop where
  numPages_le : m.numPages ≤ m'.numPages
  contents_eq : ∀ p : PageId, p < m.numPages → m'.contents p = m.contents p

namespace PageMap.Keeps
variable {m m' m'' : PageMap D}

theorem refl (m : PageMap D) : m.Keeps m := ⟨le_rfl, fun _ _ => rfl⟩

theorem trans (h : m.Keeps m') (h' : m'.Keeps m'') : m.Keeps m'' := by
  refine ⟨h.numPages_le.trans h'.numPages_le, fun p hp => ?_⟩
  rw [h'.contents_eq p (hp.trans_le (Int.ofNat_le.mpr h.numPages_le)), h.contents_eq p hp]

theorem update (h : m.Keeps m') {t t' : PageMap D} {p : PageId} {d : D} (hnum : t.numPages = m.numPages)
    (hnum' : t'.numPages = m'.numPages) (ht : t.contents = Function.update m.contents p d)
    (ht' : t'.contents = Function.update m'.contents p d) : t.Keeps t' := by
  refine ⟨by rw [hnum, hnum']; exact h.numPages_le, fun q hq => ?_⟩
  rw [hnum] at hq
  rw [ht, ht', Function.update_apply, Function.update_apply, h.contents_eq q hq]

end PageMap.Keeps

theorem PageMap.pending_unpin {m : PageMap D} {p q : PageId} {dirty : Bool}
    (h : (m.unpin p dirty).pending q = true) : m.pending q = true ∧ (q = p → dirty = false) := by
  cases dirty with
  | false => exact ⟨h, fun _ => rfl⟩
  | true =>
    change Function.update m.pending p false q = true at h
    rw [Function.update_apply] at h
    split_ifs at h with hqp
    exact ⟨h, fun e => absurd e hqp⟩

structure Sharing (held : Option (PageId × Fin n)) (wrote : Bool) (c : Clients D n) (m : PageMap D) : Prop where
  live : Live held.toList c.pool m
  pins_eq : ∀ p, m.pins p = pinOf p held + c.pins p
  pending : ∀ p, m.pending p = true →
    (wrote = true ∧ held.map Prod.fst = some p) ∨ (c.written p = true ∧ c.pins p ≠ 0)

section others
variable {held : Option (PageId × Fin n)} {wrote : Bool} {c : Clients D n} {m : PageMap D} {p : PageId}

theorem Sharing.tookPage (h : Sharing held wrote c m) {pool : BufferPool D n} {m' : PageMap D}
    (hlive : Live held.toList pool m') (hpins : m'.pins = Function.update m.pins p (m.pins p + 1))
    (hpending : m'.pending = m.pending) : Sharing held wrote (c.tookPage p pool) m' := by
  refine ⟨hlive, fun q => ?_, fun q hq => ?_⟩
  · change _ = _ + Function.update c.pins p (c.pins p + 1) q
    have hold := h.pins_eq q
    rw [hpins, Function.update_apply, Function.update_apply]
    split_ifs with hqp
    · subst hqp
      omega
    · exact hold
  · rw [hpending] at hq
    refine (h.pending q hq).imp id fun hw => ⟨hw.1, ?_⟩
    change Function.update c.pins p (c.pins p + 1) q ≠ 0
    rw [Function.update_apply]
    split_ifs
    · exact Nat.succ_ne_zero _
    · exact hw.2

theorem Live.of_cons {ptrs : List (PageId × Fin n)} {x : PageId × Fin n} {s : BufferPool D n}
    (h : Live (x :: ptrs) s m) : Live ptrs s m :=
  ⟨h.1, fun y hy => h.2 y (List.mem_cons_of_mem _ hy)⟩

variable [Zero D]

theorem Live.unpin {ptrs : List (PageId × Fin n)} {s : BufferPool D n} (h : Live ptrs s m) (hpos : m.pins p ≠ 0)
    {dirty : Bool} (hkeep : m.pins p = 1 → m.pending p = true → dirty = true)
    (hptrs : ∀ x ∈ ptrs, x.1 = p → m.pins p ≠ 1) :
    ∃ s', BufferPool.store.unpinPage p dirty s = .ok true s' ∧ Live ptrs s' (m.unpin p dirty) := by
  cases hl : s.lookup p with
  | none =>
    rw [h.1.pins_eq, pins_of_not_resident hl] at hpos
    exact absurd rfl hpos
  | some f =>
    have hpin : (s.frames f).pinCount ≠ 0 := by
      rw [← pins_of_lookup hl, ← h.1.pins_eq]
      exact hpos
    refine ⟨s.unpinFrame f dirty, ?_, h.1.unpinFrame hl hpos dirty hkeep, fun x hx => ?_⟩
    · simp only [BufferPool.store, unpinPage, hl, if_neg hpin]
    · obtain ⟨hlook, hpos⟩ := h.2 x hx
      refine ⟨hlook, ?_⟩
      change 0 < Function.update m.pins p (m.pins p - 1) x.1
      rw [Function.update_apply]
      split_ifs with hxp
      · have hne := hptrs x hx hxp
        rw [hxp] at hpos
        omega
      · exact hpos

theorem Sharing.run_newPage (h : Sharing held wrote c m) : ∃ m', Sharing held wrote (c.run .newPage) m' ∧ m.Keeps m' := by
  by_cases hfree : m.free = 0
  · obtain ⟨a, s, hs, hlive⟩ := newPage_refines.ok h.live (PageMap.newPage_none hfree)
    cases a with
    | some a => exact hlive.elim
    | none =>
      simp only [Clients.run, hs]
      exact ⟨m, ⟨hlive, h.pins_eq, h.pending⟩, .refl m⟩
  · obtain ⟨a, s, hs, hlive⟩ := newPage_refines.ok h.live (PageMap.newPage_ok hfree)
    cases a with
    | none => exact hlive.elim
    | some a =>
      obtain ⟨hp, -, hlive⟩ := hlive
      simp only [Clients.run, hs, hp]
      have hfresh := h.live.1.wf.pins_fresh
      refine ⟨m.alloc, h.tookPage hlive.of_cons ?_ rfl, ⟨Nat.le_succ _, fun q hq => Function.update_of_ne hq.ne _ _⟩⟩
      rw [hfresh]
      rfl

theorem Sharing.run_fetchPage (h : Sharing held wrote c m) (p : PageId) :
    ∃ m', Sharing held wrote (c.run (.fetchPage p)) m' ∧ m.Keeps m' := by
  by_cases hr : 0 ≤ p ∧ p < c.pool.disk.numPages
  · simp only [Clients.run, if_pos hr]
    rw [← h.live.1.numPages_eq] at hr
    by_cases hfree : m.pins p ≠ 0 ∨ m.free ≠ 0
    · obtain ⟨a, s, hs, hlive⟩ := (fetchPage_refines p).ok h.live (PageMap.fetchPage_ok hr hfree)
      cases a with
      | none => exact hlive.elim
      | some a =>
        simp only [hs]
        exact ⟨m.pin p, h.tookPage hlive.2.of_cons rfl rfl, ⟨le_rfl, fun _ _ => rfl⟩⟩
    · obtain ⟨a, s, hs, hlive⟩ := (fetchPage_refines p).ok h.live (PageMap.fetchPage_none hfree)
      cases a with
      | some a => exact hlive.elim
      | none =>
        simp only [hs]
        exact ⟨m, ⟨hlive, h.pins_eq, h.pending⟩, .refl m⟩
  · simp only [Clients.run, if_neg hr]
    exact ⟨m, h, .refl m⟩

theorem Sharing.run_unpinPage (h : Sharing held wrote c m) (p : PageId) (isDirty : Bool) :
    ∃ m', Sharing held wrote (c.run (.unpinPage p isDirty)) m' ∧ m.Keeps m' := by
  by_cases hok : c.pins p ≠ 0 ∧ (c.pins p = 1 → c.written p = true → isDirty = true)
  · have hpins := h.pins_eq p
    have hpos : m.pins p ≠ 0 := by omega
    -- a page of the client's own has a pin more
    have hone (hone : m.pins p = 1) : held.map Prod.fst ≠ some p := by
      intro e
      have hown : pinOf p held = 1 := if_pos e
      omega
    have hkeep (h1 : m.pins p = 1) (hpend : m.pending p = true) : isDirty = true := by
      rcases h.pending p hpend with ⟨-, e⟩ | ⟨hw, -⟩
      · exact absurd e (hone h1)
      · exact hok.2 (by omega) hw
    have hptrs : ∀ x ∈ held.toList, x.1 = p → m.pins p ≠ 1 := by
      intro x hx hxp h1
      rw [Option.mem_toList] at hx
      exact hone h1 (by rw [hx, ← hxp]; rfl)
    obtain ⟨s, hs, hlive⟩ := h.live.unpin hpos hkeep hptrs
    simp only [Clients.run, if_pos hok, hs]
    refine ⟨m.unpin p isDirty, ⟨hlive, fun q => ?_, fun q hq => ?_⟩, ⟨le_rfl, fun _ _ => rfl⟩⟩
    · change Function.update m.pins p (m.pins p - 1) q = _ + Function.update c.pins p (c.pins p - 1) q
      have hold := h.pins_eq q
      rw [Function.update_apply, Function.update_apply]
      split_ifs with hqp
      · subst hqp
        omega
      · exact hold
    · obtain ⟨hpend, hclean⟩ := PageMap.pending_unpin hq
      refine (h.pending q hpend).imp id fun hw => ⟨hw.1, ?_⟩
      change Function.update c.pins p (c.pins p - 1) q ≠ 0
      rw [Function.update_apply]
      split_ifs with hqp
      · have hlast : c.pins p ≠ 1 := fun e =>
          Bool.false_ne_true ((hclean hqp).symm.trans (hok.2 e (hqp ▸ hw.1)))
        have hsome := hok.1
        omega
      · exact hw.2
  · simp only [Clients.run, if_neg hok]
    exact ⟨m, h, .refl m⟩

theorem Sharing.run (h : Sharing held wrote c m) (call : ClientCall) :
    ∃ m', Sharing held wrote (c.run call) m' ∧ m.Keeps m' := by
  cases call with
  | newPage => exact h.run_newPage
  | fetchPage p => exact h.run_fetchPage p
  | unpinPage p isDirty => exact h.run_unpinPage p isDirty

theorem Sharing.foldl_run (h : Sharing held wrote c m) (calls : List ClientCall) :
    ∃ m', Sharing held wrote (calls.foldl Clients.run c) m' ∧ m.Keeps m' := by
  induction calls generalizing c m with
  | nil => exact ⟨m, h, .refl m⟩
  | cons call calls ih =>
    obtain ⟨m₁, h₁, hk₁⟩ := h.run call
    obtain ⟨m₂, h₂, hk₂⟩ := ih h₁
    exact ⟨m₂, h₂, hk₁.trans hk₂⟩

theorem Sharing.advance (h : Sharing held wrote c m) : ∃ m', Sharing held wrote c.advance m' ∧ m.Keeps m' := by
  unfold Clients.advance
  cases hs : c.schedule with
  | nil => exact ⟨m, h, .refl m⟩
  | cons calls schedule =>
    have h' : Sharing held wrote { c with schedule } m := ⟨h.live, h.pins_eq, h.pending⟩
    exact h'.foldl_run calls

end others

/-! ## The calls of the client -/

section calls
variable {c : Clients D n} {m m' : PageMap D} {p : PageId} {f : Fin n} {wrote : Bool}

theorem Clients.call_ok {α : Type} {x : EStateM Fault (BufferPool D n) α} {a : α} {pool : BufferPool D n}
    (h : x c.pool = .ok a pool) : Clients.call x c = .ok a { c with pool } := by
  rw [Clients.call, h]

theorem Sharing.took (h : Sharing none false c m) {pool : BufferPool D n} (hlive : Live [(p, f)] pool m')
    (hpins : m'.pins = Function.update m.pins p (m.pins p + 1)) (hpending : m'.pending = m.pending) :
    Sharing (some (p, f)) false { c with pool } m' := by
  refine ⟨hlive, fun q => ?_, fun q hq => ?_⟩
  · have hold : m.pins q = 0 + c.pins q := h.pins_eq q
    rw [hpins, Function.update_apply]
    split_ifs with hqp
    · subst hqp
      have hown : pinOf q (some (q, f)) = 1 := if_pos rfl
      change m.pins q + 1 = _ + c.pins q
      omega
    · have hother : pinOf q (some (p, f)) = 0 := if_neg fun e => hqp (Option.some.inj e).symm
      rw [hother]
      exact hold
  · rw [hpending] at hq
    exact Or.inr ((h.pending q hq).resolve_left fun e => Bool.false_ne_true e.1)

variable [Zero D]

theorem Sharing.fetchPage (h : Sharing none false c m) (hr : 0 ≤ p ∧ p < m.numPages) :
    ∃ r c' m', Clients.store.fetchPage p c = .ok r c' ∧ Sharing (r.map (p, ·)) false c' m' ∧ m.Keeps m' := by
  obtain ⟨m₁, h₁, hk⟩ := h.advance
  have hr₁ : 0 ≤ p ∧ p < m₁.numPages := ⟨hr.1, hr.2.trans_le (Int.ofNat_le.mpr hk.numPages_le)⟩
  by_cases hfree : m₁.pins p ≠ 0 ∨ m₁.free ≠ 0
  · obtain ⟨a, s, hs, hlive⟩ := (fetchPage_refines p).ok h₁.live (PageMap.fetchPage_ok hr₁ hfree)
    cases a with
    | none => exact hlive.elim
    | some f =>
      exact ⟨some f, _, m₁.pin p, Clients.call_ok hs, h₁.took hlive.2 rfl rfl, hk.trans ⟨le_rfl, fun _ _ => rfl⟩⟩
  · obtain ⟨a, s, hs, hlive⟩ := (fetchPage_refines p).ok h₁.live (PageMap.fetchPage_none hfree)
    cases a with
    | some a => exact hlive.elim
    | none => exact ⟨none, _, m₁, Clients.call_ok hs, ⟨hlive, h₁.pins_eq, h₁.pending⟩, hk⟩

theorem Sharing.newPage (h : Sharing none false c m) :
    ∃ c' m₁, m.Keeps m₁ ∧
      ((Clients.store.newPage c = .ok none c' ∧ Sharing none false c' m₁) ∨
        ∃ f, Clients.store.newPage c = .ok (some (m₁.numPages, f)) c' ∧
          Sharing (some (m₁.numPages, f)) false c' m₁.alloc) := by
  obtain ⟨m₁, h₁, hk⟩ := h.advance
  by_cases hfree : m₁.free = 0
  · obtain ⟨a, s, hs, hlive⟩ := newPage_refines.ok h₁.live (PageMap.newPage_none hfree)
    cases a with
    | some a => exact hlive.elim
    | none => exact ⟨_, m₁, hk, Or.inl ⟨Clients.call_ok hs, ⟨hlive, h₁.pins_eq, h₁.pending⟩⟩⟩
  · obtain ⟨a, s, hs, hlive⟩ := newPage_refines.ok h₁.live (PageMap.newPage_ok hfree)
    cases a with
    | none => exact hlive.elim
    | some a =>
      obtain ⟨p, f⟩ := a
      obtain ⟨rfl, -, hlive⟩ := hlive
      refine ⟨_, m₁, hk, Or.inr ⟨f, Clients.call_ok hs, h₁.took hlive ?_ rfl⟩⟩
      rw [h₁.live.1.wf.pins_fresh]
      rfl

theorem Sharing.readData (h : Sharing (some (p, f)) wrote c m) :
    Clients.store.readData f c = .ok (m.contents p) c := by
  have hdata : (c.pool.frames f).data = m.contents p := by
    rw [h.live.1.contents_eq, contents_of_lookup (h.live.2 _ List.mem_cons_self).1]
  exact congrArg (EStateM.Result.ok · c) hdata

theorem Sharing.writeData (h : Sharing (some (p, f)) wrote c m) (d : D) :
    ∃ c', Clients.store.writeData f d c = .ok () c' ∧ Sharing (some (p, f)) true c' (m.write p d) := by
  obtain ⟨_, s, hs, hlive⟩ :=
    (writeData_refines List.mem_cons_self d).ok h.live (PageMap.writeData_ok m p d)
  refine ⟨_, Clients.call_ok hs, hlive, h.pins_eq, fun q hq => ?_⟩
  by_cases hqp : q = p
  · exact Or.inl ⟨rfl, congrArg some hqp.symm⟩
  · change Function.update m.pending p true q = true at hq
    rw [Function.update_of_ne hqp] at hq
    exact (h.pending q hq).imp (fun e => ⟨rfl, e.2⟩) id

theorem Sharing.unpinPage (h : Sharing (some (p, f)) wrote c m) (dirty : Bool) (hdirty : wrote = true → dirty = true) :
    ∃ b c' m', Clients.store.unpinPage p dirty c = .ok b c' ∧ Sharing none false c' m' ∧ m.Keeps m' := by
  obtain ⟨m₁, h₁, hk⟩ := h.advance
  have hpins : m₁.pins p = 1 + c.advance.pins p := by
    rw [h₁.pins_eq]
    exact congrArg (· + _) (if_pos rfl)
  have hkeep (hone : m₁.pins p = 1) (hpend : m₁.pending p = true) : dirty = true := by
    rcases h₁.pending p hpend with ⟨hw, -⟩ | ⟨-, hother⟩
    · exact hdirty hw
    · omega
  have hlive : Live [] c.advance.pool m₁ := live_nil.mpr h₁.live.1
  have hpos : m₁.pins p ≠ 0 := by omega
  obtain ⟨s, hs, hlive'⟩ := hlive.unpin hpos hkeep (by simp)
  refine ⟨true, _, m₁.unpin p dirty, Clients.call_ok hs, ⟨hlive', fun q => ?_, fun q hq => ?_⟩,
    hk.trans ⟨le_rfl, fun _ _ => rfl⟩⟩
  · change Function.update m₁.pins p (m₁.pins p - 1) q = 0 + c.advance.pins q
    have hold := h₁.pins_eq q
    rw [Function.update_apply]
    split_ifs with hqp
    · rw [hqp]
      omega
    · have hother : pinOf q (some (p, f)) = 0 := if_neg fun e => hqp (Option.some.inj e).symm
      rw [hother] at hold
      exact hold
  · obtain ⟨hpend, hclean⟩ := PageMap.pending_unpin hq
    refine Or.inr ((h₁.pending q hpend).resolve_left ?_)
    rintro ⟨hw, e⟩
    exact Bool.false_ne_true ((hclean (Option.some.inj e).symm).symm.trans (hdirty hw))

end calls

end MyDB.Storage

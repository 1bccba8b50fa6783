import Mathlib

/-! Languages whose words denote values, put together as in EBNF, and when one
token of lookahead is enough to tell where a word ends. A signature lists the
kinds of token that can begin a word and the kinds with which a word can go on
to a longer one. -/

namespace MyDB.Lib

/-- A language: which lists of tokens are words, and what each denotes. -/
def Lang (τ α : Type) : Type := List τ → α → Prop

namespace Lang
variable {τ κ α β γ : Type}

instance : Monad (Lang τ) where
  pure a := fun us b => us = [] ∧ b = a
  bind L K := fun us b => ∃ vs ws a, us = vs ++ ws ∧ L vs a ∧ K a ws b

def empty : Lang τ α := fun _ _ => False

def tok (kind : τ → κ) (k : κ) : Lang τ τ := fun us t => us = [t] ∧ kind t = k

def alt (L M : Lang τ α) : Lang τ α := fun us a => L us a ∨ M us a

/-- The words of `L` that do not begin with a token of the kinds `ks`. -/
def without (kind : τ → κ) (ks : List κ) (L : Lang τ α) : Lang τ α :=
  fun us a => L us a ∧ ∀ t ∈ us.head?, kind t ∉ ks

/-- `{K}`, where each round takes over the value of the one before. -/
inductive Iter (K : β → Lang τ β) : β → Lang τ β
  | done (b : β) : Iter K b [] b
  | step {b c d : β} {us vs : List τ} (h : K b us c) (hs : Iter K c vs d) : Iter K b (us ++ vs) d

theorem Iter.snoc {K : β → Lang τ β} {b c d : β} {us vs : List τ} (h : Iter K b us c) (hk : K c vs d) :
    Iter K b (us ++ vs) d := by
  induction h with
  | done b =>
    have := Iter.step hk (.done d)
    rwa [List.append_nil] at this
  | step h hs ih =>
    rw [List.append_assoc]
    exact .step h (ih hk)

theorem bind_assoc (L : Lang τ α) (K : α → Lang τ β) (M : β → Lang τ γ) :
    (L >>= K) >>= M = L >>= fun a => K a >>= M := by
  funext us c
  apply propext
  constructor
  · rintro ⟨_, ws, b, rfl, ⟨us₁, us₂, a, rfl, ha, hb⟩, hc⟩
    exact ⟨us₁, us₂ ++ ws, a, List.append_assoc .., ha, us₂, ws, b, rfl, hb, hc⟩
  · rintro ⟨us₁, _, a, rfl, ha, us₂, ws, b, rfl, hb, hc⟩
    exact ⟨us₁ ++ us₂, ws, b, (List.append_assoc ..).symm, ⟨us₁, us₂, a, rfl, ha, hb⟩, hc⟩

theorem iter_eq (K : β → Lang τ β) (b : β) : Iter K b = alt (K b >>= Iter K) (pure b) := by
  funext us d
  apply propext
  constructor
  · intro h
    cases h with
    | done => exact Or.inr ⟨rfl, rfl⟩
    | step h hs => exact Or.inl ⟨_, _, _, rfl, h, hs⟩
  · rintro (⟨_, _, _, rfl, h, hs⟩ | ⟨rfl, rfl⟩)
    · exact .step h hs
    · exact .done _

def Inhabited (L : Lang τ α) : Prop := ∃ us a, L us a

theorem Inhabited.bind {L : Lang τ α} {K : α → Lang τ β} (hL : L.Inhabited) (hK : ∀ a, (K a).Inhabited) :
    (L >>= K).Inhabited := by
  obtain ⟨us, a, hu⟩ := hL
  obtain ⟨vs, b, hv⟩ := hK a
  exact ⟨us ++ vs, b, us, vs, a, rfl, hu, hv⟩

theorem inhabited_pure (a : α) : (pure a : Lang τ α).Inhabited := ⟨[], a, rfl, rfl⟩

theorem inhabited_iter (K : β → Lang τ β) (b : β) : (Iter K b).Inhabited := ⟨[], b, .done b⟩

theorem Inhabited.alt_left {L M : Lang τ α} (h : L.Inhabited) : (alt L M).Inhabited := by
  obtain ⟨us, a, hu⟩ := h
  exact ⟨us, a, Or.inl hu⟩

def First (L : Lang τ α) (t : τ) : Prop := ∃ us a, L (t :: us) a

/-- Some word goes on after `us` with `t`. -/
def Cont (L : Lang τ α) (us : List τ) (t : τ) : Prop := ∃ vs a, L (us ++ t :: vs) a

theorem cut {L : Lang τ α} {us us' xs xs' : List τ} {a a' : α} (hu : L us a) (hu' : L us' a')
    (e : us ++ xs = us' ++ xs') (hx : ∀ t vs, xs = t :: vs → ¬ L.Cont us t)
    (hx' : ∀ t vs, xs' = t :: vs → ¬ L.Cont us' t) : us = us' ∧ xs = xs' := by
  rcases List.append_eq_append_iff.mp e with ⟨ys, rfl, rfl⟩ | ⟨ys, rfl, rfl⟩
  · cases ys with
    | nil => simp only [List.append_nil, List.nil_append, and_self]
    | cons t ys => exact absurd ⟨ys, a', hu'⟩ (hx t _ rfl)
  · cases ys with
    | nil => simp only [List.append_nil, List.nil_append, and_self]
    | cons t ys => exact absurd ⟨ys, a, hu⟩ (hx' t _ rfl)

/-! ## What the words denote -/

structure Denotes (W : τ → Prop) (L : Lang τ α) (Q : α → Prop) : Prop where
  of_word : ∀ {us a}, (∀ t ∈ us, W t) → L us a → Q a

section Denotes
variable {W : τ → Prop} {L M : Lang τ α} {Q : α → Prop}

theorem denotes_pure {a : α} (h : Q a) : Denotes W (pure a) Q where
  of_word := by
    rintro us b - ⟨-, rfl⟩
    exact h

theorem denotes_empty : Denotes W (empty : Lang τ α) Q where
  of_word _ h := h.elim

theorem denotes_tok (kind : τ → κ) (k : κ) : Denotes W (tok kind k) fun t => W t ∧ kind t = k where
  of_word := by
    rintro us t hW ⟨rfl, hk⟩
    exact ⟨hW t (List.mem_singleton_self t), hk⟩

theorem Denotes.bind {K : α → Lang τ β} {R : β → Prop} (hL : Denotes W L Q) (hK : ∀ a, Q a → Denotes W (K a) R) :
    Denotes W (L >>= K) R where
  of_word := by
    rintro us b hW ⟨vs, ws, a, rfl, hv, hw⟩
    have ha := hL.of_word (fun t ht => hW t (List.mem_append_left ws ht)) hv
    exact (hK a ha).of_word (fun t ht => hW t (List.mem_append_right vs ht)) hw

theorem Denotes.alt (hL : Denotes W L Q) (hM : Denotes W M Q) : Denotes W (alt L M) Q where
  of_word := by
    rintro us a hW (h | h)
    · exact hL.of_word hW h
    · exact hM.of_word hW h

theorem denotes_iter {K : β → Lang τ β} {R : β → Prop} (hK : ∀ b, R b → Denotes W (K b) R) {b : β} (hb : R b) :
    Denotes W (Iter K b) R where
  of_word := by
    intro us d hW h
    induction h with
    | done => exact hb
    | @step b c d us vs h _ ih =>
      have hc := (hK b hb).of_word (fun t ht => hW t (List.mem_append_left vs ht)) h
      exact ih hc fun t ht => hW t (List.mem_append_right us ht)

end Denotes

end Lang

structure Alphabet (τ κ : Type) where
  kind : τ → κ
  Wf : τ → Prop

structure Sig (κ : Type) where
  first : List κ
  cont : List κ
  nullable : Bool

namespace Sig
variable {κ : Type}

def pure : Sig κ := ⟨[], [], true⟩

def tok (k : κ) : Sig κ := ⟨[k], [], false⟩

def bind (s s' : Sig κ) : Sig κ :=
  ⟨s.first ++ (if s.nullable then s'.first else []), s'.cont ++ (if s'.nullable then s.cont else []),
    s.nullable && s'.nullable⟩

def alt (s s' : Sig κ) : Sig κ :=
  ⟨s.first ++ s'.first,
    s.cont ++ s'.cont ++ (if s.nullable then s'.first else []) ++ (if s'.nullable then s.first else []),
    s.nullable || s'.nullable⟩

def without [DecidableEq κ] (ks : List κ) (s : Sig κ) : Sig κ :=
  ⟨s.first.filter (· ∉ ks), s.cont, s.nullable⟩

def iter (k : κ) (s : Sig κ) : Sig κ := ⟨[k], k :: s.cont, true⟩

def Le (s s' : Sig κ) : Prop :=
  (∀ k ∈ s.first, k ∈ s'.first) ∧ (∀ k ∈ s.cont, k ∈ s'.cont) ∧ s.nullable = s'.nullable

instance [DecidableEq κ] (s s' : Sig κ) : Decidable (s.Le s') := inferInstanceAs (Decidable (_ ∧ _ ∧ _))

def Apart (ks ks' : List κ) : Prop := ∀ k ∈ ks, k ∉ ks'

instance [DecidableEq κ] (ks ks' : List κ) : Decidable (Apart ks ks') :=
  inferInstanceAs (Decidable (∀ k ∈ ks, k ∉ ks'))

end Sig

/-- The words of at most `n` tokens keep to the signature `s`, and denote one value each. -/
structure LL {τ κ α : Type} (A : Alphabet τ κ) (n : Nat) (L : Lang τ α) (s : Sig κ) : Prop where
  first : ∀ {t us a}, us.length < n → L (t :: us) a → A.kind t ∈ s.first
  cont : ∀ {us t vs a b}, us.length + vs.length < n → L us a → L (us ++ t :: vs) b → A.kind t ∈ s.cont
  nullable : (∃ a, L [] a) ↔ s.nullable = true
  det : ∀ {us a b}, us.length ≤ n → L us a → L us b → a = b
  wf : ∀ {us a}, us.length ≤ n → L us a → ∀ t ∈ us, A.Wf t

namespace LL
variable {τ κ α β : Type} {A : Alphabet τ κ} {n : Nat} {L M : Lang τ α} {s s' : Sig κ}

theorem null (h : LL A n L s) {a : α} (ha : L [] a) : s.nullable = true := h.nullable.mp ⟨a, ha⟩

theorem mono (h : LL A n L s) (hle : s.Le s') : LL A n L s' where
  first hn hw := hle.1 _ (h.first hn hw)
  cont hn hu hv := hle.2.1 _ (h.cont hn hu hv)
  nullable := hle.2.2 ▸ h.nullable
  det := h.det
  wf := h.wf

theorem of_le {m : Nat} (h : LL A n L s) (hm : m ≤ n) : LL A m L s where
  first hn hw := h.first (hn.trans_le hm) hw
  cont hn hu hv := h.cont (hn.trans_le hm) hu hv
  nullable := h.nullable
  det hn := h.det (hn.trans hm)
  wf hn := h.wf (hn.trans hm)

theorem pure (a : α) : LL A n (Pure.pure a : Lang τ α) .pure where
  first := by rintro t us b - ⟨h, -⟩; cases h
  cont := by
    rintro us t vs b c - - ⟨h, -⟩
    exact absurd h (by simp)
  nullable := ⟨fun _ => rfl, fun _ => ⟨a, rfl, rfl⟩⟩
  det := by
    rintro us b c - ⟨-, rfl⟩ ⟨-, rfl⟩
    rfl
  wf := by
    rintro us b - ⟨rfl, -⟩ t ht
    cases ht

theorem empty : LL A n (Lang.empty : Lang τ α) ⟨[], [], false⟩ where
  first _ h := h.elim
  cont _ h := h.elim
  nullable := ⟨fun h => h.elim fun _ h => h.elim, Bool.noConfusion⟩
  det _ h := h.elim
  wf _ h := h.elim

theorem tok {k : κ} (hwf : ∀ t, A.kind t = k → A.Wf t) : LL A n (Lang.tok A.kind k) (.tok k) where
  first := by
    rintro t us a - ⟨h, rfl⟩
    cases h
    exact List.mem_singleton_self _
  cont := by
    rintro us t vs a b - ⟨rfl, -⟩ ⟨h, -⟩
    cases h
  nullable := by
    refine ⟨?_, Bool.noConfusion⟩
    rintro ⟨a, h, -⟩
    cases h
  det := by
    rintro us a b - ⟨rfl, -⟩ ⟨h, -⟩
    cases h
    rfl
  wf := by
    rintro us a - ⟨rfl, hk⟩ t ht
    obtain rfl := List.mem_singleton.mp ht
    exact hwf _ hk

theorem cut {K : α → Lang τ β} (hL : LL A n L s) (hK : ∀ a, LL A n (K a) s')
    (hap : Sig.Apart s.cont s'.first) {us us' xs vs' : List τ} {a a' : α} {b' : β} (hu : L us a)
    (hu' : L us' a') (hv' : K a' vs' b') (e : us ++ xs = us' ++ vs') (hn : (us ++ xs).length ≤ n)
    (hx : ∀ t ts, xs = t :: ts → A.kind t ∉ s.cont) : us = us' ∧ xs = vs' := by
  have hn' : (us' ++ vs').length ≤ n := e ▸ hn
  rw [List.length_append] at hn hn'
  -- words longer than the list at hand say nothing here, so the language is cut down to `n`
  let L' : Lang τ α := fun ws c => ws.length ≤ n ∧ L ws c
  refine Lang.cut (L := L') ⟨by omega, hu⟩ ⟨by omega, hu'⟩ e ?_ ?_
  · rintro t ts rfl ⟨ws, c, hlen, hw⟩
    rw [List.length_append, List.length_cons] at hlen
    exact hx t ts rfl (hL.cont (by omega) hu hw)
  · rintro t ts rfl ⟨ws, c, hlen, hw⟩
    rw [List.length_append, List.length_cons] at hlen
    rw [List.length_cons] at hn'
    exact hap _ (hL.cont (by omega) hu' hw) ((hK a').first (by omega) hv')

theorem head_notMem_cont {K : α → Lang τ β} (hK : ∀ a, LL A n (K a) s')
    (hap : Sig.Apart s.cont s'.first) {vs : List τ} {a : α} {b : β} (hv : K a vs b) (hn : vs.length ≤ n) :
    ∀ t ts, vs = t :: ts → A.kind t ∉ s.cont := by
  rintro t ts rfl hmem
  exact hap _ hmem ((hK a).first hn hv)

theorem bind {K : α → Lang τ β} (hL : LL A n L s) (hK : ∀ a, LL A n (K a) s')
    (hap : Sig.Apart s.cont s'.first) : LL A n (L >>= K) (s.bind s') where
  first := by
    rintro t us b hn ⟨vs, ws, a, e, hv, hw⟩
    cases vs with
    | nil =>
      rw [List.nil_append] at e
      subst e
      simp only [Sig.bind, hL.null hv, if_true]
      exact List.mem_append_right _ ((hK a).first hn hw)
    | cons t' vs =>
      rw [List.cons_append, List.cons.injEq] at e
      obtain ⟨rfl, rfl⟩ := e
      rw [List.length_append] at hn
      exact List.mem_append_left _ (hL.first (by omega) hv)
  cont := by
    rintro _ t ts b b' hn ⟨us, vs, a, rfl, hu, hv⟩ ⟨us', vs', a', e, hu', hv'⟩
    rw [List.length_append] at hn
    have hlen : (us ++ (vs ++ t :: ts)).length ≤ n := by
      simp only [List.length_append, List.length_cons]
      omega
    by_cases hend : vs = [] ∧ A.kind t ∈ s.cont
    · obtain ⟨rfl, ht⟩ := hend
      simp only [Sig.bind, (hK a).null hv, if_true]
      exact List.mem_append_right _ ht
    · have hx : ∀ x xs, vs ++ t :: ts = x :: xs → A.kind x ∉ s.cont := by
        intro x xs hxs
        cases vs with
        | nil =>
          cases hxs
          exact fun h => hend ⟨rfl, h⟩
        | cons y ys =>
          cases hxs
          rw [List.length_cons] at hn
          exact head_notMem_cont hK hap hv (by rw [List.length_cons]; omega) _ _ rfl
      rw [List.append_assoc] at e
      obtain ⟨rfl, rfl⟩ := cut hL hK hap hu hu' hv' e hlen hx
      obtain rfl := hL.det (by omega) hu hu'
      exact List.mem_append_left _ ((hK a).cont (by omega) hv hv')
  nullable := by
    rw [Sig.bind, Bool.and_eq_true]
    constructor
    · rintro ⟨b, vs, ws, a, e, hv, hw⟩
      obtain ⟨rfl, rfl⟩ := List.append_eq_nil_iff.mp e.symm
      exact ⟨hL.null hv, (hK a).null hw⟩
    · rintro ⟨h, h'⟩
      obtain ⟨a, ha⟩ := hL.nullable.mpr h
      obtain ⟨b, hb⟩ := (hK a).nullable.mpr h'
      exact ⟨b, [], [], a, rfl, ha, hb⟩
  det := by
    rintro _ b b' hn ⟨us, vs, a, rfl, hu, hv⟩ ⟨us', vs', a', e, hu', hv'⟩
    have hn' := hn
    rw [List.length_append] at hn'
    obtain ⟨rfl, rfl⟩ := cut hL hK hap hu hu' hv' e hn (head_notMem_cont hK hap hv (by omega))
    obtain rfl := hL.det (by omega) hu hu'
    exact (hK a).det (by omega) hv hv'
  wf := by
    rintro _ b hn ⟨us, vs, a, rfl, hu, hv⟩ t ht
    rw [List.length_append] at hn
    rcases List.mem_append.mp ht with ht | ht
    · exact hL.wf (by omega) hu t ht
    · exact (hK a).wf (by omega) hv t ht

theorem tok_bind {k : κ} {K : τ → Lang τ β} (hwf : ∀ t, A.kind t = k → A.Wf t)
    (hK : ∀ t, 0 < n → LL A (n - 1) (K t) s) : LL A n (Lang.tok A.kind k >>= K) ((Sig.tok k).bind s) where
  first := by
    rintro t us b - ⟨_, ws, t', e, ⟨rfl, rfl⟩, -⟩
    cases e
    exact List.mem_singleton_self _
  cont := by
    rintro _ t ts b b' hn ⟨_, vs, x, rfl, ⟨rfl, -⟩, hv⟩ ⟨_, vs', x', e, ⟨rfl, -⟩, hv'⟩
    cases e
    rw [List.singleton_append, List.length_cons] at hn
    exact List.mem_append_left _ ((hK x (by omega)).cont (by omega) hv hv')
  nullable := by
    refine ⟨?_, Bool.noConfusion⟩
    rintro ⟨b, _, ws, t, e, ⟨rfl, -⟩, -⟩
    cases e
  det := by
    rintro _ b b' hn ⟨_, vs, x, rfl, ⟨rfl, -⟩, hv⟩ ⟨_, vs', x', e, ⟨rfl, -⟩, hv'⟩
    cases e
    rw [List.singleton_append, List.length_cons] at hn
    exact (hK x (by omega)).det (by omega) hv hv'
  wf := by
    rintro _ b hn ⟨_, vs, x, rfl, ⟨rfl, hx⟩, hv⟩ t ht
    rw [List.singleton_append, List.length_cons] at hn
    rcases List.mem_cons.mp ht with rfl | ht
    · exact hwf _ hx
    · exact (hK x (by omega)).wf (by omega) hv t ht

theorem alt (hL : LL A n L s) (hM : LL A n M s') (hap : Sig.Apart s.first s'.first)
    (hnull : s.nullable = false ∨ s'.nullable = false) : LL A n (Lang.alt L M) (s.alt s') where
  first := by
    rintro t us a hn (h | h)
    · exact List.mem_append_left _ (hL.first hn h)
    · exact List.mem_append_right _ (hM.first hn h)
  cont := by
    rintro us t vs a b hn (hu | hu) (hv | hv)
    · simp only [Sig.alt, List.mem_append, hL.cont hn hu hv, true_or]
    · cases us with
      | nil =>
        simp only [Sig.alt, hL.null hu, if_true, List.mem_append, hM.first (by simpa using hn) hv,
          or_true, true_or]
      | cons x xs =>
        rw [List.length_cons] at hn
        have hlen : (xs ++ t :: vs).length < n := by
          rw [List.length_append, List.length_cons]
          omega
        exact absurd (hM.first hlen hv) (hap _ (hL.first (by omega) hu))
    · cases us with
      | nil =>
        simp only [Sig.alt, hM.null hu, if_true, List.mem_append, hL.first (by simpa using hn) hv, or_true]
      | cons x xs =>
        rw [List.length_cons] at hn
        have hlen : (xs ++ t :: vs).length < n := by
          rw [List.length_append, List.length_cons]
          omega
        exact absurd (hM.first (by omega) hu) (hap _ (hL.first hlen hv))
    · simp only [Sig.alt, List.mem_append, hM.cont hn hu hv, or_true, true_or]
  nullable := by
    rw [Sig.alt, Bool.or_eq_true, ← hL.nullable, ← hM.nullable]
    exact exists_or
  det := by
    -- a word of both languages is empty, for their first tokens differ, and not both have it
    have both : ∀ {us a b}, us.length ≤ n → L us a → M us b → False := by
      intro us a b hn hu hv
      cases us with
      | nil =>
        rcases hnull with h | h
        · exact Bool.noConfusion (h.symm.trans (hL.null hu))
        · exact Bool.noConfusion (h.symm.trans (hM.null hv))
      | cons t ts => exact hap _ (hL.first hn hu) (hM.first hn hv)
    rintro us a b hn (hu | hu) (hv | hv)
    · exact hL.det hn hu hv
    · exact (both hn hu hv).elim
    · exact (both hn hv hu).elim
    · exact hM.det hn hu hv
  wf := by
    rintro us a hn (h | h)
    · exact hL.wf hn h
    · exact hM.wf hn h

theorem without [DecidableEq κ] {ks : List κ} (hL : LL A n L s) :
    LL A n (Lang.without A.kind ks L) (s.without ks) where
  first := by
    rintro t us a hn ⟨h, hk⟩
    exact List.mem_filter.mpr ⟨hL.first hn h, decide_eq_true (hk t rfl)⟩
  cont := fun hn hu hv => hL.cont hn hu.1 hv.1
  nullable := by
    change _ ↔ s.nullable = true
    rw [← hL.nullable]
    exact exists_congr fun a => ⟨And.left, fun h => ⟨h, by simp⟩⟩
  det := fun hn hu hv => hL.det hn hu.1 hv.1
  wf := fun hn hu => hL.wf hn hu.1

theorem iter {k : κ} {K : β → Lang τ β} (hwf : ∀ t, A.kind t = k → A.Wf t)
    (hK : ∀ b m, m ≤ n → LL A m (K b) s) (hap : k ∉ s.cont) (b : β) :
    LL A n (Lang.Iter (fun b => Lang.tok A.kind k >>= fun _ => K b) b) (.iter k s) := by
  induction n using Nat.strong_induction_on generalizing b with
  | _ n ih =>
    rw [Lang.iter_eq, Lang.bind_assoc]
    have hround : ∀ _ : τ, 0 < n → LL A (n - 1)
        (K b >>= Lang.Iter fun b => Lang.tok A.kind k >>= fun _ => K b) (s.bind (.iter k s)) := by
      intro _ hpos
      refine bind (hK b _ (Nat.sub_le ..)) (fun c => ?_) ?_
      · exact ih _ (by omega) (fun b m hm => hK b m (hm.trans (Nat.sub_le ..))) c
      · intro k' hk' hmem
        obtain rfl := List.mem_singleton.mp hmem
        exact hap hk'
    refine (alt (tok_bind hwf hround) (pure b) ?_ (Or.inl rfl)).mono ⟨?_, ?_, rfl⟩
    · intro k' _ hmem
      cases hmem
    · simp [Sig.alt, Sig.bind, Sig.tok, Sig.pure, Sig.iter]
    · simp [Sig.alt, Sig.bind, Sig.tok, Sig.pure, Sig.iter]
      tauto

end LL

end MyDB.Lib

import MyDB.Lib.Lang
import MyDB.Lib.Refinement

/-! Parsers with one token of lookahead. Such a parser, run on a list of tokens,
returns exactly when a word of its language begins the list and cannot go on
with the token after it. The rules follow the parser's code. -/

namespace MyDB.Lib
open Lang
variable {ε τ κ α β : Type}

/-- On lists of at most `n` well-formed tokens `p` returns with `t` next exactly
if it has read a word that does not go on with `t`. -/
structure Reads (A : Alphabet τ κ) (n : Nat) (p : EStateM ε (List τ) α) (L : Lang τ α) (s : Sig κ) :
    Prop where
  ll : ∀ m, LL A m L s
  run_iff : ∀ {inp a t rest}, inp.length ≤ n → (∀ x ∈ inp, A.Wf x) → (p inp = .ok a (t :: rest) ↔
    ∃ us, inp = us ++ t :: rest ∧ L us a ∧ ¬ L.Cont us t)

namespace Reads
variable {A : Alphabet τ κ} {n : Nat} {p q x : EStateM ε (List τ) α} {L M : Lang τ α} {s s' : Sig κ}

theorem mono (h : Reads A n p L s) (hle : s.Le s') : Reads A n p L s' :=
  ⟨fun m => (h.ll m).mono hle, h.run_iff⟩

theorem of_le {m : Nat} (h : Reads A n p L s) (hm : m ≤ n) : Reads A m p L s :=
  ⟨h.ll, fun hn => h.run_iff (hn.trans hm)⟩

theorem zero (hll : ∀ m, LL A m L s) (hnil : ∀ a rest, p [] ≠ .ok a rest) : Reads A 0 p L s where
  ll := hll
  run_iff := by
    intro inp a t rest hn _
    obtain rfl : inp = [] := List.length_eq_zero_iff.mp (Nat.le_zero.mp hn)
    exact ⟨fun h => absurd h (hnil _ _), fun ⟨us, e, _⟩ => absurd e (by simp)⟩

theorem pure (a : α) : Reads A n (Pure.pure a : EStateM ε (List τ) α) (Pure.pure a) .pure where
  ll _ := LL.pure a
  run_iff := by
    intro inp b t rest _ _
    constructor
    · intro h
      cases h
      refine ⟨[], rfl, ⟨rfl, rfl⟩, ?_⟩
      rintro ⟨vs, c, h, -⟩
      cases h
    · rintro ⟨_, rfl, ⟨rfl, rfl⟩, -⟩
      rfl

theorem fails (hp : ∀ inp a rest, p inp ≠ .ok a rest) : Reads A n p Lang.empty ⟨[], [], false⟩ where
  ll _ := LL.empty
  run_iff := fun _ _ => ⟨fun h => absurd h (hp _ _ _), fun ⟨_, _, h, _⟩ => h.elim⟩

theorem tok {p : EStateM ε (List τ) τ} {k : κ} (hwf : ∀ t, A.kind t = k → A.Wf t)
    (hp : ∀ {inp a rest}, p inp = .ok a rest ↔ inp = a :: rest ∧ A.kind a = k) :
    Reads A n p (Lang.tok A.kind k) (.tok k) where
  ll _ := LL.tok hwf
  run_iff := by
    intro inp a t rest _ _
    rw [hp]
    constructor
    · rintro ⟨rfl, hk⟩
      refine ⟨[a], rfl, ⟨rfl, hk⟩, ?_⟩
      rintro ⟨vs, b, h, -⟩
      cases h
    · rintro ⟨_, rfl, ⟨rfl, hk⟩, -⟩
      exact ⟨rfl, hk⟩

theorem bind {f : α → EStateM ε (List τ) β} {K : α → Lang τ β} (hp : Reads A n p L s)
    (hf : ∀ a, Reads A n (f a) (K a) s') (hap : Sig.Apart s.cont s'.first) :
    Reads A n (p >>= f) (L >>= K) (s.bind s') where
  ll m := LL.bind (hp.ll m) (fun a => (hf a).ll m) hap
  run_iff := by
    -- no word of `L` goes on with a token that begins what comes next
    have hnext : ∀ {us a x xs b}, L us a → K a (x :: xs) b → ¬ L.Cont us x := by
      rintro us a x xs b hu hk ⟨ws, c, hw⟩
      refine hap _ ((hp.ll _).cont (Nat.lt_succ_self _) hu hw) (((hf a).ll _).first (Nat.lt_succ_self _) hk)
    intro inp b t rest hn hwf
    constructor
    · intro h
      cases hrun : p inp with
      | error e r =>
        rw [bind_error hrun] at h
        cases h
      | ok a mid =>
        rw [bind_ok hrun] at h
        cases mid with
        | nil =>
          have hempty : ([] : List τ).length ≤ n := Nat.zero_le n
          obtain ⟨vs, e, -⟩ := ((hf a).run_iff hempty (by simp)).mp h
          exact absurd e (by simp)
        | cons t' mid =>
          obtain ⟨us, rfl, hu, hstop⟩ := (hp.run_iff hn hwf).mp hrun
          rw [List.length_append] at hn
          obtain ⟨vs, e, hv, hstop'⟩ := ((hf a).run_iff (by omega)
            (fun x hx => hwf x (List.mem_append_right _ hx))).mp h
          refine ⟨us ++ vs, by rw [e, List.append_assoc], ⟨us, vs, a, rfl, hu, hv⟩, ?_⟩
          rintro ⟨ws, b', us', vs', a', e', hu', hv'⟩
          rw [List.append_assoc] at e'
          have hhead : ∀ x xs, vs ++ t :: ws = x :: xs → ¬ L.Cont us x := by
            intro x xs hxs
            have : x = t' := by
              cases vs with
              | nil =>
                cases hxs
                cases e
                rfl
              | cons y ys =>
                cases hxs
                cases e
                rfl
            rwa [this]
          obtain ⟨rfl, rfl⟩ := Lang.cut hu hu' e' hhead
            (fun x xs hxs => hnext hu' (hxs ▸ hv'))
          obtain rfl := (hp.ll _).det le_rfl hu hu'
          exact hstop' ⟨ws, b', hv'⟩
    · rintro ⟨_, rfl, ⟨us, vs, a, rfl, hu, hv⟩, hstop⟩
      rw [List.append_assoc] at hn hwf ⊢
      have hrun : p (us ++ (vs ++ t :: rest)) = .ok a (vs ++ t :: rest) := by
        cases vs with
        | nil =>
          refine (hp.run_iff hn hwf).mpr ⟨us, rfl, hu, ?_⟩
          rintro ⟨ws, c, hw⟩
          obtain ⟨b', hb'⟩ := ((hf c).ll 0).nullable.mpr (((hf a).ll 0).null hv)
          refine hstop ⟨ws, b', us ++ t :: ws, [], c, ?_, hw, hb'⟩
          rw [List.append_nil, List.append_nil]
        | cons y ys => exact (hp.run_iff hn hwf).mpr ⟨us, rfl, hu, hnext hu hv⟩
      rw [bind_ok hrun]
      rw [List.length_append] at hn
      refine ((hf a).run_iff (by omega) fun x hx => hwf x (List.mem_append_right _ hx)).mpr
        ⟨vs, rfl, hv, ?_⟩
      rintro ⟨ws, b', hw⟩
      exact hstop ⟨ws, b', us, vs ++ t :: ws, a, List.append_assoc .., hu, hw⟩

theorem without [DecidableEq κ] {ks : List κ} (hp : Reads A n p L s)
    (hx : ∀ t rest, A.kind t ∉ ks → x (t :: rest) = p (t :: rest))
    (hx' : ∀ inp a rest, (∀ t ∈ inp.head?, A.kind t ∈ ks) → x inp ≠ .ok a rest)
    (hnull : s.nullable = false) : Reads A n x (Lang.without A.kind ks L) (s.without ks) where
  ll m := (hp.ll m).without
  run_iff := by
    have hne : ∀ {a}, ¬ L [] a := fun h => Bool.noConfusion (hnull.symm.trans ((hp.ll 0).null h))
    intro inp a t rest hn hwf
    cases inp with
    | nil => exact ⟨fun h => absurd h (hx' _ _ _ (by simp)), fun ⟨us, e, _⟩ => absurd e (by simp)⟩
    | cons h inp =>
      by_cases hk : A.kind h ∈ ks
      · refine ⟨fun hrun => absurd hrun (hx' _ _ _ (by simpa using hk)), ?_⟩
        rintro ⟨us, e, ⟨hu, hhead⟩, -⟩
        cases us with
        | nil => exact absurd hu hne
        | cons y ys =>
          cases e
          exact absurd hk (hhead h rfl)
      · rw [hx h inp hk, hp.run_iff hn hwf]
        refine exists_congr fun us => ?_
        constructor
        · rintro ⟨e, hu, hstop⟩
          refine ⟨e, ⟨hu, ?_⟩, fun ⟨ws, b, hw⟩ => hstop ⟨ws, b, hw.1⟩⟩
          cases us with
          | nil => simp
          | cons y ys =>
            cases e
            simpa using hk
        · rintro ⟨e, ⟨hu, hhead⟩, hstop⟩
          refine ⟨e, hu, ?_⟩
          rintro ⟨ws, b, hw⟩
          cases us with
          | nil => exact hne hu
          | cons y ys => exact hstop ⟨ws, b, hw, by simpa using hhead⟩

theorem choose [DecidableEq κ] (ks : List κ)
    (hx : ∀ t rest, x (t :: rest) = if A.kind t ∈ ks then p (t :: rest) else q (t :: rest))
    (hnil : ∀ a rest, x [] ≠ .ok a rest) (hp : Reads A n p L s) (hq : Reads A n q M s')
    (hnull : s.nullable = false) (hsub : ∀ k ∈ s.first, k ∈ ks) (hap : Sig.Apart ks s'.first)
    (hall : s'.nullable = false ∨ ∀ t, A.kind t ∈ ks → L.First t) :
    Reads A n x (alt L M) (s.alt s') where
  ll m := LL.alt (hp.ll m) (hq.ll m) (fun k hk => hap k (hsub k hk)) (Or.inl hnull)
  run_iff := by
    have hfirst : ∀ {t us a}, L (t :: us) a → A.kind t ∈ ks := fun h =>
      hsub _ ((hp.ll _).first (Nat.lt_succ_self _) h)
    have hfirst' : ∀ {t us a}, A.kind t ∈ ks → ¬ M (t :: us) a := fun hk h =>
      hap _ hk ((hq.ll _).first (Nat.lt_succ_self _) h)
    have hne : ∀ {a}, ¬ L [] a := fun h => Bool.noConfusion (hnull.symm.trans ((hp.ll 0).null h))
    intro inp a t rest hn hwf
    cases inp with
    | nil => exact ⟨fun h => absurd h (hnil _ _), fun ⟨us, e, _⟩ => absurd e (by simp)⟩
    | cons h inp =>
      rw [hx]
      split_ifs with hk
      · rw [hp.run_iff hn hwf]
        constructor
        · rintro ⟨us, e, hu, hstop⟩
          refine ⟨us, e, Or.inl hu, ?_⟩
          cases us with
          | nil => exact absurd hu hne
          | cons y ys =>
            cases e
            rintro ⟨ws, b, hw | hw⟩
            · exact hstop ⟨ws, b, hw⟩
            · exact hfirst' hk hw
        · rintro ⟨us, e, hu, hstop⟩
          cases us with
          | nil =>
            cases e
            rcases hu with hu | hu
            · exact absurd hu hne
            · rcases hall with hnl | hall
              · exact absurd (hnl.symm.trans ((hq.ll 0).null hu)) (by decide)
              · obtain ⟨ws, b, hw⟩ := hall t hk
                exact absurd ⟨ws, b, Or.inl hw⟩ hstop
          | cons y ys =>
            cases e
            rcases hu with hu | hu
            · exact ⟨_, rfl, hu, fun ⟨ws, b, hw⟩ => hstop ⟨ws, b, Or.inl hw⟩⟩
            · exact absurd hu (hfirst' hk)
      · rw [hq.run_iff hn hwf]
        constructor
        · rintro ⟨us, e, hu, hstop⟩
          refine ⟨us, e, Or.inr hu, ?_⟩
          rintro ⟨ws, b, hw | hw⟩
          · cases us with
            | nil =>
              cases e
              exact hk (hfirst hw)
            | cons y ys =>
              cases e
              exact hk (hfirst hw)
          · exact hstop ⟨ws, b, hw⟩
        · rintro ⟨us, e, hu | hu, hstop⟩
          · cases us with
            | nil => exact absurd hu hne
            | cons y ys =>
              cases e
              exact absurd (hfirst hu) hk
          · exact ⟨us, e, hu, fun ⟨ws, b, hw⟩ => hstop ⟨ws, b, Or.inr hw⟩⟩

theorem tok_bind {k : κ} {f : EStateM ε (List τ) α} (hwf : ∀ t, A.kind t = k → A.Wf t)
    (hp : ∀ {inp a rest}, p inp = .ok a rest ↔ ∃ t r, inp = t :: r ∧ A.kind t = k ∧ f r = .ok a rest)
    (hf : Reads A (n - 1) f L s) :
    Reads A n p (Lang.tok A.kind k >>= fun _ => L) ((Sig.tok k).bind s) where
  ll m := LL.tok_bind hwf fun _ _ => hf.ll _
  run_iff := by
    intro inp a t rest hn hw
    rw [hp]
    constructor
    · rintro ⟨y, r, rfl, hk, hr⟩
      obtain ⟨us, rfl, hu, hstop⟩ := (hf.run_iff (Nat.le_sub_one_of_lt hn)
        fun x hx => hw x (List.mem_cons_of_mem _ hx)).mp hr
      refine ⟨y :: us, rfl, ⟨[y], us, y, rfl, ⟨rfl, hk⟩, hu⟩, ?_⟩
      rintro ⟨ws, b, _, vs, z, e, ⟨rfl, -⟩, hv⟩
      cases e
      exact hstop ⟨ws, b, hv⟩
    · rintro ⟨_, rfl, ⟨_, us, y, rfl, ⟨rfl, hk⟩, hu⟩, hstop⟩
      refine ⟨y, us ++ t :: rest, rfl, hk, ?_⟩
      refine (hf.run_iff (Nat.le_sub_one_of_lt hn) fun x hx => hw x (List.mem_cons_of_mem _ hx)).mpr
        ⟨us, rfl, hu, ?_⟩
      rintro ⟨ws, b, hv⟩
      exact hstop ⟨ws, b, [y], us ++ t :: ws, y, rfl, ⟨rfl, hk⟩, hv⟩

def takeTok [DecidableEq κ] (A : Alphabet τ κ) (k : κ) (f : EStateM ε (List τ) α)
    (other : EStateM.Result ε (List τ) α) : EStateM ε (List τ) α
  | [] => other
  | t :: r => if A.kind t = k then f r else other

theorem takeTok_eq_ok [DecidableEq κ] {k : κ} {f : EStateM ε (List τ) α} {other : EStateM.Result ε (List τ) α}
    (hother : ∀ a rest, other ≠ .ok a rest) {inp : List τ} {a : α} {rest : List τ} :
    takeTok A k f other inp = .ok a rest ↔ ∃ t r, inp = t :: r ∧ A.kind t = k ∧ f r = .ok a rest := by
  cases inp with
  | nil =>
    constructor
    · exact fun h => absurd h (hother a rest)
    · rintro ⟨t, r, e, -⟩
      cases e
  | cons t r =>
    rw [takeTok]
    split_ifs with hk
    · constructor
      · exact fun h => ⟨t, r, rfl, hk, h⟩
      · rintro ⟨t', r', e, -, h⟩
        cases e
        exact h
    · constructor
      · exact fun h => absurd h (hother a rest)
      · rintro ⟨t', r', e, hk', -⟩
        cases e
        exact absurd hk' hk

theorem ifMatch [DecidableEq κ] {k : κ} {f : EStateM ε (List τ) α} (hwf : ∀ t, A.kind t = k → A.Wf t)
    (hx : ∀ t rest, x (t :: rest) = if A.kind t = k then f rest else q (t :: rest))
    (hnil : ∀ a rest, x [] ≠ .ok a rest) (hf : Reads A (n - 1) f L s) (hq : Reads A n q M s')
    (hap : k ∉ s'.first) (hall : s'.nullable = false ∨ L.Inhabited) :
    Reads A n x (alt (Lang.tok A.kind k >>= fun _ => L) M) (((Sig.tok k).bind s).alt s') := by
  -- `x []` stands for the failure of a program that only the token `k` takes further
  refine choose [k] (p := takeTok A k f (x [])) ?_ hnil (tok_bind hwf (takeTok_eq_ok hnil) hf) hq rfl ?_ ?_ ?_
  · intro t rest
    rw [hx]
    simp only [List.mem_singleton]
    split_ifs with hk
    · rw [takeTok, if_pos hk]
    · rfl
  · exact fun _ h => h
  · intro k' hk'
    obtain rfl := List.mem_singleton.mp hk'
    exact hap
  · refine hall.imp id ?_
    rintro ⟨us, a, hu⟩ t ht
    exact ⟨us, a, [t], us, t, rfl, ⟨rfl, List.mem_singleton.mp ht⟩, hu⟩

theorem loop [DecidableEq κ] {k : κ} {x : Nat → β → EStateM ε (List τ) β}
    {body : β → EStateM ε (List τ) β} {K : β → Lang τ β} (hwf : ∀ t, A.kind t = k → A.Wf t)
    (hx : ∀ fuel b t rest, x (fuel + 1) b (t :: rest) =
      if A.kind t = k then (body b >>= x fuel) rest else .ok b (t :: rest))
    (hnil : ∀ fuel b a rest, x fuel b [] ≠ .ok a rest) (hbody : ∀ b, Reads A n (body b) (K b) s)
    (hap : k ∉ s.cont) (hall : ∀ b, (K b).Inhabited) {fuel : Nat} (hfuel : n ≤ fuel) (b : β) :
    Reads A n (x fuel b) (Iter (fun b => Lang.tok A.kind k >>= fun _ => K b) b) (.iter k s) := by
  have hll : ∀ b m, LL A m (Iter (fun b => Lang.tok A.kind k >>= fun _ => K b) b) (.iter k s) :=
    fun b m => LL.iter hwf (fun b m' _ => (hbody b).ll m') hap b
  refine ⟨hll b, ?_⟩
  induction fuel generalizing n b with
  | zero =>
    intro inp a t rest hn _
    obtain rfl : inp = [] := List.length_eq_zero_iff.mp (by omega)
    exact ⟨fun h => absurd h (hnil _ _ _ _), fun ⟨us, e, _⟩ => absurd e (by simp)⟩
  | succ fuel ih =>
    have hrest : ∀ c, Reads A (n - 1) (x fuel c)
        (Iter (fun b => Lang.tok A.kind k >>= fun _ => K b) c) (.iter k s) := fun c =>
      ⟨hll c, ih (fun b => (hbody b).of_le (Nat.sub_le ..)) (by omega) c⟩
    have hround := bind ((hbody b).of_le (Nat.sub_le n 1)) hrest
      (fun k' hk' hmem => hap (List.mem_singleton.mp hmem ▸ hk'))
    have hwhole := ifMatch (x := x (fuel + 1) b) (q := Pure.pure b) hwf (hx fuel b) (hnil _ b)
      hround (pure b) List.not_mem_nil (Or.inr ((hall b).bind fun c => inhabited_iter _ c))
    rw [iter_eq, bind_assoc]
    intro inp a t rest
    exact hwhole.run_iff

theorem sized {f : Nat → EStateM ε (List τ) α} (h : ∀ m, m ≤ n → Reads A m (f m) L s)
    (hx : ∀ inp, x inp = f inp.length inp) : Reads A n x L s where
  ll := (h 0 (Nat.zero_le n)).ll
  run_iff := by
    intro inp a t rest hn hwf
    rw [hx]
    exact (h inp.length hn).run_iff le_rfl hwf

end Reads

end MyDB.Lib

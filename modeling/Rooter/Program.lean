import Mathlib.Logic.Basic

/-!
# Programs over a state that may stop with an error

Rules for one run of such a program, and for two runs of it.  A program *respects* a
relation between states when two runs of it from related states end in the same way:
with the same error, or with the same value and in related states again.  A part of
the state that the relation leaves open has then no influence on what it returns.
A run *settles* when it is known both when it stops with an error and what it
returns otherwise.
-/

namespace Rooter.Program

variable {σ ε α β : Type}

/-! ### One run -/

section Run

variable {m : StateT σ (Except ε) α} {k : α → StateT σ (Except ε) β} {s t u : σ}

@[simp] theorem run_pure (a : α) (s : σ) : (pure a : StateT σ (Except ε) α) s = .ok (a, s) := rfl

@[simp] theorem run_throw (e : ε) (s : σ) :
    (throw e : StateT σ (Except ε) α) s = .error e := rfl

@[simp] theorem run_modify (f : σ → σ) (s : σ) :
    (modify f : StateT σ (Except ε) PUnit) s = .ok (⟨⟩, f s) := rfl

@[simp] theorem run_get (s : σ) : (get : StateT σ (Except ε) σ) s = .ok (s, s) := rfl

@[simp] theorem run_lift_ok (a : α) (s : σ) :
    (liftM (Except.ok a : Except ε α) : StateT σ (Except ε) α) s = .ok (a, s) := rfl

theorem run_bind_of_ok {a : α} (h : m s = .ok (a, t)) : (m >>= k) s = k a t := by
  change (m s >>= fun p => k p.1 p.2) = _
  rw [h]
  rfl

theorem run_modify_bind (f : σ → σ) (k : PUnit → StateT σ (Except ε) β) (s : σ) :
    (modify f >>= k) s = k ⟨⟩ (f s) := rfl

theorem run_bind_of_error {e : ε} (h : m s = .error e) : (m >>= k) s = .error e := by
  change (m s >>= fun p => k p.1 p.2) = _
  rw [h]
  rfl

theorem run_bind_eq_ok {b : β} :
    (m >>= k) s = .ok (b, u) ↔ ∃ a t, m s = .ok (a, t) ∧ k a t = .ok (b, u) := by
  cases hm : m s with
  | error e => simp [run_bind_of_error hm]
  | ok p =>
    obtain ⟨a, t⟩ := p
    rw [run_bind_of_ok hm]
    constructor
    · intro h
      exact ⟨a, t, rfl, h⟩
    · rintro ⟨a', t', heq, h⟩
      cases heq
      exact h

end Run

/-! ### When a run stops -/

section Settles

/-- An error exactly when `bad` holds, and a value with `post` otherwise. -/
def Settles (bad : Prop) (x : Except ε α) (post : α → Prop) : Prop :=
  match x with
  | .error _ => bad
  | .ok a => ¬ bad ∧ post a

variable {bad bad' : Prop} {x : Except ε α} {post post' : α → Prop}

theorem Settles.imp (h : Settles bad x post) (hbad : bad ↔ bad')
    (hpost : ∀ a, post a → post' a) : Settles bad' x post' := by
  cases x with
  | error e => exact hbad.mp h
  | ok a => exact ⟨fun hb => h.1 (hbad.mpr hb), hpost a h.2⟩

theorem Settles.exists_ok (h : Settles bad x post) (hgood : ¬ bad) : ∃ a, x = .ok a ∧ post a := by
  cases x with
  | error e => exact absurd h hgood
  | ok a => exact ⟨a, rfl, h.2⟩

theorem Settles.of_ok (h : Settles bad x post) {a : α} (hx : x = .ok a) : ¬ bad ∧ post a := by
  subst hx
  exact h

/-- **The rule for a sequence**: a stop of the first part is a stop of the whole. -/
theorem Settles.bind {f : α → Except ε β} {post' : β → Prop} (hx : Settles bad x post)
    (hstop : bad → bad') (hf : ¬ bad → ∀ a, post a → Settles bad' (f a) post') :
    Settles bad' (x >>= f) post' := by
  cases x with
  | error e => exact hstop hx
  | ok a => exact hf hx.1 a hx.2

theorem settles_bind {m : StateT σ (Except ε) α} {k : α → StateT σ (Except ε) β} {s : σ}
    {post : α × σ → Prop} {post' : β × σ → Prop} (hm : Settles bad (m s) post)
    (hstop : bad → bad') (hk : ¬ bad → ∀ a t, post (a, t) → Settles bad' (k a t) post') :
    Settles bad' ((m >>= k) s) post' :=
  hm.bind hstop fun hgood p hp => hk hgood p.1 p.2 hp

end Settles

/-! ### Two runs -/

section TwoRuns

variable {R : σ → σ → Prop}

def Agree (R : σ → σ → Prop) : Except ε (α × σ) → Except ε (α × σ) → Prop
  | .ok (a, s), .ok (b, t) => a = b ∧ R s t
  | .error e, .error e' => e = e'
  | _, _ => False

theorem Agree.cases {x y : Except ε (α × σ)} (h : Agree R x y) :
    (∃ e, x = .error e ∧ y = .error e) ∨
      ∃ a s t, x = .ok (a, s) ∧ y = .ok (a, t) ∧ R s t := by
  match x, y, h with
  | .error e, .error _, rfl => exact .inl ⟨e, rfl, rfl⟩
  | .ok (a, s), .ok (_, t), ⟨rfl, hR⟩ => exact .inr ⟨a, s, t, rfl, rfl, hR⟩

def Respects (R : σ → σ → Prop) (m : StateT σ (Except ε) α) : Prop :=
  ∀ s t, R s t → Agree R (m s) (m t)

theorem respects_pure (a : α) : Respects R (pure a : StateT σ (Except ε) α) :=
  fun _ _ h => ⟨rfl, h⟩

theorem respects_throw (e : ε) : Respects R (throw e : StateT σ (Except ε) α) :=
  fun _ _ _ => rfl

theorem respects_modify {f : σ → σ} (hf : ∀ s t, R s t → R (f s) (f t)) :
    Respects R (modify f : StateT σ (Except ε) PUnit) :=
  fun s t h => ⟨rfl, hf s t h⟩

theorem respects_lift (x : Except ε α) : Respects R (liftM x : StateT σ (Except ε) α) := by
  intro s t h
  cases x with
  | error e => rfl
  | ok a => exact ⟨rfl, h⟩

theorem Agree.bind {x y : Except ε (α × σ)} {f g : α × σ → Except ε (β × σ)} (hxy : Agree R x y)
    (hfg : ∀ a s t, R s t → Agree R (f (a, s)) (g (a, t))) : Agree R (x >>= f) (y >>= g) := by
  match x, y, hxy with
  | .ok (a, s), .ok (_, t), ⟨rfl, h⟩ => exact hfg a s t h
  | .error e, .error _, rfl => rfl

theorem respects_bind {m : StateT σ (Except ε) α} {k : α → StateT σ (Except ε) β}
    (hm : Respects R m) (hk : ∀ a, Respects R (k a)) : Respects R (m >>= k) :=
  fun s t h => (hm s t h).bind hk

/-- Reading the state: the continuation may use it as far as the relation determines it. -/
theorem respects_get {k : σ → StateT σ (Except ε) β}
    (hk : ∀ s t, R s t → Agree R (k s s) (k t t)) : Respects R (get >>= k) :=
  hk

end TwoRuns

end Rooter.Program

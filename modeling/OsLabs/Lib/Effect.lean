-- SUMMARY: Programs that update a state and may panic, their weakest preconditions, and the rules for sequencing, for parts of the state, for counted loops, and for what a program leaves alone.
import Mathlib.Logic.Basic

/-!
# Effectful programs

`Effect σ ε α` is a C function over a global state `σ` that returns an `α` or panics
with an `ε`. A panic keeps the state it happened in.

`wp m Q E s` says that `m` started in `s` ends in `Q` or panics in `E`. Proofs about
programs rewrite with `wp_bind` and apply the specification of each called function
through `wp.mono`.
-/

/-- A computation on a global state `σ` that may panic with `ε`. -/
abbrev Effect (σ ε α : Type) := ExceptT ε (StateM σ) α

namespace Effect

variable {σ ε α β : Type}

/-- The outcome of `m` started in `s`, and the state it leaves. -/
def exec (m : Effect σ ε α) (s : σ) : Except ε α × σ := (ExceptT.run m).run s

theorem exec_bind (m : Effect σ ε α) (f : α → Effect σ ε β) (s : σ) :
    exec (m >>= f) s = match exec m s with
      | (.ok a, s')    => exec (f a) s'
      | (.error e, s') => (.error e, s') := by
  simp only [exec, bind, ExceptT.bind, ExceptT.mk, ExceptT.run, StateT.run, StateT.bind]
  rcases m s with ⟨r, s'⟩
  cases r <;> rfl

/-- Started in `s`, `m` returns with `Q` or panics with `E`. -/
def wp (m : Effect σ ε α) (Q : α → σ → Prop) (E : ε → σ → Prop) (s : σ) : Prop :=
  match exec m s with
  | (.ok a, s')    => Q a s'
  | (.error e, s') => E e s'

theorem wp.mono {m : Effect σ ε α} {Q Q' : α → σ → Prop} {E E' : ε → σ → Prop} {s : σ}
    (h : wp m Q E s) (hQ : ∀ a s', Q a s' → Q' a s') (hE : ∀ e s', E e s' → E' e s') :
    wp m Q' E' s := by
  unfold wp at *
  split at h
  · exact hQ _ _ h
  · exact hE _ _ h

theorem wp.ok {m : Effect σ ε α} {Q : α → σ → Prop} {E : ε → σ → Prop} {s s' : σ} {a : α}
    (h : wp m Q E s) (hm : exec m s = (.ok a, s')) : Q a s' := by
  simpa only [wp, hm] using h

theorem wp.error {m : Effect σ ε α} {Q : α → σ → Prop} {E : ε → σ → Prop} {s s' : σ} {e : ε}
    (h : wp m Q E s) (hm : exec m s = (.error e, s')) : E e s' := by
  simpa only [wp, hm] using h

/-- Use one specification to prove another. -/
theorem wp.mp {m : Effect σ ε α} {P Q : α → σ → Prop} {P' E : ε → σ → Prop} {s : σ}
    (h : wp m P P' s)
    (hm : wp m (fun a s' => P a s' → Q a s') (fun e s' => P' e s' → E e s') s) : wp m Q E s := by
  unfold wp at *
  rcases hexec : exec m s with ⟨r, s'⟩
  rw [hexec] at h hm
  cases r with
  | ok a => exact hm h
  | error e => exact hm h

/-- A program whose specification allows no panic returns. -/
theorem wp.exists_ok {m : Effect σ ε α} {Q : α → σ → Prop} {s : σ}
    (h : wp m Q (fun _ _ => False) s) : ∃ a s', exec m s = (.ok a, s') ∧ Q a s' := by
  rcases hexec : exec m s with ⟨r, s'⟩
  cases r with
  | ok a => exact ⟨a, s', rfl, h.ok hexec⟩
  | error e => exact (h.error hexec).elim

/-! ## Sequencing -/

@[simp] theorem wp_pure {a : α} {Q : α → σ → Prop} {E : ε → σ → Prop} {s : σ} :
    wp (pure a : Effect σ ε α) Q E s ↔ Q a s := Iff.rfl

@[simp] theorem wp_throw {e : ε} {Q : α → σ → Prop} {E : ε → σ → Prop} {s : σ} :
    wp (throw e : Effect σ ε α) Q E s ↔ E e s := Iff.rfl

@[simp] theorem wp_get {Q : σ → σ → Prop} {E : ε → σ → Prop} {s : σ} :
    wp (get : Effect σ ε σ) Q E s ↔ Q s s := Iff.rfl

@[simp] theorem wp_modify {f : σ → σ} {Q : Unit → σ → Prop} {E : ε → σ → Prop} {s : σ} :
    wp (modify f : Effect σ ε Unit) Q E s ↔ Q () (f s) := Iff.rfl

@[simp] theorem wp_bind {m : Effect σ ε α} {f : α → Effect σ ε β} {Q : β → σ → Prop}
    {E : ε → σ → Prop} {s : σ} :
    wp (m >>= f) Q E s ↔ wp m (fun a s' => wp (f a) Q E s') E s := by
  simp only [wp, exec_bind]
  rcases exec m s with ⟨r, s'⟩
  cases r <;> exact Iff.rfl

@[simp] theorem wp_ite {c : Prop} [Decidable c] {m m' : Effect σ ε α} {Q : α → σ → Prop}
    {E : ε → σ → Prop} {s : σ} :
    wp (if c then m else m') Q E s ↔ (c → wp m Q E s) ∧ (¬ c → wp m' Q E s) := by
  by_cases hc : c <;> simp [hc]

/-! ## A part of the state -/

/-- Run `m` on the part of a larger state that `view` reads and `put` writes. -/
def zoom {τ : Type} (view : τ → σ) (put : σ → τ → τ) (m : Effect σ ε α) : Effect τ ε α :=
  ExceptT.mk fun t => ((exec m (view t)).1, put (exec m (view t)).2 t)

@[simp] theorem wp_zoom {τ : Type} {view : τ → σ} {put : σ → τ → τ} {m : Effect σ ε α}
    {Q : α → τ → Prop} {E : ε → τ → Prop} {t : τ} :
    wp (zoom view put m) Q E t ↔
      wp m (fun a s => Q a (put s t)) (fun e s => E e (put s t)) (view t) := by
  have hexec : exec (zoom view put m) t = ((exec m (view t)).1, put (exec m (view t)).2 t) := rfl
  simp only [wp, hexec]
  rcases exec m (view t) with ⟨r, s⟩
  cases r <;> exact Iff.rfl

/-! ## Counted loops -/

/-- Run `body 0`, …, `body (n - 1)`. -/
def upto : Nat → (Nat → Effect σ ε Unit) → Effect σ ε Unit
  | 0, _        => pure ()
  | n + 1, body => do
      upto n body
      body n

/-- The loop rule: the invariant `I` counts the rounds that are done. -/
theorem wp_upto {body : Nat → Effect σ ε Unit} {I : Nat → σ → Prop} {E : ε → σ → Prop} {n : Nat}
    {s : σ} (h₀ : I 0 s)
    (hbody : ∀ i < n, ∀ s', I i s' → wp (body i) (fun _ s'' => I (i + 1) s'') E s') :
    wp (upto n body) (fun _ s' => I n s') E s := by
  induction n with
  | zero => exact h₀
  | succ n ih =>
      rw [upto, wp_bind]
      refine (ih fun i hi => hbody i (by omega)).mono ?_ fun _ _ hE => hE
      intro _ s' hI
      exact hbody n (by omega) s' hI

/-- The loop rule with a postcondition of its own. -/
theorem wp_upto_of {body : Nat → Effect σ ε Unit} (I : Nat → σ → Prop) {Q : Unit → σ → Prop}
    {E : ε → σ → Prop} {n : Nat} {s : σ} (h₀ : I 0 s)
    (hbody : ∀ i < n, ∀ s', I i s' → wp (body i) (fun _ s'' => I (i + 1) s'') E s')
    (hQ : ∀ s', I n s' → Q () s') : wp (upto n body) Q E s :=
  (wp_upto h₀ hbody).mono (fun _ s' => hQ s') fun _ _ => id

@[simp] theorem wp_upto_one {body : Nat → Effect σ ε Unit} {Q : Unit → σ → Prop}
    {E : ε → σ → Prop} {s : σ} : wp (upto 1 body) Q E s ↔ wp (body 0) Q E s := by
  simp [upto]

-- Unification should not unroll loops.
attribute [irreducible] upto

/-! ## What a program leaves alone -/

section Maintains

variable {P : σ → Prop}

/-- Whether `m` returns or panics, `P` holds afterwards if it held before. -/
def Maintains (P : σ → Prop) (m : Effect σ ε α) : Prop :=
  ∀ s, P s → wp m (fun _ => P) (fun _ => P) s

theorem maintains_pure (a : α) : Maintains P (pure a : Effect σ ε α) := fun _ => id

theorem maintains_throw (e : ε) : Maintains P (throw e : Effect σ ε α) := fun _ => id

/-- Nothing is run after a panic. -/
theorem maintains_throw_bind (e : ε) (k : α → Effect σ ε β) :
    Maintains P ((throw e : Effect σ ε α) >>= k) := fun _ => id

theorem maintains_modify {g : σ → σ} (h : ∀ s, P s → P (g s)) :
    Maintains P (modify g : Effect σ ε Unit) := h

theorem Maintains.bind {m : Effect σ ε α} {k : α → Effect σ ε β} (hm : Maintains P m)
    (hk : ∀ a, Maintains P (k a)) : Maintains P (m >>= k) := by
  intro s hs
  rw [wp_bind]
  refine (hm s hs).mono ?_ fun _ _ => id
  intro a s₁ h₁
  exact hk a s₁ h₁

theorem Maintains.ite {c : Prop} [Decidable c] {m m' : Effect σ ε α} (hm : Maintains P m)
    (hm' : Maintains P m') : Maintains P (if c then m else m') := by
  split
  · exact hm
  · exact hm'

theorem Maintains.upto {body : Nat → Effect σ ε Unit} {n : Nat}
    (h : ∀ i < n, Maintains P (body i)) : Maintains P (upto n body) := by
  intro s hs
  exact wp_upto (I := fun _ => P) hs fun i hi s' hs' => h i hi s' hs'

end Maintains

section Keeps

variable {τ : Type} {f : σ → τ}

/-- Whether `m` returns or panics, `f` reads the same off the state afterwards. -/
def Keeps (f : σ → τ) (m : Effect σ ε α) : Prop :=
  ∀ s, wp m (fun _ s' => f s' = f s) (fun _ s' => f s' = f s) s

/-- To keep `f` is to maintain whatever value it has. -/
theorem keeps_iff {m : Effect σ ε α} : Keeps f m ↔ ∀ c, Maintains (fun s => f s = c) m := by
  constructor
  · rintro h c s rfl
    exact h s
  · intro h s
    exact h (f s) s rfl

/-- What depends on `f` only is maintained. -/
theorem Keeps.maintains {m : Effect σ ε α} {P : σ → Prop} (h : Keeps f m)
    (hP : ∀ s s', f s' = f s → P s → P s') : Maintains P m := by
  intro s hs
  refine (h s).mono ?_ ?_
  · intro _ s' hs'
    exact hP s s' hs' hs
  · intro _ s' hs'
    exact hP s s' hs' hs

theorem keeps_pure (a : α) : Keeps f (pure a : Effect σ ε α) := fun _ => rfl

theorem keeps_throw (e : ε) : Keeps f (throw e : Effect σ ε α) := fun _ => rfl

theorem keeps_throw_bind (e : ε) (k : α → Effect σ ε β) :
    Keeps f ((throw e : Effect σ ε α) >>= k) := fun _ => rfl

theorem keeps_get : Keeps f (get : Effect σ ε σ) := fun _ => rfl

theorem keeps_modify {g : σ → σ} (h : ∀ s, f (g s) = f s) :
    Keeps f (modify g : Effect σ ε Unit) := h

/-- A part of the state that is not written is kept. -/
theorem keeps_zoom {ρ : Type} {view : σ → ρ} {put : ρ → σ → σ} (h : ∀ r s, f (put r s) = f s)
    (m : Effect ρ ε α) : Keeps f (zoom view put m) := by
  intro s
  rw [wp_zoom]
  unfold wp
  split
  · exact h _ s
  · exact h _ s

theorem Keeps.bind {m : Effect σ ε α} {k : α → Effect σ ε β} (hm : Keeps f m)
    (hk : ∀ a, Keeps f (k a)) : Keeps f (m >>= k) :=
  keeps_iff.mpr fun c => (keeps_iff.mp hm c).bind fun a => keeps_iff.mp (hk a) c

theorem Keeps.ite {c : Prop} [Decidable c] {m m' : Effect σ ε α} (hm : Keeps f m)
    (hm' : Keeps f m') : Keeps f (if c then m else m') := by
  split
  · exact hm
  · exact hm'

theorem Keeps.upto {body : Nat → Effect σ ε Unit} (h : ∀ i, Keeps f (body i)) (n : Nat) :
    Keeps f (upto n body) :=
  keeps_iff.mpr fun c => .upto fun i _ => keeps_iff.mp (h i) c

end Keeps

end Effect

-- SUMMARY: Labelled transition systems: recorded runs, reachability, and the induction rules every safety and temporal proof goes through.
import Mathlib.Data.List.Forall2
import Mathlib.Data.List.Induction

/-!
# Labelled transition systems

A system is a set of initial states and a labelled step relation. A *run*
records, for every step, the state it was taken from and its label, so that a
condition on the steps of a run can mention both.

The rules of this file are `Run.invariant`, for what holds as long as the steps of
a run meet a condition, `Run.history`, for what relates a state to the steps that
led to it, `Reachable.invariant`, for what holds in every reachable state, and
`Run.since` with its converse `Run.exists_since`, for what holds from one event
until another. `Since` says of a recorded run that an event happened and no other has
happened after it.
-/

/-- A labelled transition system with states `σ` and labels `ε`. -/
structure TransitionSystem (σ ε : Type) where
  init : σ → Prop
  step : σ → ε → σ → Prop

namespace TransitionSystem

variable {σ ε : Type} {M : TransitionSystem σ ε}

/-- `M.Run s tr s'`: the steps recorded in `tr`, oldest first, lead from `s` to
    `s'`. An entry of `tr` is the state before a step together with its label. -/
inductive Run (M : TransitionSystem σ ε) : σ → List (σ × ε) → σ → Prop
  | nil (s : σ) : Run M s [] s
  | snoc {s t u : σ} {tr : List (σ × ε)} {e : ε} :
      Run M s tr t → M.step t e u → Run M s (tr ++ [(t, e)]) u

/-- Runs also grow at the front. -/
theorem Run.cons {s t u : σ} {e : ε} {tr : List (σ × ε)} (hs : M.step s e t)
    (h : M.Run t tr u) : M.Run s ((s, e) :: tr) u := by
  induction h with
  | nil => exact (Run.nil s).snoc hs
  | snoc _ hs' ih => exact ih.snoc hs'

theorem Run.trans {s t u : σ} {tr tr' : List (σ × ε)} (h : M.Run s tr t) (h' : M.Run t tr' u) :
    M.Run s (tr ++ tr') u := by
  induction h' with
  | nil => simpa using h
  | snoc _ hs ih =>
      rw [← List.append_assoc]
      exact ih.snoc hs

/-- The steps that are made along given choices, and the state they lead to. -/
def follow {χ : Type} (next : σ → χ → Option (ε × σ)) : List χ → σ → Option (List (σ × ε) × σ)
  | [], s      => some ([], s)
  | c :: cs, s => do
      let (e, s') ← next s c
      let (tr, u) ← follow next cs s'
      some ((s, e) :: tr, u)

theorem run_of_follow {χ : Type} {next : σ → χ → Option (ε × σ)}
    (hM : ∀ s c e s', next s c = some (e, s') → M.step s e s') {cs : List χ} {s s' : σ}
    {tr : List (σ × ε)} (h : follow next cs s = some (tr, s')) : M.Run s tr s' := by
  induction cs generalizing s tr with
  | nil =>
      cases h
      exact .nil _
  | cons c cs ih =>
      simp only [follow, Option.bind_eq_bind, Option.bind_eq_some_iff] at h
      obtain ⟨⟨e, s₁⟩, hnext, ⟨tr₁, s₂⟩, hfollow, hs⟩ := h
      cases hs
      exact .cons (hM _ _ _ _ hnext) (ih hfollow)

/-- A run along given choices, with what a test finds out about it. -/
theorem exists_run_of_follow {χ : Type} {next : σ → χ → Option (ε × σ)}
    (hM : ∀ s c e s', next s c = some (e, s') → M.step s e s') (cs : List χ) (s : σ)
    (p : List (σ × ε) → σ → Bool) (h : ((follow next cs s).any fun r => p r.1 r.2) = true) :
    ∃ tr u, M.Run s tr u ∧ p tr u = true := by
  obtain ⟨r, hr, hp⟩ := (Option.any_eq_true _ _).mp h
  exact ⟨r.1, r.2, run_of_follow hM hr, hp⟩

/-- The steps that a step function makes along given labels. -/
def play (step : σ → ε → Option σ) : List ε → σ → Option (List (σ × ε) × σ) :=
  follow fun s e => (step s e).map fun s' => (e, s')

theorem run_of_play {step : σ → ε → Option σ} (hM : ∀ s e s', step s e = some s' → M.step s e s')
    {es : List ε} {s s' : σ} {tr : List (σ × ε)} (h : play step es s = some (tr, s')) :
    M.Run s tr s' := by
  refine run_of_follow (fun s e e' s' hstep => ?_) h
  obtain ⟨u, hu, hpair⟩ := Option.map_eq_some_iff.mp hstep
  cases hpair
  exact hM _ _ _ hu

theorem play_labels {step : σ → ε → Option σ} {es : List ε} {s s' : σ} {tr : List (σ × ε)}
    (h : play step es s = some (tr, s')) : tr.map Prod.snd = es := by
  induction es generalizing s tr with
  | nil =>
      cases h
      rfl
  | cons e es ih =>
      simp only [play, follow, Option.bind_eq_bind, Option.bind_eq_some_iff,
        Option.map_eq_some_iff] at h
      obtain ⟨_, ⟨s₁, -, rfl⟩, ⟨tr₁, s₂⟩, hplay, hs⟩ := h
      cases hs
      rw [List.map_cons, ih hplay]

/-- A run along given labels, with what a test finds out about it. -/
theorem exists_run_of_play {step : σ → ε → Option σ}
    (hM : ∀ s e s', step s e = some s' → M.step s e s') (es : List ε) (s : σ)
    (p : List (σ × ε) → σ → Bool) (h : ((play step es s).any fun r => p r.1 r.2) = true) :
    ∃ tr u, M.Run s tr u ∧ tr.map Prod.snd = es ∧ p tr u = true := by
  obtain ⟨r, hr, hp⟩ := (Option.any_eq_true _ _).mp h
  exact ⟨r.1, r.2, run_of_play hM hr, play_labels hr, hp⟩

/-- The states some run reaches from an initial state. -/
def Reachable (M : TransitionSystem σ ε) (s : σ) : Prop :=
  ∃ s₀ tr, M.init s₀ ∧ M.Run s₀ tr s

theorem Reachable.init {s : σ} (h : M.init s) : M.Reachable s :=
  ⟨s, [], h, .nil s⟩

theorem Reachable.step {s s' : σ} {e : ε} (h : M.Reachable s) (hs : M.step s e s') :
    M.Reachable s' := by
  obtain ⟨s₀, tr, h₀, hrun⟩ := h
  exact ⟨s₀, tr ++ [(s, e)], h₀, hrun.snoc hs⟩

/-- What holds at the start of a run and what every step that meets `G` preserves
    holds at the end, if all recorded steps meet `G`. -/
theorem Run.invariant {I : σ → Prop} {G : σ × ε → Prop} {s s' : σ} {tr : List (σ × ε)}
    (h : M.Run s tr s') (hs : I s) (hG : ∀ q ∈ tr, G q)
    (hstep : ∀ t e t', G (t, e) → I t → M.step t e t' → I t') : I s' := by
  induction h with
  | nil => exact hs
  | snoc _ hlast ih =>
      exact hstep _ _ _ (hG _ (by simp)) (ih fun q hq => hG q (by simp [hq])) hlast

/-- What holds of a run without steps and what every further step preserves holds of every
    run. The predicate may speak about the steps taken so far. -/
theorem Run.history {I : List (σ × ε) → σ → Prop} {s s' : σ} {tr : List (σ × ε)}
    (h : M.Run s tr s') (hs : I [] s)
    (hstep : ∀ tr t e t', M.Run s tr t → I tr t → M.step t e t' → I (tr ++ [(t, e)]) t') :
    I tr s' := by
  induction h with
  | nil => exact hs
  | snoc hr hlast ih => exact hstep _ _ _ _ hr ih hlast

/-- A predicate that holds initially and that every step from a reachable state
    preserves holds in every reachable state. -/
theorem Reachable.invariant {I : σ → Prop} {s : σ} (h : M.Reachable s)
    (h₀ : ∀ s, M.init s → I s)
    (hstep : ∀ s e s', M.Reachable s → I s → M.step s e s' → I s') : I s := by
  obtain ⟨s₀, tr, hi, hrun⟩ := h
  induction hrun with
  | nil => exact h₀ _ hi
  | snoc hr hs ih => exact hstep _ _ _ ⟨_, _, hi, hr⟩ ih hs

theorem Run.nil_inv {s u : σ} (h : M.Run s [] u) : u = s := by
  generalize hl : ([] : List (σ × ε)) = l at h
  cases h with
  | nil => rfl
  | snoc hr hs => simp at hl

/-- A run that ends with the step `(t, e)` reached `t` first. -/
theorem Run.snoc_inv {s u : σ} {tr : List (σ × ε)} {p : σ × ε}
    (h : M.Run s (tr ++ [p]) u) : M.Run s tr p.1 ∧ M.step p.1 p.2 u := by
  generalize hl : tr ++ [p] = l at h
  cases h with
  | nil => simp at hl
  | snoc hr hs =>
      obtain ⟨rfl, hp⟩ := List.append_inj' hl rfl
      cases hp
      exact ⟨hr, hs⟩

/-- Two runs side by side: if steps with the same observable part `op` from related states are
    the same step and lead to related states, then runs that look the same from related states
    are the same runs, and pass through related states only. -/
theorem Run.lockstep {α : Type} {R : σ → σ → Prop} (op : ε → α)
    (hstep : ∀ s₁ s₂ e₁ e₂ t₁ t₂, R s₁ s₂ → M.step s₁ e₁ t₁ → M.step s₂ e₂ t₂ →
      op e₁ = op e₂ → e₁ = e₂ ∧ R t₁ t₂)
    {s₁ s₂ u₁ u₂ : σ} {tr₁ tr₂ : List (σ × ε)} (h₁ : M.Run s₁ tr₁ u₁) (h₂ : M.Run s₂ tr₂ u₂)
    (hR : R s₁ s₂) (hop : (tr₁.map fun q => op q.2) = tr₂.map fun q => op q.2) :
    List.Forall₂ (fun q₁ q₂ => q₁.2 = q₂.2 ∧ R q₁.1 q₂.1) tr₁ tr₂ ∧ R u₁ u₂ := by
  induction h₁ generalizing tr₂ u₂ with
  | nil =>
      obtain rfl : tr₂ = [] := by simpa using hop.symm
      obtain rfl := h₂.nil_inv
      exact ⟨.nil, hR⟩
  | @snoc t u tr e _ hs ih =>
      rw [List.map_append] at hop
      obtain ⟨tr', last, rfl, htr, hlast⟩ := List.map_eq_append_iff.mp hop.symm
      obtain ⟨q, rfl, hq⟩ : ∃ q, last = [q] ∧ op q.2 = op e := by
        simpa [List.map_eq_singleton_iff] using hlast
      obtain ⟨hr₂, hs₂⟩ := h₂.snoc_inv
      obtain ⟨hall, ht⟩ := ih hr₂ htr.symm
      obtain ⟨heq, hu⟩ := hstep _ _ _ _ _ _ ht hs hs₂ hq.symm
      exact ⟨List.rel_append hall (.cons ⟨heq, ht⟩ .nil), hu⟩

/-- A recorded step is a step of the system, taken from the state the run had
    reached with the steps before it. -/
theorem Run.split {s u : σ} {pre post : List (σ × ε)} {p : σ × ε}
    (h : M.Run s (pre ++ p :: post) u) :
    ∃ t, M.Run s pre p.1 ∧ M.step p.1 p.2 t := by
  induction post using List.reverseRecOn generalizing u with
  | nil =>
      obtain ⟨hr, hs⟩ := h.snoc_inv
      exact ⟨u, hr, hs⟩
  | append_singleton post q ih =>
      have hq : pre ++ p :: (post ++ [q]) = (pre ++ p :: post) ++ [q] := by simp
      rw [hq] at h
      exact ih h.snoc_inv.1

/-- Every state in which a run takes a step is reachable. -/
theorem Run.mem_reachable {s u : σ} {tr : List (σ × ε)} {p : σ × ε}
    (h : M.Run s tr u) (h₀ : M.init s) (hp : p ∈ tr) :
    M.Reachable p.1 ∧ ∃ t, M.step p.1 p.2 t := by
  obtain ⟨pre, post, rfl⟩ := List.append_of_mem hp
  obtain ⟨t, hr, hs⟩ := h.split
  exact ⟨⟨s, pre, h₀, hr⟩, t, hs⟩

/-- A quantity that a step changes by at most one passes through every value between its
    first and its last one. -/
theorem Run.exists_between {I : σ → Prop} {f : σ → Int}
    (hI : ∀ t e t', I t → M.step t e t' → I t')
    (hf : ∀ t e t', I t → M.step t e t' → f t' ≤ f t + 1 ∧ f t ≤ f t' + 1)
    {s u : σ} {tr : List (σ × ε)} (h : M.Run s tr u) (hs : I s) {v : Int}
    (hv : f s ≤ v ∧ v ≤ f u ∨ f u ≤ v ∧ v ≤ f s) : f u = v ∨ ∃ q ∈ tr, f q.1 = v := by
  induction h with
  | nil => exact .inl (by omega)
  | @snoc t u tr e hr hstep ih =>
      have ht : I t := hr.invariant hs (G := fun _ => True) (fun _ _ => trivial)
        fun t e t' _ => hI t e t'
      have hle := hf t e u ht hstep
      by_cases hnow : f u = v
      · exact .inl hnow
      · -- `v` is not passed by the last step
        rcases ih (by omega) with htv | ⟨q, hq, hqv⟩
        · exact .inr ⟨(t, e), by simp, htv⟩
        · exact .inr ⟨q, by simp [hq], hqv⟩

/-- `Since P Q l`: some entry of `l` meets `P`, and all entries after it meet `Q`. -/
def Since {α : Type} (P Q : α → Prop) (l : List α) : Prop :=
  ∃ pre a post, l = pre ++ a :: post ∧ P a ∧ ∀ b ∈ post, Q b

theorem not_since_nil {α : Type} {P Q : α → Prop} : ¬ Since P Q [] := by
  rintro ⟨pre, a, post, h, -⟩
  simp at h

theorem since_snoc {α : Type} {P Q : α → Prop} {l : List α} {a : α} :
    Since P Q (l ++ [a]) ↔ P a ∨ Since P Q l ∧ Q a := by
  constructor
  · rintro ⟨pre, b, post, hl, hb, hpost⟩
    induction post using List.reverseRecOn with
    | nil =>
        obtain ⟨-, hab⟩ := List.append_inj' hl rfl
        cases hab
        exact .inl hb
    | append_singleton post c _ =>
        rw [← List.cons_append, ← List.append_assoc] at hl
        obtain ⟨rfl, hac⟩ := List.append_inj' hl rfl
        cases hac
        exact .inr ⟨⟨pre, b, post, rfl, hb, fun d hd => hpost d (by simp [hd])⟩,
          hpost a (by simp)⟩
  · rintro (ha | ⟨⟨pre, b, post, rfl, hb, hpost⟩, ha⟩)
    · exact ⟨l, a, [], rfl, ha, by simp⟩
    · refine ⟨pre, b, post ++ [a], by simp, hb, ?_⟩
      intro c hc
      rcases List.mem_append.mp hc with hc | hc
      · exact hpost c hc
      · rw [List.mem_singleton.mp hc]
        exact ha

/-- What a `start` step establishes and every step other than a `stop` step
    keeps holds from a `start` step on, until a `stop` step. -/
theorem Run.since (P : σ → Prop) (start stop : ε → Prop)
    (hstart : ∀ s e s', M.Reachable s → M.step s e s' → start e → P s')
    (hkeep : ∀ s e s', M.Reachable s → M.step s e s' → P s → ¬ stop e → P s')
    {s₀ s : σ} {pre mid : List (σ × ε)} {p : σ × ε}
    (h : M.Run s₀ (pre ++ p :: mid) s) (h₀ : M.init s₀) (hp : start p.2)
    (hmid : ∀ q ∈ mid, ¬ stop q.2) : P s := by
  induction mid using List.reverseRecOn generalizing s with
  | nil =>
      obtain ⟨hr, hs⟩ := h.snoc_inv
      exact hstart _ _ _ ⟨_, _, h₀, hr⟩ hs hp
  | append_singleton mid q ih =>
      have hq : pre ++ p :: (mid ++ [q]) = (pre ++ p :: mid) ++ [q] := by simp
      rw [hq] at h
      obtain ⟨hr, hs⟩ := h.snoc_inv
      have hP : P q.1 := ih hr fun r hr' => hmid r (by simp [hr'])
      exact hkeep _ _ _ ⟨_, _, h₀, hr⟩ hs hP (hmid q (by simp))

/-- The converse: if only a `start` step can establish `P`, and a `stop` step never
    leaves it true, then a run that ends with `P` has a `start` step with no `stop`
    step after it. -/
theorem Run.exists_since (P : σ → Prop) (start stop : ε → Prop)
    (hinit : ∀ s, M.init s → ¬ P s)
    (hback : ∀ s e s', M.Reachable s → M.step s e s' → P s' → start e ∨ (P s ∧ ¬ stop e))
    {s₀ s : σ} {tr : List (σ × ε)} (h : M.Run s₀ tr s) (h₀ : M.init s₀) (hP : P s) :
    ∃ pre p mid, tr = pre ++ p :: mid ∧ start p.2 ∧ ∀ q ∈ mid, ¬ stop q.2 := by
  induction h with
  | nil => exact absurd hP (hinit _ h₀)
  | @snoc t _ tr e hr hs ih =>
      rcases hback _ _ _ ⟨_, _, h₀, hr⟩ hs hP with he | ⟨hPt, he⟩
      · exact ⟨tr, (t, e), [], rfl, he, by simp⟩
      · obtain ⟨pre, p, mid, rfl, hp, hmid⟩ := ih hPt
        refine ⟨pre, p, mid ++ [(t, e)], by simp, hp, fun q hq => ?_⟩
        rcases List.mem_append.mp hq with hq | hq
        · exact hmid q hq
        · rw [List.mem_singleton.mp hq]
          exact he

end TransitionSystem

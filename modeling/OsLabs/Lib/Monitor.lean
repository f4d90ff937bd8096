-- SUMMARY: Threads under one POSIX mutex with condition variables: semantics by critical sections, and counting lemmas for thread modes.
import Mathlib.Data.Fintype.Card
import Mathlib.Algebra.Order.BigOperators.Group.Finset
import Mathlib.Algebra.BigOperators.Ring.Finset
import OsLabs.Lib.Transition

/-!
# POSIX monitors

Threads share a state that they touch only while they hold one mutex. A *critical
section* runs from the moment the mutex is obtained (by `pthread_mutex_lock`, or
because a `pthread_cond_wait` is about to return) to the moment it is given up (by
`pthread_mutex_unlock`, or by the next `pthread_cond_wait`). Sections exclude each
other, so one section is one step, and the interleaving is the order in which the
threads obtain the mutex.

What POSIX leaves open is left open here: any thread that wants the mutex may get
it next, `pthread_cond_signal` wakes any one of the sleepers, and a sleeper may
wake up without a signal.
-/

namespace Monitor

variable {T S C L E : Type}

/-- The wakeup a section performs before it gives the mutex up. -/
inductive Wake (C : Type)
  | none
  | signal (c : C)
  | broadcast (c : C)
deriving DecidableEq

/-- How a section ends: the thread unlocks and goes on at `l`, or it waits on the
    condition variable `c`, to go on at `l` once it has the mutex back. -/
inductive Next (C L : Type)
  | goto (l : L)
  | wait (c : C) (l : L)
deriving DecidableEq

structure Outcome (S C L E : Type) where
  shared : S
  next : Next C L
  wake : Wake C
  event : E

/-- A program lists, for every point `l` of its code, the sections a thread there
    may run once it has the mutex. -/
structure Program (S C L E : Type) where
  sections : L → List (S → Outcome S C L E)

/-- A thread is `ready` to lock the mutex at `l`, `asleep` in a wait, or `woken`:
    it has left the wait and competes for the mutex, to go on at `l`. -/
inductive Mode (C L : Type)
  | ready (l : L)
  | asleep (c : C) (l : L)
  | woken (c : C) (l : L)
deriving DecidableEq

structure Config (T S C L : Type) where
  shared : S
  mode : T → Mode C L

inductive Label (T E : Type)
  | exec (t : T) (e : E)
  | spurious (t : T)
deriving DecidableEq

/-! ## Modes -/

def Next.mode : Next C L → Mode C L
  | .goto l   => .ready l
  | .wait c l => .asleep c l

/-- Where the thread goes on once it has the mutex. A sleeper does not. -/
def Mode.pc? : Mode C L → Option L
  | .ready l    => some l
  | .asleep _ _ => none
  | .woken _ l  => some l

/-- The point at which the thread goes on, awake or not. -/
def Mode.loc : Mode C L → L
  | .ready l    => l
  | .asleep _ l => l
  | .woken _ l  => l

/-- A thread inside a condition wait on `c`, asleep or woken but not resumed. -/
def Mode.waitsOn [DecidableEq C] (c : C) : Mode C L → Bool
  | .ready _     => false
  | .asleep c' _ => c' = c
  | .woken c' _  => c' = c

def Mode.asleepOn [DecidableEq C] (c : C) : Mode C L → Bool
  | .asleep c' _ => c' = c
  | _            => false

def Mode.wokenOn [DecidableEq C] (c : C) : Mode C L → Bool
  | .woken c' _ => c' = c
  | _           => false

/-- A thread outside every wait whose next section starts at `l`. -/
def Mode.readyAt [DecidableEq L] (l : L) : Mode C L → Bool
  | .ready l' => l' = l
  | _         => false

def Mode.isAsleep : Mode C L → Bool
  | .asleep _ _ => true
  | _           => false

def Mode.isWoken : Mode C L → Bool
  | .woken _ _ => true
  | _          => false

/-- What a wakeup on `c` does to one thread. -/
def Mode.wakeOn [DecidableEq C] (c : C) : Mode C L → Mode C L
  | .asleep c' l => if c' = c then .woken c' l else .asleep c' l
  | m            => m

@[simp] theorem Mode.asleepOn_ready [DecidableEq C] (c : C) (l : L) :
    (Mode.ready l).asleepOn c = false := rfl

@[simp] theorem Mode.asleepOn_asleep [DecidableEq C] (c d : C) (l : L) :
    (Mode.asleep d l).asleepOn c = decide (d = c) := rfl

@[simp] theorem Mode.asleepOn_woken [DecidableEq C] (c d : C) (l : L) :
    (Mode.woken d l).asleepOn c = false := rfl

@[simp] theorem Mode.wokenOn_ready [DecidableEq C] (c : C) (l : L) :
    (Mode.ready l).wokenOn c = false := rfl

@[simp] theorem Mode.wokenOn_asleep [DecidableEq C] (c d : C) (l : L) :
    (Mode.asleep d l).wokenOn c = false := rfl

@[simp] theorem Mode.wokenOn_woken [DecidableEq C] (c d : C) (l : L) :
    (Mode.woken d l).wokenOn c = decide (d = c) := rfl

theorem Mode.isAsleep_iff {x : Mode C L} : x.isAsleep = true ↔ ∃ c l, x = .asleep c l := by
  cases x <;> simp [Mode.isAsleep]

theorem Mode.asleepOn_iff [DecidableEq C] {c : C} {x : Mode C L} :
    x.asleepOn c = true ↔ ∃ l, x = .asleep c l := by
  cases x <;> simp

theorem Mode.waitsOn_iff [DecidableEq C] {c : C} {x : Mode C L} :
    x.waitsOn c = true ↔ x.asleepOn c = true ∨ x.wokenOn c = true := by
  cases x <;> simp [Mode.waitsOn]

theorem Mode.loc_of_pc {x : Mode C L} {l : L} (h : x.pc? = some l) : x.loc = l := by
  cases x with
  | ready l' => exact Option.some.inj h
  | asleep c l' => cases h
  | woken c l' => exact Option.some.inj h

/-- Whoever can go on is not asleep. -/
theorem Mode.asleepOn_of_pc [DecidableEq C] {x : Mode C L} {l : L} (h : x.pc? = some l) (c : C) :
    x.asleepOn c = false := by
  cases x with
  | ready l' => rfl
  | asleep d l' => cases h
  | woken d l' => rfl

theorem Mode.wakeOn_of_pc [DecidableEq C] {x : Mode C L} {l : L} (h : x.pc? = some l) (c : C) :
    x.wakeOn c = x := by
  cases x with
  | ready l' => rfl
  | asleep d l' => cases h
  | woken d l' => rfl

/-- A wakeup leaves a thread as it is or takes it out of its sleep. -/
theorem Mode.wakeOn_cases [DecidableEq C] (c : C) (x : Mode C L) :
    x.wakeOn c = x ∨ ∃ d l, x = .asleep d l ∧ x.wakeOn c = .woken d l := by
  cases x with
  | ready l => exact .inl rfl
  | woken d l => exact .inl rfl
  | asleep d l =>
      by_cases hd : d = c
      · exact .inr ⟨d, l, rfl, if_pos hd⟩
      · exact .inl (if_neg hd)

theorem Mode.asleepOn_wakeOn [DecidableEq C] (c c' : C) (x : Mode C L) :
    (x.wakeOn c').asleepOn c = (x.asleepOn c && c != c') := by
  cases x with
  | asleep d l =>
      by_cases hd : d = c'
      · subst hd; by_cases hc : d = c <;> simp [Mode.wakeOn, Mode.asleepOn, hc]
      · by_cases hc : d = c
        · subst hc; simp [Mode.wakeOn, Mode.asleepOn, hd]
        · simp [Mode.wakeOn, Mode.asleepOn, hd, hc]
  | ready l => rfl
  | woken d l => rfl

/-! ## Steps -/

variable [DecidableEq T] [DecidableEq C]

/-- `Wakes w m m'`: performing `w` takes the modes `m` to `m'`. A signal wakes one
    sleeper, whichever; it is lost only when there is none. -/
inductive Wakes : Wake C → (T → Mode C L) → (T → Mode C L) → Prop
  | none {m : T → Mode C L} : Wakes .none m m
  | signal {c : C} {m : T → Mode C L} {t : T} :
      (m t).asleepOn c → Wakes (.signal c) m (Function.update m t ((m t).wakeOn c))
  | lost {c : C} {m : T → Mode C L} :
      (∀ t, ¬ (m t).asleepOn c) → Wakes (.signal c) m m
  | broadcast {c : C} {m : T → Mode C L} :
      Wakes (.broadcast c) m (fun t => (m t).wakeOn c)

inductive Step (P : Program S C L E) :
    Config T S C L → Label T E → Config T S C L → Prop
  | exec {k : Config T S C L} {t : T} {l : L} {f : S → Outcome S C L E} {m : T → Mode C L} :
      (k.mode t).pc? = some l → f ∈ P.sections l → Wakes (f k.shared).wake k.mode m →
      Step P k (.exec t (f k.shared).event)
        ⟨(f k.shared).shared, Function.update m t (f k.shared).next.mode⟩
  | spurious {k : Config T S C L} {t : T} {c : C} {l : L} :
      k.mode t = .asleep c l →
      Step P k (.spurious t) ⟨k.shared, Function.update k.mode t (.woken c l)⟩

/-- A section, with its target state given in a form of one's own. -/
theorem Step.exec_to {P : Program S C L E} {k k' : Config T S C L} {t : T} {l : L} {e : E}
    {m : T → Mode C L} (f : S → Outcome S C L E) (hpc : (k.mode t).pc? = some l)
    (hf : f ∈ P.sections l) (hw : Wakes (f k.shared).wake k.mode m)
    (he : (f k.shared).event = e) (hs : k'.shared = (f k.shared).shared)
    (hm : k'.mode = Function.update m t (f k.shared).next.mode) : Step P k (.exec t e) k' := by
  obtain ⟨s', m'⟩ := k'
  subst he hs hm
  exact .exec hpc hf hw

/-- All threads start ready at `start`, with the shared state `s₀`. -/
def system (T : Type) [DecidableEq T] (P : Program S C L E) (s₀ : S) (start : L) :
    TransitionSystem (Config T S C L) (Label T E) where
  init k := k = ⟨s₀, fun _ => .ready start⟩
  step := Step P

/-- Every thread starts ready at a point of its own. -/
def systemOf (P : Program S C L E) (s₀ : S) (start : T → L) :
    TransitionSystem (Config T S C L) (Label T E) where
  init k := k = ⟨s₀, fun t => .ready (start t)⟩
  step := Step P

/-! ## What a wakeup does to one thread -/

/-- Any kind of wakeup leaves a thread alone or wakes it on some condition variable. -/
theorem Wakes.wakeOn_at {w : Wake C} {m m' : T → Mode C L} (h : Wakes w m m') (t : T) :
    m' t = m t ∨ ∃ c, m' t = (m t).wakeOn c := by
  cases h with
  | none => exact .inl rfl
  | @signal c _ u _ =>
      by_cases htu : t = u
      · subst htu
        exact .inr ⟨c, Function.update_self t _ m⟩
      · exact .inl (Function.update_of_ne htu _ m)
  | lost => exact .inl rfl
  | @broadcast c _ => exact .inr ⟨c, rfl⟩

theorem Wakes.cases_at {w : Wake C} {m m' : T → Mode C L} (h : Wakes w m m') (t : T) :
    m' t = m t ∨ ∃ c l, m t = .asleep c l ∧ m' t = .woken c l := by
  rcases h.wakeOn_at t with heq | ⟨c, hwake⟩
  · exact .inl heq
  · rw [hwake]
    exact Mode.wakeOn_cases c (m t)

/-- A thread that is not asleep is not touched by a wakeup. -/
theorem Wakes.eq_of_pc {w : Wake C} {m m' : T → Mode C L} (h : Wakes w m m') {t : T} {l : L}
    (ht : (m t).pc? = some l) : m' t = m t := by
  rcases h.wakeOn_at t with heq | ⟨c, hwake⟩
  · exact heq
  · rw [hwake, Mode.wakeOn_of_pc ht]

/-- What holds of every thread before a wakeup, and of a sleeper also once it is woken, holds
    of every thread after the wakeup. -/
theorem Wakes.forall {Q : T → Mode C L → Prop} (hQ : ∀ t c l, Q t (.asleep c l) → Q t (.woken c l))
    {w : Wake C} {m m' : T → Mode C L} (h : Wakes w m m') (hm : ∀ t, Q t (m t)) (t : T) :
    Q t (m' t) := by
  rcases h.cases_at t with heq | ⟨c, l, hasleep, hwoken⟩
  · rw [heq]
    exact hm t
  · rw [hwoken]
    exact hQ t c l (hasleep ▸ hm t)

/-- The rule for what holds of every single thread: waking up does not break it, and the
    sections of the thread establish it. -/
theorem Step.forall_mode {P : Program S C L E} {k k' : Config T S C L} {e : Label T E}
    {Q : T → Mode C L → Prop} (h : Step P k e k')
    (hQ : ∀ t c l, Q t (.asleep c l) → Q t (.woken c l))
    (hsection : ∀ t l f, (k.mode t).pc? = some l → f ∈ P.sections l → Q t (f k.shared).next.mode)
    (hk : ∀ t, Q t (k.mode t)) (t : T) : Q t (k'.mode t) := by
  cases h with
  | @spurious u c l hu =>
      have hwoken : Q u (.woken c l) := hQ u c l (hu ▸ hk u)
      exact (Function.forall_update_iff k.mode Q).mpr ⟨hwoken, fun v _ => hk v⟩ t
  | @exec u l f m hpc hf hw =>
      have hnew : Q u (f k.shared).next.mode := hsection u l f hpc hf
      exact (Function.forall_update_iff m Q).mpr ⟨hnew, fun v _ => hw.forall hQ hk v⟩ t

/-- A signal does not miss a thread that is the only one to sleep there. -/
theorem Wakes.signal_only {c : C} {m m' : T → Mode C L} (h : Wakes (.signal c) m m') {t : T}
    (honly : ∀ u, (m u).asleepOn c = true → u = t) : (m' t).asleepOn c = false := by
  cases h with
  | lost hno => simpa using hno t
  | @signal _ _ u hu =>
      obtain rfl := honly u hu
      rw [Function.update_self, Mode.asleepOn_wakeOn]
      simp

/-- Nobody moves while being woken. -/
theorem Wakes.loc {w : Wake C} {m m' : T → Mode C L} (h : Wakes w m m') (t : T) :
    (m' t).loc = (m t).loc := by
  rcases h.cases_at t with heq | ⟨c, l, hm, hm'⟩
  · rw [heq]
  · rw [hm, hm']
    rfl

/-- A broadcast leaves nobody asleep on its condition variable. -/
theorem Wakes.not_asleepOn {c : C} {m m' : T → Mode C L} (h : Wakes (.broadcast c) m m') (t : T) :
    (m' t).asleepOn c = false := by
  cases h
  simp [Mode.asleepOn_wakeOn]

/-- The rule for what sleepers wait for: `Q c` holds while anybody sleeps on `c`, if a section
    that waits on `c` leaves `Q c` true and a section that may not do so broadcasts `c`. -/
theorem Step.asleep_waits {P : Program S C L E} {k k' : Config T S C L} {e : Label T E}
    {Q : C → S → Prop} (h : Step P k e k')
    (hwait : ∀ t l f c l', (k.mode t).pc? = some l → f ∈ P.sections l →
      e = .exec t (f k.shared).event → (f k.shared).next = .wait c l' → Q c (f k.shared).shared)
    (hkeep : ∀ t l f c, (k.mode t).pc? = some l → f ∈ P.sections l →
      e = .exec t (f k.shared).event → (f k.shared).wake ≠ .broadcast c → Q c k.shared → Q c (f k.shared).shared)
    (hk : ∀ t c l, k.mode t = .asleep c l → Q c k.shared) (t : T) (c : C) (l : L)
    (ht : k'.mode t = .asleep c l) : Q c k'.shared := by
  cases h with
  | @spurious u d l' hu =>
      by_cases htu : t = u
      · subst htu
        simp at ht
      · exact hk t c l (by simpa [htu] using ht)
  | @exec u l' f m hpc hf hw =>
      by_cases htu : t = u
      · subst htu
        have hnext : (f k.shared).next = .wait c l := by
          cases hnext : (f k.shared).next <;> simp [hnext, Next.mode] at ht ⊢
          exact ht
        exact hwait t l' f c l hpc hf rfl hnext
      · have hm : m t = .asleep c l := by simpa [htu] using ht
        have hwake : (f k.shared).wake ≠ .broadcast c := by
          intro hwake
          rw [hwake] at hw
          simpa [hm] using hw.not_asleepOn t
        rcases hw.cases_at t with heq | ⟨d, l₁, -, hwoken⟩
        · exact hkeep u l' f c hpc hf rfl hwake (hk t c l (heq ▸ hm))
        · simp [hm] at hwoken

/-! ## Locations -/

/-- Where the threads are. -/
def Config.locs (k : Config T S C L) : T → L := fun t => (k.mode t).loc

omit [DecidableEq T] [DecidableEq C] in
@[simp] theorem locs_ready (s : S) (ls : T → L) :
    (Config.mk (C := C) s fun t => .ready (ls t)).locs = ls := rfl

def Next.loc : Next C L → L
  | .goto l   => l
  | .wait _ l => l

omit [DecidableEq C] in
theorem locs_update (s : S) (m : T → Mode C L) (t : T) (x : Mode C L) :
    (Config.mk s (Function.update m t x)).locs =
      Function.update (Config.mk s m).locs t x.loc := by
  funext u
  exact Function.apply_update (fun _ => Mode.loc) m t x u

/-- What a step does to the shared state and to the locations. -/
theorem Step.locs {P : Program S C L E} {k k' : Config T S C L} {e : Label T E}
    (h : Step P k e k') :
    (∃ t, e = .spurious t ∧ k'.shared = k.shared ∧ k'.locs = k.locs) ∨
    (∃ t f, e = .exec t (f k.shared).event ∧ f ∈ P.sections (k.locs t) ∧
      k'.shared = (f k.shared).shared ∧
      k'.locs = Function.update k.locs t (f k.shared).next.loc) := by
  cases h with
  | @spurious t c l ht =>
      refine .inl ⟨t, rfl, rfl, ?_⟩
      have hl : (Mode.woken c l).loc = k.locs t := by
        unfold Config.locs
        rw [ht]
        rfl
      rw [locs_update, hl]
      exact Function.update_eq_self t k.locs
  | @exec t l f m hpc hf hw =>
      refine .inr ⟨t, f, rfl, ?_, rfl, ?_⟩
      · have hl : k.locs t = l := Mode.loc_of_pc hpc
        rw [hl]
        exact hf
      · have hsame : (Config.mk (f k.shared).shared m).locs = k.locs := funext hw.loc
        rw [locs_update, hsame]
        cases (f k.shared).next <;> rfl

/-! ## The sections of a run -/

def Label.exec? : Label T E → Option (T × E)
  | .exec t e   => some (t, e)
  | .spurious _ => none

/-- Who ran a section in a run, and what came of it. -/
def execs (tr : List (Config T S C L × Label T E)) : List (T × E) :=
  tr.filterMap fun q => q.2.exec?

/-! ## Counting threads -/

variable [Fintype T]

section

variable {α : Type}

/-- The number of threads at which `f` satisfies `p`. -/
def headcount (p : α → Bool) (f : T → α) : Nat :=
  (Finset.univ.filter fun t => p (f t) = true).card

omit [DecidableEq T] in
theorem headcount_eq_sum (p : α → Bool) (f : T → α) :
    headcount p f = ∑ t, (p (f t)).toNat := by
  rw [headcount, Finset.card_filter]
  apply Finset.sum_congr rfl
  intro t _
  cases p (f t) <;> rfl

theorem headcount_update (p : α → Bool) (f : T → α) (t : T) (x : α) :
    headcount p (Function.update f t x) + (p (f t)).toNat = headcount p f + (p x).toNat := by
  have hrest : ∑ u ∈ Finset.univ.erase t, (p (Function.update f t x u)).toNat =
      ∑ u ∈ Finset.univ.erase t, (p (f u)).toNat := by
    apply Finset.sum_congr rfl
    intro u hu
    rw [Function.update_of_ne (Finset.ne_of_mem_erase hu)]
  rw [headcount_eq_sum, headcount_eq_sum, ← Finset.add_sum_erase _ _ (Finset.mem_univ t),
    ← Finset.add_sum_erase _ (fun u => (p (f u)).toNat) (Finset.mem_univ t), hrest,
    Function.update_self]
  omega

omit [DecidableEq T] in
theorem headcount_le_card (p : α → Bool) (f : T → α) : headcount p f ≤ Fintype.card T :=
  Finset.card_le_univ _

omit [DecidableEq T] in
theorem headcount_pos {p : α → Bool} {f : T → α} : 0 < headcount p f ↔ ∃ t, p (f t) = true := by
  simp [headcount, Finset.card_pos, Finset.filter_nonempty_iff]

omit [DecidableEq T] in
theorem headcount_eq_zero {p : α → Bool} {f : T → α} :
    headcount p f = 0 ↔ ∀ t, p (f t) = false := by
  simp [headcount, Finset.filter_eq_empty_iff]

omit [DecidableEq T] in
/-- At most one thread means the same thread. -/
theorem eq_of_headcount_le_one {p : α → Bool} {f : T → α} (h : headcount p f ≤ 1) {t u : T}
    (ht : p (f t) = true) (hu : p (f u) = true) : t = u :=
  Finset.card_le_one.mp h t (by simpa using ht) u (by simpa using hu)

end

omit [DecidableEq T] in
/-- Whoever waits is either still asleep or already woken. -/
theorem headcount_waitsOn (c : C) (m : T → Mode C L) :
    headcount (Mode.waitsOn c) m = headcount (Mode.asleepOn c) m + headcount (Mode.wokenOn c) m := by
  simp only [headcount_eq_sum, ← Finset.sum_add_distrib]
  apply Finset.sum_congr rfl
  intro t _
  cases m t <;> simp [Mode.waitsOn, Mode.asleepOn, Mode.wokenOn]

/-- A predicate that a wakeup cannot change. -/
def Stable (p : Mode C L → Bool) : Prop :=
  ∀ c x, p (x.wakeOn c) = p x

omit [DecidableEq T] [Fintype T] in
theorem waitsOn_stable (c : C) : Stable (Mode.waitsOn (L := L) c) := by
  intro c' x
  cases x with
  | asleep c'' l => simp only [Mode.wakeOn]; split <;> rfl
  | ready l => rfl
  | woken c'' l => rfl

omit [DecidableEq T] [Fintype T] in
theorem readyAt_stable [DecidableEq L] (l : L) : Stable (Mode.readyAt (C := C) l) := by
  intro c x
  cases x with
  | asleep c' l' => simp only [Mode.wakeOn]; split <;> rfl
  | ready l' => rfl
  | woken c' l' => rfl

omit [Fintype T] in
theorem Wakes.stable_eq {p : Mode C L → Bool} (hp : Stable p) {w : Wake C} {m m' : T → Mode C L}
    (h : Wakes w m m') (t : T) : p (m' t) = p (m t) := by
  rcases h.wakeOn_at t with heq | ⟨c, hwake⟩
  · rw [heq]
  · rw [hwake, hp]

theorem Wakes.headcount {p : Mode C L → Bool} (hp : Stable p) {w : Wake C} {m m' : T → Mode C L}
    (h : Wakes w m m') : headcount p m' = headcount p m := by
  simp only [headcount_eq_sum, h.stable_eq hp]

/-- A stable predicate does not see a spurious wakeup. -/
theorem headcount_spurious {p : Mode C L → Bool} (hp : Stable p) {m : T → Mode C L} {t : T} {c : C}
    {l : L} (ht : m t = .asleep c l) :
    headcount p (Function.update m t (.woken c l)) = headcount p m := by
  have hsame : p (.woken c l) = p (m t) := by
    rw [ht, ← hp c (.asleep c l)]
    simp [Mode.wakeOn]
  have := headcount_update p m t (.woken c l)
  rw [hsame] at this
  omega

/-- A section moves its own thread from its old mode to its new one; the count of a
    stable predicate sees nothing else of it. -/
theorem Wakes.headcount_section {p : Mode C L → Bool} (hp : Stable p) {w : Wake C}
    {m m' : T → Mode C L} (h : Wakes w m m') {t : T} {l : L} (ht : (m t).pc? = some l)
    (x : Mode C L) :
    Monitor.headcount p (Function.update m' t x) + (p (m t)).toNat =
      Monitor.headcount p m + (p x).toNat := by
  have hu := headcount_update p m' t x
  rw [h.eq_of_pc ht, h.headcount hp] at hu
  exact hu

/-! ## Sleepers and woken threads -/

theorem Wakes.broadcast_asleepOn {c : C} {m m' : T → Mode C L}
    (h : Wakes (.broadcast c) m m') : Monitor.headcount (Mode.asleepOn c) m' = 0 :=
  headcount_eq_zero.mpr h.not_asleepOn

/-- A wakeup on one condition variable is not seen on another. -/
theorem Wakes.asleepOn_le {w : Wake C} {m m' : T → Mode C L} (h : Wakes w m m') (c : C) :
    Monitor.headcount (Mode.asleepOn c) m' ≤ Monitor.headcount (Mode.asleepOn c) m := by
  cases h with
  | none => rfl
  | @signal c' m t _ =>
      have hu := headcount_update (Mode.asleepOn c) m t ((m t).wakeOn c')
      rw [Mode.asleepOn_wakeOn] at hu
      cases hm : (m t).asleepOn c <;> simp [hm] at hu
      · omega
      · cases hc : (c != c') <;> simp [hc] at hu <;> omega
  | lost => rfl
  | broadcast =>
      simp only [headcount_eq_sum]
      apply Finset.sum_le_sum
      intro t _
      rw [Mode.asleepOn_wakeOn]
      cases (m t).asleepOn c <;> simp [Bool.toNat_le]

/-- A signal is lost only if nobody sleeps, so if anybody waits on `c`, somebody
    there has been woken afterwards. -/
theorem Wakes.signal_wokenOn {c : C} {m m' : T → Mode C L} (h : Wakes (.signal c) m m')
    (hw : 0 < Monitor.headcount (Mode.waitsOn c) m) : 0 < Monitor.headcount (Mode.wokenOn c) m' := by
  cases h with
  | @signal _ _ t ht =>
      rw [headcount_pos]
      refine ⟨t, ?_⟩
      obtain ⟨l, hm⟩ := Mode.asleepOn_iff.mp ht
      rw [Function.update_self, hm]
      simp [Mode.wakeOn]
  | lost hno =>
      have hz : Monitor.headcount (Mode.asleepOn c) m = 0 := by
        rw [headcount_eq_zero]
        intro t
        simpa using hno t
      have := headcount_waitsOn c m
      omega

/-- The numbers of sleepers and woken threads on `c` after the section of thread `t`,
    in terms of those right after its wakeup. -/
theorem section_headcount {c : C} {m m' : T → Mode C L} {w : Wake C} (hw : Wakes w m m')
    {t : T} {l : L} (ht : (m t).pc? = some l) (new : Mode C L) :
    headcount (Mode.asleepOn c) (Function.update m' t new) =
      headcount (Mode.asleepOn c) m' + (new.asleepOn c).toNat ∧
    headcount (Mode.wokenOn c) (Function.update m' t new) + ((m t).wokenOn c).toNat =
      headcount (Mode.wokenOn c) m' + (new.wokenOn c).toNat := by
  have ha := headcount_update (Mode.asleepOn c) m' t new
  have hk := headcount_update (Mode.wokenOn c) m' t new
  rw [hw.eq_of_pc ht] at ha hk
  rw [Mode.asleepOn_of_pc ht c] at ha
  exact ⟨by simpa using ha, hk⟩

/-- A spurious wakeup turns one sleeper into a woken thread. -/
theorem spurious_headcount (c : C) {m : T → Mode C L} {t : T} {d : C} {l : L}
    (ht : m t = .asleep d l) :
    headcount (Mode.asleepOn c) (Function.update m t (.woken d l)) ≤ headcount (Mode.asleepOn c) m ∧
    headcount (Mode.wokenOn c) m ≤ headcount (Mode.wokenOn c) (Function.update m t (.woken d l)) := by
  have ha := headcount_update (Mode.asleepOn c) m t (.woken d l)
  have hk := headcount_update (Mode.wokenOn c) m t (.woken d l)
  rw [ht] at ha hk
  simp only [Mode.asleepOn, Mode.wokenOn, Bool.toNat_false, Nat.add_zero] at ha hk
  omega

/-- A signal on `d` takes one thread from the sleepers on `d` to the woken ones, or there
    are none; it is not seen on other condition variables. -/
theorem Wakes.signal_headcount {d : C} {m m' : T → Mode C L} (h : Wakes (.signal d) m m') (c : C) :
    (Monitor.headcount (Mode.asleepOn c) m' = Monitor.headcount (Mode.asleepOn c) m ∧
      Monitor.headcount (Mode.wokenOn c) m' = Monitor.headcount (Mode.wokenOn c) m ∧
      (c = d → Monitor.headcount (Mode.asleepOn c) m = 0)) ∨
    (c = d ∧ Monitor.headcount (Mode.asleepOn c) m' + 1 = Monitor.headcount (Mode.asleepOn c) m ∧
      Monitor.headcount (Mode.wokenOn c) m' = Monitor.headcount (Mode.wokenOn c) m + 1) := by
  cases h with
  | lost hno =>
      refine .inl ⟨rfl, rfl, ?_⟩
      intro hcd
      subst hcd
      rw [headcount_eq_zero]
      intro t
      simpa using hno t
  | @signal _ _ t ht =>
      have ha := headcount_update (Mode.asleepOn c) m t ((m t).wakeOn d)
      have hk := headcount_update (Mode.wokenOn c) m t ((m t).wakeOn d)
      obtain ⟨l, hm⟩ := Mode.asleepOn_iff.mp ht
      rw [hm] at ha hk ⊢
      by_cases hcd : d = c
      · subst hcd
        simp [Mode.wakeOn, Mode.asleepOn, Mode.wokenOn] at ha hk ⊢
        omega
      · simp [Mode.wakeOn, Mode.asleepOn, Mode.wokenOn, hcd] at ha hk ⊢
        exact .inl ⟨ha, hk, fun hdc => absurd hdc.symm hcd⟩

end Monitor

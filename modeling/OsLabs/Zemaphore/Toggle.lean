-- SUMMARY: The token ring of printing threads, where the one unit can be, and the order in which the threads print.
import Mathlib.Algebra.BigOperators.Group.Finset.Piecewise
import Mathlib.Data.Fintype.Option
import OsLabs.Lib.Schedule
import OsLabs.Zemaphore.Model

/-!
# The token ring

`test-toggle.c` and `online.c`: thread `i` waits for zemaphore `i`, prints, and raises the
next zemaphore. Only the first one starts with a unit. `main` initialises a zemaphore right
before it creates the thread that waits for it, so earlier threads already run while later
zemaphores are still to be initialised. Until then a zemaphore is a zeroed static object.

There is never more than one unit, in a zemaphore or in the hands of a thread that prints.
-/

namespace Toggle

open Monitor Zemaphore CInt

/-- `none` is `main`. -/
abbrev Thread (N : Nat) := Option (Fin N)

/-- `main` is before the `zem_init` or the `pthread_create` of round `i`, or has created all
    threads. Thread `i` does not exist yet (or has not run), is in iteration `n` of its loop,
    or has returned. -/
inductive Pc (N : Nat)
  | init (i : Fin N)
  | create (i : Fin N)
  | joins
  | start (i : Fin N)
  | down (i : Fin N) (n : Nat)
  | print (i : Fin N) (n : Nat)
  | up (i : Fin N) (n : Nat)
  | done (i : Fin N)
deriving DecidableEq

inductive Note (N : Nat)
  | created
  | started
  | notYet
  | printed (i : Fin N)
deriving DecidableEq

variable {N : Nat}

/-- `(thread_id + 1) % NUM_THREADS` -/
def following (i : Fin N) : Fin N := ⟨(i.val + 1) % N, Nat.mod_lt _ i.pos⟩

/-- The loop test of `justprint` before iteration `n`. `iters` is `NUM_ITER`, or `none` for
    the `while(1)` of `online.c`. -/
def loop (iters : Option Nat) (i : Fin N) (n : Nat) : Pc N :=
  match iters with
  | none      => .down i n
  | some last => if n < last then .down i n else .done i

/-- The data is the number of threads that `main` has created. -/
def code (iters : Option Nat) : Pc N → List (Stmt (Fin N) Nat (Pc N) (Note N))
  | .init i    => [.init i (if i.val = 0 then 1 else 0) (.create i)]
  | .create i  => [.run fun _ =>
      (i + 1, if h : i.val + 1 < N then .init ⟨i + 1, h⟩ else .joins, .created)]
  | .joins     => []
  -- A thread that has not been created can only stay where it is.
  | .start i   => [.run fun c => if i < c then (c, loop iters i 0, .started) else (c, .start i, .notYet)]
  | .down i n  => [.down i (.down i n) (.print i n)]
  | .print i n => [.run fun c => (c, .up i n, .printed i)]
  | .up i n    => [.up (following i) (loop iters i (n + 1))]
  | .done _    => []

def startAt [NeZero N] : Thread N → Pc N
  | none   => .init 0
  | some i => .start i

abbrev State (N : Nat) := Config (Thread N) (Shared (Fin N) Nat) (Fin N) (Pc N)

abbrev Trace (N : Nat) := List (State N × Label (Thread N) (Event (Fin N) (Note N)))

def ring (N : Nat) [NeZero N] (iters : Option Nat) :
    TransitionSystem (State N) (Label (Thread N) (Event (Fin N) (Note N))) :=
  systemOf (program (code iters)) ⟨fun _ => 0, 0⟩ startAt

/-! ## Where the unit is -/

inductive Token (N : Nat)
  | none
  | zem (i : Fin N)
  | print (i : Fin N)
  | up (i : Fin N)
deriving DecidableEq

/-- After `p` lines, the unit is where the next line is due. -/
def Token.Turn (p : Nat) : Token N → Prop
  | .none    => True
  | .zem i   => i.val = p % N
  | .print i => i.val = p % N
  | .up i    => (i.val + 1) % N = p % N

/-- Whose code it is. -/
def Pc.owner : Pc N → Thread N
  | .init _    => none
  | .create _  => none
  | .joins     => none
  | .start i   => some i
  | .down i _  => some i
  | .print i _ => some i
  | .up i _    => some i
  | .done i    => some i

/-- The number of threads created when `main` is here. -/
def Pc.created : Pc N → Nat
  | .init i   => i
  | .create i => i
  | _         => N

/-- The threads are at points of their own, and do not run before they are created. -/
structure Placed (s : Shared (Fin N) Nat) (f : Thread N → Pc N) : Prop where
  own : ∀ t, (f t).owner = t
  created : s.data = (f none).created
  unstarted : ∀ i : Fin N, s.data ≤ i → f (some i) = .start i

/-- `p` lines have been printed, and `tok` says where the unit is. -/
structure Passes (p : Nat) (tok : Token N) (s : Shared (Fin N) Nat) (f : Thread N → Pc N) :
    Prop extends Placed s f where
  fresh : ∀ i : Fin N, f none = .init i → i.val = 0 → tok = .none ∧ p = 0
  value : ∀ z, s.value z = if tok = .zem z then 1 else 0
  print : ∀ t i n, f t = .print i n → tok = .print i
  up : ∀ t i n, f t = .up i n → tok = .up i
  turn : tok.Turn p

variable {iters : Option Nat} {p : Nat} {tok : Token N} {s s' : Shared (Fin N) Nat}
  {f : Thread N → Pc N} {l : Pc N} {i : Fin N}

theorem loop_cases (iters : Option Nat) (i : Fin N) (n : Nat) :
    loop iters i n = .down i n ∨ loop iters i n = .done i := by
  unfold loop
  split
  · exact .inl rfl
  · split
    · exact .inl rfl
    · exact .inr rfl

/-- The unit in the hands of a thread at this point. -/
def Pc.hand : Pc N → Option (Token N)
  | .print i _ => some (.print i)
  | .up i _    => some (.up i)
  | _          => none

theorem Pc.owner_of_hand {x : Token N} (h : l.hand = some x) :
    ∃ i, l.owner = some i ∧ (x = .print i ∨ x = .up i) := by
  cases l with
  | print i n =>
      cases h
      exact ⟨i, rfl, .inl rfl⟩
  | up i n =>
      cases h
      exact ⟨i, rfl, .inr rfl⟩
  | _ => cases h

theorem Pc.hand_of_main (h : l.owner = none) : l.hand = none := by
  cases l <;> first | rfl | cases h

/-- Whoever has the unit in hand has the one that `tok` says. -/
theorem Passes.hand (h : Passes p tok s f) (t : Thread N) (x : Token N) (hx : (f t).hand = some x) :
    x = tok := by
  cases hl : f t with
  | print i n =>
      rw [hl] at hx
      cases hx
      exact (h.print t i n hl).symm
  | up i n =>
      rw [hl] at hx
      cases hx
      exact (h.up t i n hl).symm
  | _ =>
      rw [hl] at hx
      cases hx

/-- The fields `print` and `up` as one condition on what the threads have in hand. -/
theorem Passes.of_hand (hplaced : Placed s f)
    (hfresh : ∀ i : Fin N, f none = .init i → i.val = 0 → tok = .none ∧ p = 0)
    (hvalue : ∀ z, s.value z = if tok = .zem z then 1 else 0)
    (hhand : ∀ t x, (f t).hand = some x → x = tok) (hturn : tok.Turn p) : Passes p tok s f where
  toPlaced := hplaced
  fresh := hfresh
  value := hvalue
  print t i n ht := (hhand t (.print i) (by rw [ht]; rfl)).symm
  up t i n ht := (hhand t (.up i) (by rw [ht]; rfl)).symm
  turn := hturn

theorem Passes.start [NeZero N] : Passes 0 .none ⟨fun _ => 0, 0⟩ (startAt (N := N)) where
  own t := by cases t <;> rfl
  created := rfl
  unstarted _ _ := rfl
  fresh _ _ _ := ⟨rfl, rfl⟩
  value _ := rfl
  print t i n h := by cases t <;> cases h
  up t i n h := by cases t <;> cases h
  turn := trivial

/-! ## Steps of `main` -/

theorem Placed.update_main (h : Placed s f) (hown : l.owner = none) (hdata : s'.data = l.created)
    (hle : s.data ≤ s'.data) : Placed s' (Function.update f none l) where
  own := (Function.forall_update_iff f fun t l => l.owner = t).mpr ⟨hown, fun t _ => h.own t⟩
  created := by rw [Function.update_self, hdata]
  unstarted i hi := by
    rw [Function.update_of_ne (by simp)]
    exact h.unstarted i (Nat.le_trans hle hi)

/-- What `main` does is not seen in anybody's hands. -/
theorem Placed.hand_update_main (hplaced : Placed s' (Function.update f none l))
    (h : ∀ t x, (f t).hand = some x → x = tok) (t : Thread N) (x : Token N)
    (hx : (Function.update f none l t).hand = some x) : x = tok := by
  refine (Function.forall_update_iff f fun _ l => ∀ x, l.hand = some x → x = tok).mpr
    ⟨?_, fun t _ => h t⟩ t x hx
  intro x hx
  have hown := hplaced.own none
  rw [Function.update_self] at hown
  rw [Pc.hand_of_main hown] at hx
  cases hx

/-- A step of `main` that leaves the unit where it is. -/
theorem Passes.update_main (h : Passes p tok s f) (hplaced : Placed s' (Function.update f none l))
    (hvalue : s'.value = s.value) (hinit : ∀ i, l = .init i → i.val ≠ 0) :
    Passes p tok s' (Function.update f none l) := by
  refine .of_hand hplaced ?_ ?_ (hplaced.hand_update_main h.hand) h.turn
  · intro i hi h0
    rw [Function.update_self] at hi
    exact absurd h0 (hinit i hi)
  · rw [hvalue]
    exact h.value

/-- The unit after `zem_init`: the first one brings it, a later one may destroy it. -/
def Token.init (tok : Token N) (i : Fin N) : Token N :=
  if i.val = 0 then .zem i else if tok = .zem i then .none else tok

theorem Passes.init (h : Passes p tok s f) (hf : f none = .init i) :
    Passes p (tok.init i) (s.setValue i (if i.val = 0 then 1 else 0))
      (Function.update f none (.create i)) := by
  have hplaced : Placed (s.setValue i (if i.val = 0 then 1 else 0))
      (Function.update f none (.create i)) := by
    refine h.toPlaced.update_main rfl ?_ (Nat.le_refl _)
    change s.data = _
    rw [h.created, hf]
    rfl
  have hfresh : ∀ j, Function.update f none (.create i) none = .init j → j.val = 0 →
      tok.init i = .none ∧ p = 0 := by
    intro j hj
    rw [Function.update_self] at hj
    cases hj
  refine .of_hand hplaced hfresh ?_ (hplaced.hand_update_main ?_) ?_
  · intro z
    by_cases hz : z = i
    · subst hz
      by_cases h0 : z.val = 0
      · simp [Token.init, Shared.setValue, h0]
      · by_cases htok : tok = .zem z <;> simp [Token.init, Shared.setValue, h0, htok]
    · have hv := h.value z
      by_cases h0 : i.val = 0
      · obtain ⟨rfl, rfl⟩ := h.fresh i hf h0
        simp [Token.init, Shared.setValue, hz, h0, hv, Ne.symm hz]
      · by_cases htok : tok = .zem i
        · simp [htok, Ne.symm hz] at hv
          simp [Token.init, Shared.setValue, hz, h0, htok, hv]
        · simp [Token.init, Shared.setValue, hz, h0, htok, hv]
  · intro t x hx
    -- Whoever has the unit in hand does so after the first `zem_init`, and keeps it.
    obtain rfl := h.hand t x hx
    obtain ⟨j, -, hj⟩ := Pc.owner_of_hand hx
    have h0 : i.val ≠ 0 := by
      intro h0
      obtain ⟨rfl, -⟩ := h.fresh i hf h0
      rcases hj with hj | hj <;> cases hj
    rcases hj with rfl | rfl <;> simp [Token.init, h0]
  · unfold Token.init
    split
    · rename_i h0
      obtain ⟨-, rfl⟩ := h.fresh i hf h0
      exact h0.trans (Nat.zero_mod N).symm
    · split
      · trivial
      · exact h.turn

theorem Passes.create (h : Passes p tok s f) (hf : f none = .create i) :
    Passes p tok { s with data := i + 1 }
      (Function.update f none
        (if h : i.val + 1 < N then .init ⟨i + 1, h⟩ else .joins)) := by
  have hdata : s.data = i := by
    rw [h.created, hf]
    rfl
  refine h.update_main (h.toPlaced.update_main ?_ ?_ ?_) rfl ?_
  · split <;> rfl
  · split
    · rfl
    · have := i.isLt
      simp only [Pc.created]
      omega
  · dsimp only
    omega
  · intro j hj
    split at hj
    · cases hj
      exact Nat.succ_ne_zero _
    · cases hj

/-! ## Steps of a thread -/

theorem Placed.update_printer (h : Placed s f) (hown : l.owner = some i) (hdata : s'.data = s.data)
    (hrun : i.val < s.data ∨ l = .start i) : Placed s' (Function.update f (some i) l) where
  own := (Function.forall_update_iff f fun t l => l.owner = t).mpr ⟨hown, fun t _ => h.own t⟩
  created := by
    rw [Function.update_of_ne (by simp), hdata]
    exact h.created
  unstarted j hj := by
    rw [hdata] at hj
    by_cases hij : j = i
    · subst hij
      rw [Function.update_self]
      rcases hrun with hlt | hl
      · omega
      · exact hl
    · rw [Function.update_of_ne (by simpa using hij)]
      exact h.unstarted j hj

theorem Placed.running (h : Placed s f) (hf : f (some i) ≠ .start i) : i.val < s.data :=
  Nat.lt_of_not_le fun hle => hf (h.unstarted i hle)

/-- A step of a thread that does not touch the unit. -/
theorem Passes.update_idle (h : Passes p tok s f) (hplaced : Placed s' (Function.update f (some i) l))
    (hvalue : s'.value = s.value) (hhand : l.hand = none) :
    Passes p tok s' (Function.update f (some i) l) := by
  refine .of_hand hplaced ?_ ?_ ?_ h.turn
  · intro j hj h0
    rw [Function.update_of_ne (by simp)] at hj
    exact h.fresh j hj h0
  · rw [hvalue]
    exact h.value
  · refine (Function.forall_update_iff f fun _ l => ∀ x, l.hand = some x → x = tok).mpr
      ⟨?_, fun t _ => h.hand t⟩
    intro x hx
    rw [hhand] at hx
    cases hx

/-- A step of the thread whose turn it is: nobody else can have the unit. -/
theorem Passes.update_holder {p' : Nat} {tok' : Token N} (h : Passes p tok s f)
    (htok : tok = .zem i ∨ tok = .print i ∨ tok = .up i)
    (hplaced : Placed s' (Function.update f (some i) l))
    (hvalue : ∀ z, s'.value z = if tok' = .zem z then 1 else 0)
    (hhand : ∀ x, l.hand = some x → x = tok') (hturn : tok'.Turn p') :
    Passes p' tok' s' (Function.update f (some i) l) := by
  refine .of_hand hplaced ?_ hvalue ?_ hturn
  · intro j hj h0
    rw [Function.update_of_ne (by simp)] at hj
    obtain ⟨rfl, -⟩ := h.fresh j hj h0
    simp at htok
  · refine (Function.forall_update_iff f fun _ l => ∀ x, l.hand = some x → x = tok').mpr ⟨hhand, ?_⟩
    intro t ht x hx
    obtain rfl := h.hand t x hx
    obtain ⟨j, hown, hj⟩ := Pc.owner_of_hand hx
    rw [h.own t] at hown
    subst hown
    have hji : j ≠ i := fun hji => ht (congrArg some hji)
    rcases hj with rfl | rfl <;> simp [hji] at htok

theorem Passes.down {n : Nat} (h : Passes p tok s f) (hf : f (some i) = .down i n)
    (hpos : 0 < s.value i) :
    Passes p (.print i) (s.setValue i (s.value i - 1)) (Function.update f (some i) (.print i n)) := by
  have hv := h.value i
  have htok : tok = .zem i := by
    by_contra hne
    rw [if_neg hne] at hv
    omega
  subst htok
  refine h.update_holder (.inl rfl) (h.toPlaced.update_printer rfl rfl (.inl ?_)) ?_
    (fun x hx => (Option.some.inj hx).symm) h.turn
  · exact h.running (by simp [hf])
  · intro z
    by_cases hz : z = i
    · subst hz
      simp [Shared.setValue, hv]
    · have := h.value z
      simp [Ne.symm hz] at this
      simp [Shared.setValue, hz, this]

theorem Passes.printed {n : Nat} (h : Passes p tok s f) (hf : f (some i) = .print i n) :
    Passes (p + 1) (.up i) s (Function.update f (some i) (.up i n)) ∧ i.val = p % N := by
  have htok := h.print _ i n hf
  subst htok
  refine ⟨h.update_holder (.inr (.inl rfl)) (h.toPlaced.update_printer rfl rfl (.inl ?_))
    ?_ (fun x hx => (Option.some.inj hx).symm) ?_, h.turn⟩
  · exact h.running (by simp [hf])
  · intro z
    simpa using h.value z
  · have hturn : i.val = p % N := h.turn
    simp only [Token.Turn, hturn, Nat.mod_add_mod]

theorem Passes.raise {n : Nat} (h : Passes p tok s f) (hf : f (some i) = .up i n) :
    Passes p (.zem (following i))
      (s.setValue (following i) (wrap32 (s.value (following i) + 1)))
      (Function.update f (some i) (loop iters i (n + 1))) := by
  have htok := h.up _ i n hf
  subst htok
  have hzero : ∀ z, s.value z = 0 := by simpa using h.value
  have hloop := loop_cases iters i (n + 1)
  refine h.update_holder (.inr (.inr rfl)) (h.toPlaced.update_printer ?_ rfl (.inl ?_)) ?_ ?_ h.turn
  · rcases hloop with hl | hl <;> rw [hl] <;> rfl
  · exact h.running (by simp [hf])
  · intro z
    have hone : wrap32 1 = 1 := by decide
    by_cases hz : z = following i
    · subst hz
      simp [Shared.setValue, hzero, hone]
    · simp [Shared.setValue, hz, hzero, Ne.symm hz]
  · intro x hx
    rcases hloop with hl | hl <;> rw [hl] at hx <;> cases hx

/-! ## Steps -/

/-- The id in the line that a step prints. -/
def printedBy : Label (Thread N) (Event (Fin N) (Note N)) → Option (Fin N)
  | .exec _ (.run (.printed i)) => some i
  | _                           => none

/-- The zemaphore that a step raises. -/
def raisedBy : Label (Thread N) (Event (Fin N) (Note N)) → Option (Fin N)
  | .exec _ (.up z) => some z
  | _               => none

/-- The unit after a step. -/
def Token.after (tok : Token N) : Label (Thread N) (Event (Fin N) (Note N)) → Token N
  | .exec _ (.init i)           => tok.init i
  | .exec _ (.down i)           => .print i
  | .exec _ (.run (.printed i)) => .up i
  | .exec _ (.up z)             => .zem z
  | _                           => tok

/-- What a step can do to the shared state and the locations. -/
inductive Moved (iters : Option Nat) (s : Shared (Fin N) Nat) (f : Thread N → Pc N) :
    Label (Thread N) (Event (Fin N) (Note N)) → Shared (Fin N) Nat → (Thread N → Pc N) → Prop
  | stays {e : Label (Thread N) (Event (Fin N) (Note N))} :
      printedBy e = none → raisedBy e = none → (∀ tok : Token N, tok.after e = tok) →
      Moved iters s f e s f
  | init {i : Fin N} : f none = .init i →
      Moved iters s f (.exec none (.init i)) (s.setValue i (if i.val = 0 then 1 else 0))
        (Function.update f none (.create i))
  | create {i : Fin N} : f none = .create i →
      Moved iters s f (.exec none (.run .created)) { s with data := i + 1 }
        (Function.update f none (if h : i.val + 1 < N then .init ⟨i + 1, h⟩ else .joins))
  | start {i : Fin N} : f (some i) = .start i → i.val < s.data →
      Moved iters s f (.exec (some i) (.run .started)) s
        (Function.update f (some i) (loop iters i 0))
  | down {i : Fin N} {n : Nat} : f (some i) = .down i n → 0 < s.value i →
      Moved iters s f (.exec (some i) (.down i)) (s.setValue i (s.value i - 1))
        (Function.update f (some i) (.print i n))
  | print {i : Fin N} {n : Nat} : f (some i) = .print i n →
      Moved iters s f (.exec (some i) (.run (.printed i))) s
        (Function.update f (some i) (.up i n))
  | up {i : Fin N} {n : Nat} : f (some i) = .up i n →
      Moved iters s f (.exec (some i) (.up (following i)))
        (s.setValue (following i) (wrap32 (s.value (following i) + 1)))
        (Function.update f (some i) (loop iters i (n + 1)))

variable [NeZero N] {k k' : State N} {e : Label (Thread N) (Event (Fin N) (Note N))}

theorem step_moved (hplaced : Placed k.shared k.locs) (hs : (ring N iters).step k e k') :
    Moved iters k.shared k.locs e k'.shared k'.locs := by
  rcases step_moves hs with ⟨t, rfl, hshared, hlocs⟩ | ⟨t, st, l, ev, rfl, hst, hm, hlocs⟩
  · rw [hshared, hlocs]
    exact .stays rfl rfl fun _ => rfl
  · have hown := hplaced.own t
    rw [hlocs]
    generalize k'.shared = s' at hm
    generalize hl : k.locs t = l₀ at hst hown
    subst hown
    cases l₀ with
    | init i =>
        obtain rfl := List.mem_singleton.mp hst
        cases hm
        exact .init hl
    | create i =>
        obtain rfl := List.mem_singleton.mp hst
        cases hm
        exact .create hl
    | joins => cases hst
    | start i =>
        obtain rfl := List.mem_singleton.mp hst
        cases hm
        by_cases hi : i.val < k.shared.data
        · simp only [if_pos hi]
          exact .start hl hi
        · simp only [if_neg hi]
          rw [Function.update_eq_self_iff.mpr hl.symm]
          exact .stays rfl rfl fun _ => rfl
    | down i n =>
        obtain rfl := List.mem_singleton.mp hst
        cases hm with
        | waits _ =>
            rw [Function.update_eq_self_iff.mpr hl.symm]
            exact .stays rfl rfl fun _ => rfl
        | down hpos => exact .down hl hpos
    | print i n =>
        obtain rfl := List.mem_singleton.mp hst
        cases hm
        exact .print hl
    | up i n =>
        obtain rfl := List.mem_singleton.mp hst
        cases hm
        exact .up hl
    | done i => cases hst

/-! ## The order of the lines -/

/-- The ids that the steps of a run print. -/
def printed (tr : Trace N) : List (Fin N) := tr.filterMap fun q => printedBy q.2

omit [NeZero N] in
theorem printed_snoc (tr : Trace N) (q : State N × Label (Thread N) (Event (Fin N) (Note N))) :
    printed (tr ++ [q]) = printed tr ++ (printedBy q.2).toList := by
  cases h : printedBy q.2 <;> simp [printed, h]

omit [NeZero N] in
/-- One more line, if the step prints one. -/
theorem Passes.moved {f' : Thread N → Pc N} (h : Passes p tok s f) (hm : Moved iters s f e s' f') :
    Passes (p + (printedBy e).toList.length) (tok.after e) s' f' ∧
      ∀ i ∈ printedBy e, i.val = p % N := by
  cases hm with
  | stays hp _ htok =>
      rw [hp, htok]
      exact ⟨h, by simp⟩
  | init hf => exact ⟨h.init hf, by simp [printedBy]⟩
  | create hf => exact ⟨h.create hf, by simp [printedBy]⟩
  | @start i hf hi =>
      refine ⟨?_, by simp [printedBy]⟩
      rcases loop_cases iters i 0 with hl | hl <;> rw [hl]
      · exact h.update_idle (h.toPlaced.update_printer rfl rfl (.inl hi)) rfl rfl
      · exact h.update_idle (h.toPlaced.update_printer rfl rfl (.inl hi)) rfl rfl
  | down hf hpos => exact ⟨h.down hf hpos, by simp [printedBy]⟩
  | print hf =>
      obtain ⟨hpass, hi⟩ := h.printed hf
      exact ⟨hpass, by simpa [printedBy] using hi⟩
  | up hf => exact ⟨h.raise hf, by simp [printedBy]⟩

theorem passes_of_run {k₀ : State N} {tr : Trace N} (hinit : (ring N iters).init k₀)
    (hrun : (ring N iters).Run k₀ tr k) :
    (∃ tok, Passes (printed tr).length tok k.shared k.locs) ∧
      (printed tr).map Fin.val = (List.range (printed tr).length).map (· % N) := by
  refine hrun.history (I := fun tr k => (∃ tok, Passes (printed tr).length tok k.shared k.locs) ∧
    (printed tr).map Fin.val = (List.range (printed tr).length).map (· % N)) ?_ ?_
  · obtain rfl : k₀ = ⟨⟨fun _ => 0, 0⟩, fun t => .ready (startAt t)⟩ := hinit
    exact ⟨⟨.none, .start⟩, rfl⟩
  · intro tr k e k' _ ih hs
    obtain ⟨⟨tok, h⟩, hprinted⟩ := ih
    obtain ⟨hpass, hnext⟩ := h.moved (step_moved h.toPlaced hs)
    rw [printed_snoc]
    refine ⟨⟨_, by simpa using hpass⟩, ?_⟩
    cases hp : printedBy e with
    | none => simpa using hprinted
    | some i => simp [List.range_succ, hprinted, hnext i (by simp [hp])]

/-- Between `zem_down` and `zem_up`. -/
def Pc.holds : Pc N → Bool
  | .print _ _ => true
  | .up _ _    => true
  | _          => false

omit [NeZero N] in
theorem Pc.holds_eq (l : Pc N) : l.holds = l.hand.isSome := by
  cases l <;> rfl

omit [NeZero N] in
theorem Passes.units_le (h : Passes p tok k.shared k.locs) :
    ∑ z, k.shared.value z + headcount Pc.holds k.locs ≤ 1 := by
  have hsum : ∑ z, k.shared.value z = ∑ z, if tok = .zem z then 1 else 0 :=
    Finset.sum_congr rfl fun z _ => h.value z
  -- Whoever holds the unit is the thread that `tok` names.
  have hholder : ∀ t, Pc.holds (k.locs t) = true → ∃ i, t = some i ∧ (tok = .print i ∨ tok = .up i) := by
    intro t ht
    rw [Pc.holds_eq] at ht
    obtain ⟨x, hx⟩ := Option.isSome_iff_exists.mp ht
    obtain ⟨i, hown, hi⟩ := Pc.owner_of_hand hx
    obtain rfl := h.hand t x hx
    exact ⟨i, (h.own t).symm.trans hown, hi⟩
  have hone : headcount Pc.holds k.locs ≤ 1 := by
    rw [headcount, Finset.card_le_one]
    intro t ht u hu
    obtain ⟨i, rfl, hi⟩ := hholder t (Finset.mem_filter.mp ht).2
    obtain ⟨j, rfl, hj⟩ := hholder u (Finset.mem_filter.mp hu).2
    rcases hi with rfl | rfl <;> simp at hj <;> rw [hj]
  rw [hsum]
  cases tok with
  | zem i =>
      have hzero : headcount Pc.holds k.locs = 0 := by
        rw [headcount_eq_zero]
        intro t
        by_contra hne
        obtain ⟨j, -, hj⟩ := hholder t (by simpa using hne)
        simp at hj
      simp [hzero]
  | _ => simpa using Int.ofNat_le.mpr hone

/-- The ring prints in order. In every run of `main` and the threads, the ids printed are
    `0, 1, …, N - 1, 0, 1, …`, and there is never more than one unit in the zemaphores and in
    the hands of threads that have taken one and not yet passed it on. -/
theorem prints_in_order {k₀ : State N} {tr : Trace N} (hinit : (ring N iters).init k₀)
    (hrun : (ring N iters).Run k₀ tr k) :
    (printed tr).map Fin.val = (List.range (printed tr).length).map (· % N) ∧
    ∑ z, k.shared.value z + headcount Pc.holds k.locs ≤ 1 := by
  obtain ⟨⟨tok, h⟩, hprinted⟩ := passes_of_run hinit hrun
  exact ⟨hprinted, h.units_le⟩

/-- Two threads of `test-toggle.c` pass the unit on before the third exists. -/
theorem prints_in_order_two :
    ∃ k₀ tr k, (ring 3 (some 10)).init k₀ ∧ (ring 3 (some 10)).Run k₀ tr k ∧
      printed tr = [0, 1] ∧ (printed tr).map Fin.val = (List.range 2).map (· % 3) := by
  obtain ⟨k₀, tr, k, hinit, hrun, hp⟩ := exists_run_of_play
    (program (code (some 10))) ⟨fun _ => 0, 0⟩ (startAt (N := 3))
    (fun tr _ => decide (printed tr = [0, 1]))
    [.run none 0 none, .run none 0 none, .run none 0 none, .run none 0 none,
      .run (some 0) 0 none, .run (some 0) 0 none, .run (some 0) 0 none, .run (some 0) 0 none,
      .run (some 1) 0 none, .run (some 1) 0 none, .run (some 1) 0 none]
    (by decide)
  have hprinted : printed tr = [0, 1] := of_decide_eq_true hp
  have horder := (prints_in_order hinit hrun).1
  rw [hprinted] at horder
  exact ⟨k₀, tr, k, hinit, hrun, hprinted, by rw [hprinted]; exact horder⟩

end Toggle

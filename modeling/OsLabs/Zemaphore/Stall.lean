-- SUMMARY: The token ring stalls exactly because a zemaphore may be raised before it is initialised.
import OsLabs.Zemaphore.Toggle

/-!
# Stalls

`main` initialises zemaphore `i` in round `i`. A thread that raises it before has its unit
overwritten, and then all threads wait for ever. If every zemaphore is initialised before
it is raised, the unit survives, and the thread whose turn it is can go on: it has
iterations left unless all threads are done.
-/

namespace Toggle

open Monitor Zemaphore CInt

variable {N : Nat} {iters : Option Nat} {p : Nat} {tok : Token N} {s s' : Shared (Fin N) Nat}
  {f f' : Thread N → Pc N} {e : Label (Thread N) (Event (Fin N) (Note N))}

/-- `main`, at this point, has initialised zemaphore `z`. -/
def Pc.Initialised (z : Fin N) : Pc N → Prop
  | .init i   => z < i
  | .create i => z ≤ i
  | _         => True

/-- The step raises no zemaphore that has not been initialised. -/
def InitFirst (q : State N × Label (Thread N) (Event (Fin N) (Note N))) : Prop :=
  ∀ z ∈ raisedBy q.2, (q.1.locs none).Initialised z

/-- The thread has iterations left. -/
def Pc.HasLeft (iters : Option Nat) : Pc N → Prop
  | .start _   => iters ≠ some 0
  | .down _ _  => True
  | .print _ _ => True
  | .up _ _    => True
  | _          => False

/-- All threads exist and some have iterations left, but all of these are in `zem_down`, on a
    zemaphore without a unit. -/
def Stalled (iters : Option Nat) (k : State N) : Prop :=
  k.locs none = .joins ∧ (∃ i, (k.locs (some i)).HasLeft iters) ∧
    ∀ i, (k.locs (some i)).HasLeft iters →
      ∃ n, k.locs (some i) = .down i n ∧ k.shared.value i = 0

/-- The units in the zemaphores and in the hands of the threads. -/
def units (k : State N) : Int := ∑ z, k.shared.value z + headcount Pc.holds k.locs

/-! ## The unit survives -/

/-- The unit is in an initialised zemaphore or with a thread that will pass it on. -/
structure Alive (tok : Token N) (f : Thread N → Pc N) : Prop where
  exists_of_init : (∀ i, f none = .init i → i.val ≠ 0) → tok ≠ .none
  initialised : ∀ z, tok = .zem z → (f none).Initialised z
  print : ∀ i, tok = .print i → ∃ n, f (some i) = .print i n
  up : ∀ i, tok = .up i → ∃ n, f (some i) = .up i n

/-- The unit is gone, or will be as soon as `main` gets to its zemaphore. -/
def Doomed (tok : Token N) (f : Thread N → Pc N) : Prop :=
  (tok = .none ∧ ∀ i, f none = .init i → i.val ≠ 0) ∨
    ∃ z, tok = .zem z ∧ ¬ (f none).Initialised z

theorem Placed.initialised (h : Placed s f) {i : Fin N} (hi : i.val < s.data) :
    (f none).Initialised i := by
  have hcreated := h.created
  cases hf : f none with
  | init j =>
      rw [hf] at hcreated
      simp only [Pc.created] at hcreated
      exact Fin.lt_def.mpr (by omega)
  | create j =>
      rw [hf] at hcreated
      simp only [Pc.created] at hcreated
      exact Fin.le_def.mpr (by omega)
  | _ => trivial

theorem initialised_create {i z : Fin N} (h : z ≤ i) :
    Pc.Initialised z (if h : i.val + 1 < N then .init ⟨i + 1, h⟩ else .joins) := by
  split
  · exact Fin.lt_def.mpr (Nat.lt_succ_of_le (Fin.le_def.mp h))
  · trivial

theorem init_create {i j : Fin N}
    (h : (if h : i.val + 1 < N then Pc.init ⟨i + 1, h⟩ else .joins) = .init j) : j.val ≠ 0 := by
  split at h
  · cases h
    exact Nat.succ_ne_zero _
  · cases h

/-- A step that does not touch the unit, of somebody who does not have it in hand. -/
theorem Alive.frame (h : Alive tok f)
    (hmain : (∀ i, f' none = .init i → i.val ≠ 0) → ∀ i, f none = .init i → i.val ≠ 0)
    (hini : ∀ z, (f none).Initialised z → (f' none).Initialised z)
    (hhand : ∀ i, (f (some i)).hand ≠ none → f' (some i) = f (some i)) : Alive tok f' where
  exists_of_init hne := h.exists_of_init (hmain hne)
  initialised z hz := hini z (h.initialised z hz)
  print i hi := by
    obtain ⟨n, hn⟩ := h.print i hi
    exact ⟨n, by rw [hhand i (by simp [hn, Pc.hand]), hn]⟩
  up i hi := by
    obtain ⟨n, hn⟩ := h.up i hi
    exact ⟨n, by rw [hhand i (by simp [hn, Pc.hand]), hn]⟩

theorem Alive.moved (h : Alive tok f) (hm : Moved iters s f e s' f')
    (hfirst : ∀ z ∈ raisedBy e, (f none).Initialised z) : Alive (tok.after e) f' := by
  cases hm with
  | stays _ _ htok =>
      rw [htok]
      exact h
  | @init i hf =>
      rw [Token.after, Token.init]
      by_cases h0 : i.val = 0
      · rw [if_pos h0]
        refine ⟨by simp, ?_, by simp, by simp⟩
        intro z hz
        cases hz
        rw [Function.update_self]
        exact Fin.le_refl i
      · -- The unit is not in the zemaphore that is initialised now.
        have hne : tok ≠ .zem i := by
          intro htok
          have := h.initialised i htok
          rw [hf] at this
          exact absurd this (Fin.lt_irrefl i)
        rw [if_neg h0, if_neg hne]
        refine h.frame ?_ ?_ fun j _ => Function.update_of_ne (by simp) ..
        · intro _ j hj
          rw [hf] at hj
          cases hj
          exact h0
        · intro z hz
          rw [hf] at hz
          rw [Function.update_self]
          exact Fin.le_of_lt hz
  | @create i hf =>
      refine h.frame ?_ ?_ fun j _ => Function.update_of_ne (by simp) ..
      · intro _ j hj
        rw [hf] at hj
        cases hj
      · intro z hz
        rw [hf] at hz
        rw [Function.update_self]
        exact initialised_create hz
  | @start i hf hi =>
      have hmain : Function.update f (some i) (loop iters i 0) none = f none :=
        Function.update_of_ne (by simp) ..
      apply h.frame (fun hne => by rwa [hmain] at hne) (fun z hz => by rwa [hmain])
      intro j hj
      have hij : j ≠ i := by
        rintro rfl
        rw [hf] at hj
        exact hj rfl
      exact Function.update_of_ne (by simpa using hij) ..
  | @down i n hf hpos =>
      refine ⟨by simp [Token.after], by simp [Token.after], ?_, by simp [Token.after]⟩
      intro j hj
      cases hj
      exact ⟨n, Function.update_self ..⟩
  | @print i n hf =>
      refine ⟨by simp [Token.after], by simp [Token.after], by simp [Token.after], ?_⟩
      intro j hj
      cases hj
      exact ⟨n, Function.update_self ..⟩
  | @up i n hf =>
      refine ⟨by simp [Token.after], ?_, by simp [Token.after], by simp [Token.after]⟩
      intro z hz
      cases hz
      rw [Function.update_of_ne (by simp)]
      exact hfirst _ (by simp [raisedBy])

/-- A doomed unit is never taken: the thread that waits for it does not exist yet. -/
theorem Doomed.moved (hp : Passes p tok s f) (h : Doomed tok f) (hm : Moved iters s f e s' f') :
    Doomed (tok.after e) f' := by
  cases hm with
  | stays _ _ htok =>
      rw [htok]
      exact h
  | @init i hf =>
      rw [Token.after, Token.init]
      have hcreate : ∀ j, Function.update f none (.create i) none = .init j → j.val ≠ 0 := by
        intro j hj
        rw [Function.update_self] at hj
        cases hj
      rcases h with ⟨rfl, hne⟩ | ⟨z, rfl, hz⟩
      · rw [if_neg (hne i hf), if_neg (by simp)]
        exact .inl ⟨rfl, hcreate⟩
      · have h0 : i.val ≠ 0 := by
          intro h0
          have := (hp.fresh i hf h0).1
          cases this
        rw [if_neg h0]
        by_cases hzi : z = i
        · subst hzi
          rw [if_pos rfl]
          exact .inl ⟨rfl, hcreate⟩
        · rw [if_neg (by simpa using hzi)]
          refine .inr ⟨z, rfl, fun hle => hz ?_⟩
          rw [Function.update_self] at hle
          rw [hf]
          exact lt_of_le_of_ne hle hzi
  | @create i hf =>
      rcases h with ⟨rfl, hne⟩ | ⟨z, rfl, hz⟩
      · refine .inl ⟨rfl, ?_⟩
        intro j hj
        rw [Function.update_self] at hj
        exact init_create hj
      · refine .inr ⟨z, rfl, fun hini => hz ?_⟩
        rw [Function.update_self] at hini
        rw [hf]
        split at hini
        · exact Fin.le_def.mpr (Nat.le_of_lt_succ (Fin.lt_def.mp hini))
        · have := z.isLt
          exact Fin.le_def.mpr (by omega)
  | @start i hf hi =>
      rcases h with ⟨rfl, hne⟩ | ⟨z, rfl, hz⟩
      · exact .inl ⟨rfl, by rwa [Function.update_of_ne (by simp)]⟩
      · exact .inr ⟨z, rfl, by rwa [Function.update_of_ne (by simp)]⟩
  | @down i n hf hpos =>
      have hv := hp.value i
      rcases h with ⟨rfl, -⟩ | ⟨z, rfl, hz⟩
      · simp at hv
        omega
      · obtain rfl : z = i := by
          by_contra hne
          simp [hne] at hv
          omega
        exact absurd (hp.toPlaced.initialised (hp.running (by simp [hf]))) hz
  | @print i n hf =>
      have htok := hp.print _ i n hf
      subst htok
      rcases h with ⟨h, -⟩ | ⟨z, h, -⟩ <;> cases h
  | @up i n hf =>
      have htok := hp.up _ i n hf
      subst htok
      rcases h with ⟨h, -⟩ | ⟨z, h, -⟩ <;> cases h

/-- Raising a zemaphore too early dooms the unit. -/
theorem doomed_of_early (hm : Moved iters s f e s' f')
    (hearly : ¬ ∀ z ∈ raisedBy e, (f none).Initialised z) : Doomed (tok.after e) f' := by
  push Not at hearly
  obtain ⟨z, hz, hini⟩ := hearly
  cases hm with
  | stays _ hr _ =>
      rw [hr] at hz
      cases hz
  | @up i n hf =>
      obtain rfl : following i = z := by simpa [raisedBy] using hz
      exact .inr ⟨_, rfl, by rwa [Function.update_of_ne (by simp)]⟩
  | _ => simp [raisedBy] at hz

/-! ## Iterations -/

/-- How many of the first `p` lines are those of thread `i`. -/
def turns (p : Nat) (i : Fin N) : Nat := (p + (N - 1 - i)) / N

theorem turns_zero (i : Fin N) : turns 0 i = 0 := by
  have := i.isLt
  exact Nat.div_eq_of_lt (by omega)

/-- The next line is that of thread `p % N`. -/
theorem turns_succ (p : Nat) (i : Fin N) :
    turns (p + 1) i = turns p i + if i.val = p % N then 1 else 0 := by
  have hi := i.isLt
  have hp := Nat.div_add_mod p N
  have hlt := Nat.mod_lt p i.pos
  unfold turns
  rw [show p + 1 + (N - 1 - i) = p + (N - 1 - i) + 1 by omega, Nat.succ_div]
  congr 1
  have hiff : N ∣ p + (N - 1 - i) + 1 ↔ i.val = p % N := by
    have hsum : p + (N - 1 - i) + 1 = N * (p / N) + (N + p % N - i) := by omega
    rw [hsum, Nat.dvd_add_right (Nat.dvd_mul_right N _)]
    constructor
    · rintro ⟨c, hc⟩
      have hc1 : c = 1 := by
        have hlow : 0 < c := Nat.pos_of_ne_zero (by rintro rfl; omega)
        have hhigh : c < 2 := by
          by_contra hge
          have := Nat.mul_le_mul_left N (Nat.le_of_not_lt hge)
          omega
        omega
      subst hc1
      omega
    · intro heq
      exact ⟨1, by omega⟩
  simp only [hiff]

theorem div_le_turns (p : Nat) (i : Fin N) : p / N ≤ turns p i :=
  Nat.div_le_div_right (Nat.le_add_right _ _)

theorem turns_next {p : Nat} {i : Fin N} (h : i.val = p % N) : turns p i = p / N := by
  have hlt := i.isLt
  have hp := Nat.div_add_mod p N
  unfold turns
  rw [show p + (N - 1 - i) = N - 1 + N * (p / N) by omega, Nat.add_mul_div_left _ _ i.pos,
    Nat.div_eq_of_lt (by omega), Nat.zero_add]

/-- There is an iteration `n`. -/
def More (iters : Option Nat) (n : Nat) : Prop := ∀ last ∈ iters, n < last

/-- The loop variable of a thread counts its lines. -/
def Pc.Counts (iters : Option Nat) (p : Nat) : Pc N → Prop
  | .start i   => turns p i = 0
  | .down i n  => turns p i = n ∧ More iters n
  | .print i n => turns p i = n ∧ More iters n
  | .up i n    => turns p i = n + 1 ∧ More iters n
  | .done i    => iters = some (turns p i)
  | _          => True

theorem counts_loop {i : Fin N} {n : Nat} (h : turns p i = n)
    (hmore : ∀ last ∈ iters, n ≤ last) : (loop iters i n).Counts iters p := by
  unfold loop
  split
  · exact ⟨h, by simp [More]⟩
  · rename_i last
    split
    · rename_i hlt
      exact ⟨h, fun last' hl => by cases hl; exact hlt⟩
    · rename_i hge
      have := hmore last rfl
      have heq : last = n := by omega
      simp only [Pc.Counts]
      rw [h, heq]

/-- A line of another thread leaves the count alone. -/
theorem Pc.Counts.of_turns {l : Pc N} {p' : Nat} (h : l.Counts iters p)
    (hsame : ∀ j, l.owner = some j → turns p' j = turns p j) : l.Counts iters p' := by
  cases l with
  | start j => exact (hsame j rfl).trans h
  | down j n => exact ⟨(hsame j rfl).trans h.1, h.2⟩
  | print j n => exact ⟨(hsame j rfl).trans h.1, h.2⟩
  | up j n => exact ⟨(hsame j rfl).trans h.1, h.2⟩
  | done j =>
      simp only [Pc.Counts] at h ⊢
      rw [hsame j rfl]
      exact h
  | _ => trivial

theorem Counts.moved (hp : Passes p tok s f) (h : ∀ t, (f t).Counts iters p)
    (hm : Moved iters s f e s' f') :
    ∀ t, (f' t).Counts iters (p + (printedBy e).toList.length) := by
  have hupdate : ∀ (t : Thread N) (l : Pc N), l.Counts iters p →
      ∀ u, (Function.update f t l u).Counts iters p :=
    fun t l hl => (Function.forall_update_iff f fun _ l => l.Counts iters p).mpr
      ⟨hl, fun u _ => h u⟩
  cases hm with
  | stays hnone _ _ =>
      rw [hnone]
      exact h
  | init hf => exact hupdate none _ trivial
  | create hf =>
      refine hupdate none _ ?_
      split <;> trivial
  | @start i hf hi =>
      have hc := h (some i)
      rw [hf] at hc
      exact hupdate _ _ (counts_loop hc fun _ _ => Nat.zero_le _)
  | @down i n hf hpos =>
      have hc := h (some i)
      rw [hf] at hc
      exact hupdate _ _ hc
  | @print i n hf =>
      have hturn : i.val = p % N := by
        have := hp.turn
        rwa [hp.print _ i n hf] at this
      refine (Function.forall_update_iff f fun _ l => l.Counts iters (p + 1)).mpr ⟨?_, ?_⟩
      · have hc := h (some i)
        rw [hf] at hc
        refine ⟨?_, hc.2⟩
        rw [turns_succ, if_pos hturn, hc.1]
      · intro t ht
        apply (h t).of_turns
        intro j hj
        rw [hp.own t] at hj
        subst hj
        rw [turns_succ, if_neg, Nat.add_zero]
        intro hj
        exact ht (congrArg some (Fin.ext (hj.trans hturn.symm)))
  | @up i n hf =>
      have hc := h (some i)
      rw [hf] at hc
      exact hupdate _ _ (counts_loop hc.1 fun last hl => hc.2 last hl)

/-! ## No stall -/

variable [NeZero N] {k : State N} {tr : Trace N}

omit [NeZero N] in
/-- If the thread whose turn it is has no iterations left, every thread has had its last turn. -/
theorem last_le_of_done {l : Pc N} {i : Fin N} (hown : l.owner = some i) (hc : l.Counts iters p)
    (hturn : i.val = p % N) (hleft : ¬ l.HasLeft iters) :
    ∃ last, iters = some last ∧ last ≤ p / N := by
  cases l with
  | start j => exact ⟨0, by simpa [Pc.HasLeft] using hleft, Nat.zero_le _⟩
  | done j =>
      cases hown
      exact ⟨_, hc, Nat.le_of_eq (turns_next hturn)⟩
  | down j n => exact absurd trivial hleft
  | print j n => exact absurd trivial hleft
  | up j n => exact absurd trivial hleft
  | _ => cases hown

omit [NeZero N] in
theorem not_stalled (hp : Passes p tok k.shared k.locs) (ha : Alive tok k.locs)
    (hc : ∀ t, (k.locs t).Counts iters p) : ¬ Stalled iters k := by
  rintro ⟨hjoins, ⟨j, hj⟩, hall⟩
  have hsome : tok ≠ .none := by
    apply ha.exists_of_init
    intro i hi
    rw [hjoins] at hi
    cases hi
  cases tok with
  | none => exact hsome rfl
  | print i =>
      obtain ⟨n, hn⟩ := ha.print i rfl
      obtain ⟨m, hm, -⟩ := hall i (by rw [hn]; trivial)
      rw [hn] at hm
      cases hm
  | up i =>
      obtain ⟨n, hn⟩ := ha.up i rfl
      obtain ⟨m, hm, -⟩ := hall i (by rw [hn]; trivial)
      rw [hn] at hm
      cases hm
  | zem i =>
      have hone : k.shared.value i = 1 := by simpa using hp.value i
      -- The thread whose turn it is has no iterations left, so nobody has.
      have hleft : ¬ (k.locs (some i)).HasLeft iters := by
        intro hleft
        obtain ⟨n, -, hzero⟩ := hall i hleft
        omega
      obtain ⟨last, rfl, hle⟩ := last_le_of_done (hp.own (some i)) (hc (some i)) hp.turn hleft
      obtain ⟨n, hn, -⟩ := hall j hj
      have hcj := hc (some j)
      rw [hn] at hcj
      have hlt := hcj.2 last rfl
      have := div_le_turns p j
      have := hcj.1
      omega

omit [NeZero N] in
theorem units_eq_one (hp : Passes p tok k.shared k.locs) (ha : Alive tok k.locs)
    (htok : tok ≠ .none) : units k = 1 := by
  have hle := hp.units_le
  have hsum : ∑ z, k.shared.value z = ∑ z, if tok = .zem z then 1 else 0 :=
    Finset.sum_congr rfl fun z _ => hp.value z
  refine Int.le_antisymm hle ?_
  unfold units
  rw [hsum]
  cases tok with
  | none => exact absurd rfl htok
  | zem i => simp
  | print i =>
      obtain ⟨n, hn⟩ := ha.print i rfl
      have hpos : 0 < headcount Pc.holds k.locs := headcount_pos.mpr ⟨some i, by rw [hn]; rfl⟩
      simp
      omega
  | up i =>
      obtain ⟨n, hn⟩ := ha.up i rfl
      have hpos : 0 < headcount Pc.holds k.locs := headcount_pos.mpr ⟨some i, by rw [hn]; rfl⟩
      simp
      omega

omit [NeZero N] in
theorem units_eq_zero (hp : Passes p .none k.shared k.locs) : units k = 0 := by
  have hsum : ∑ z, k.shared.value z = 0 := Finset.sum_eq_zero fun z _ => by simpa using hp.value z
  have hnobody : headcount Pc.holds k.locs = 0 := by
    apply headcount_eq_zero.mpr
    intro t
    cases hl : k.locs t with
    | print i n => cases hp.print t i n hl
    | up i n => cases hp.up t i n hl
    | _ => rfl
  rw [units, hsum, hnobody]
  rfl

theorem tracked_of_run {k₀ : State N} (hinit : (ring N iters).init k₀)
    (hrun : (ring N iters).Run k₀ tr k) :
    ∃ tok, Passes (printed tr).length tok k.shared k.locs ∧
      (∀ t, (k.locs t).Counts iters (printed tr).length) ∧
      ((∀ q ∈ tr, InitFirst q) → Alive tok k.locs) ∧
      (¬ (∀ q ∈ tr, InitFirst q) → Doomed tok k.locs) := by
  refine hrun.history (I := fun tr k => ∃ tok, Passes (printed tr).length tok k.shared k.locs ∧
    (∀ t, (k.locs t).Counts iters (printed tr).length) ∧
    ((∀ q ∈ tr, InitFirst q) → Alive tok k.locs) ∧
    (¬ (∀ q ∈ tr, InitFirst q) → Doomed tok k.locs)) ?_ ?_
  · obtain rfl : k₀ = ⟨⟨fun _ => 0, 0⟩, fun t => .ready (startAt t)⟩ := hinit
    refine ⟨.none, .start, ?_, ?_, by simp⟩
    · intro t
      cases t with
      | none => trivial
      | some i => exact turns_zero i
    · intro _
      exact ⟨fun hne => absurd rfl (hne 0 rfl), by simp, by simp, by simp⟩
  · intro tr k e k' _ ih hs
    obtain ⟨tok, hp, hc, halive, hdoomed⟩ := ih
    have hm := step_moved hp.toPlaced hs
    have hlen : (printed (tr ++ [(k, e)])).length =
        (printed tr).length + (printedBy e).toList.length := by
      rw [printed_snoc, List.length_append]
    have hall : (∀ q ∈ tr ++ [(k, e)], InitFirst q) ↔
        (∀ q ∈ tr, InitFirst q) ∧ InitFirst (k, e) := by
      simp [or_imp, forall_and]
    refine ⟨tok.after e, ?_, ?_, ?_, ?_⟩
    · rw [hlen]
      exact (hp.moved hm).1
    · rw [hlen]
      exact Counts.moved hp hc hm
    · intro hfirst
      obtain ⟨htr, he⟩ := hall.mp hfirst
      exact (halive htr).moved hm he
    · intro hearly
      by_cases htr : ∀ q ∈ tr, InitFirst q
      · exact doomed_of_early hm fun he => hearly (hall.mpr ⟨htr, he⟩)
      · exact (hdoomed htr).moved hp hm

/-- When the ring keeps going. In every run in which no zemaphore is raised before `main`
    has initialised it, the ring is never stalled and the unit that the first `zem_init`
    puts in is never lost. The condition is exact: once all threads exist, the unit is there
    if and only if it was met. -/
theorem never_stalls {k₀ : State N} (hinit : (ring N iters).init k₀)
    (hrun : (ring N iters).Run k₀ tr k) :
    ((∀ q ∈ tr, InitFirst q) →
      ¬ Stalled iters k ∧ (k.locs none ≠ .init 0 → units k = 1)) ∧
    (k.locs none = .joins → (units k = 1 ↔ ∀ q ∈ tr, InitFirst q)) := by
  obtain ⟨tok, hp, hc, halive, hdoomed⟩ := tracked_of_run hinit hrun
  have hone : (∀ q ∈ tr, InitFirst q) → k.locs none ≠ .init 0 → units k = 1 := by
    intro hfirst hne
    refine units_eq_one hp (halive hfirst) ((halive hfirst).exists_of_init fun i hi h0 => hne ?_)
    rw [hi, show i = 0 from Fin.ext h0]
  refine ⟨fun hfirst => ⟨not_stalled hp (halive hfirst) hc, hone hfirst⟩, ?_⟩
  intro hjoins
  refine ⟨?_, fun hfirst => hone hfirst (by simp [hjoins])⟩
  intro hunits
  by_contra hearly
  rcases hdoomed hearly with ⟨rfl, -⟩ | ⟨z, -, hz⟩
  · rw [units_eq_zero hp] at hunits
    cases hunits
  · rw [hjoins] at hz
    exact hz trivial

/-- `test-toggle.c` with all zemaphores initialised before the first line. -/
theorem never_stalls_slow :
    ∃ k₀ tr k, (ring 3 (some 10)).init k₀ ∧ (ring 3 (some 10)).Run k₀ tr k ∧
      k.locs none = .joins ∧ printed tr = [0] ∧ ¬ Stalled (some 10) k ∧ units k = 1 := by
  obtain ⟨k₀, tr, k, hinit, hrun, hp⟩ := exists_run_of_play
    (program (code (some 10))) ⟨fun _ => 0, 0⟩ (startAt (N := 3))
    (fun tr k => decide (k.locs none = .joins ∧ printed tr = [0] ∧
      ∀ q ∈ tr, raisedBy q.2 = none ∨ q.1.locs none = .joins))
    [.run none 0 none, .run none 0 none, .run none 0 none, .run none 0 none, .run none 0 none,
      .run none 0 none, .run (some 0) 0 none, .run (some 0) 0 none, .run (some 0) 0 none,
      .run (some 0) 0 none]
    (by decide)
  obtain ⟨hjoins, hprinted, hlate⟩ := of_decide_eq_true hp
  have hfirst : ∀ q ∈ tr, InitFirst q := by
    intro q hq z hz
    rcases hlate q hq with hnone | hdone
    · rw [hnone] at hz
      cases hz
    · rw [hdone]
      trivial
  obtain ⟨hgood, -⟩ := never_stalls hinit hrun
  exact ⟨k₀, tr, k, hinit, hrun, hjoins, hprinted, (hgood hfirst).1,
    (hgood hfirst).2 (by simp [hjoins])⟩

/-- `test-toggle.c` when the first thread prints and raises the second zemaphore before
    `main` initialises it: all three threads end up asleep in their first or second
    iteration of ten, and there is no unit left. -/
theorem toggle_stalls :
    ∃ k₀ tr k, (ring 3 (some 10)).init k₀ ∧ (ring 3 (some 10)).Run k₀ tr k ∧
      Stalled (some 10) k ∧ units k = 0 ∧ ∀ i, (k.mode (some i)).isAsleep = true := by
  obtain ⟨k₀, tr, k, hinit, hrun, hp⟩ := exists_run_of_play
    (program (code (some 10))) ⟨fun _ => 0, 0⟩ (startAt (N := 3))
    (fun _ k => decide (k.locs none = .joins ∧
      (∀ i, k.locs (some i) = .down i (if i = 0 then 1 else 0) ∧ k.shared.value i = 0) ∧
      units k = 0 ∧ ∀ i, (k.mode (some i)).isAsleep = true))
    [.run none 0 none, .run none 0 none, .run (some 0) 0 none, .run (some 0) 0 none,
      .run (some 0) 0 none, .run (some 0) 0 none, .run none 0 none, .run none 0 none,
      .run none 0 none, .run none 0 none, .run (some 1) 0 none, .run (some 1) 0 none,
      .run (some 2) 0 none, .run (some 2) 0 none, .run (some 0) 0 none]
    (by decide)
  obtain ⟨hjoins, hdown, hunits, hasleep⟩ := of_decide_eq_true hp
  refine ⟨k₀, tr, k, hinit, hrun, ⟨hjoins, ⟨0, ?_⟩, fun i _ => ⟨_, hdown i⟩⟩, hunits, hasleep⟩
  rw [(hdown 0).1]
  trivial

end Toggle

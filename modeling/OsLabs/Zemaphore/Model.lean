-- SUMMARY: Zemaphores, programs whose threads use them, and what one step of such a program can do.
import Mathlib.Logic.Function.Basic
import OsLabs.Lib.CInt
import OsLabs.Lib.Monitor

/-!
# Zemaphores

`zemaphore.c`: a counter under a mutex, with a condition variable for those who find it
at zero. Each of the three functions is one critical section, except that a wait inside
`zem_down` splits it.

A program has several zemaphores and other data. Each zemaphore has a mutex of its own,
but the sections under different mutexes touch different counters, so they are still one
step each, and so is a statement that uses the other data.
-/

namespace Zemaphore

open Monitor CInt

variable {Z D L E T : Type}

/-- The counters of the zemaphores, and the other data. -/
structure Shared (Z D : Type) where
  value : Z → Int
  data : D

inductive Event (Z E : Type)
  | init (z : Z)
  | waits (z : Z)
  | down (z : Z)
  | up (z : Z)
  | run (e : E)
deriving DecidableEq

variable [DecidableEq Z]

def Shared.setValue (s : Shared Z D) (z : Z) (v : Int) : Shared Z D :=
  { s with value := Function.update s.value z v }

/-! ## The three functions -/

def zemInit (z : Z) (v : Int) (next : L) (s : Shared Z D) :
    Outcome (Shared Z D) Z L (Event Z E) :=
  { shared := s.setValue z v, next := .goto next, wake := .none, event := .init z }

/-- `zem_down` from the loop test on. After a wait it goes on at `retest`, at the test. -/
def zemDown (z : Z) (retest next : L) (s : Shared Z D) :
    Outcome (Shared Z D) Z L (Event Z E) :=
  if s.value z ≤ 0 then
    { shared := s, next := .wait z retest, wake := .none, event := .waits z }
  else
    { shared := s.setValue z (s.value z - 1), next := .goto next, wake := .none, event := .down z }

def zemUp (z : Z) (next : L) (s : Shared Z D) :
    Outcome (Shared Z D) Z L (Event Z E) :=
  { shared := s.setValue z (wrap32 (s.value z + 1)), next := .goto next, wake := .signal z
    event := .up z }

/-! ## Programs -/

/-- One statement of a thread. `run f` changes the data and says where to go on. -/
inductive Stmt (Z D L E : Type)
  | init (z : Z) (v : Int) (next : L)
  | down (z : Z) (retest next : L)
  | up (z : Z) (next : L)
  | run (f : D → D × L × E)

def Stmt.exec : Stmt Z D L E → Shared Z D → Outcome (Shared Z D) Z L (Event Z E)
  | .init z v next      => zemInit z v next
  | .down z retest next => zemDown z retest next
  | .up z next          => zemUp z next
  | .run f              => fun s =>
      { shared := { s with data := (f s.data).1 }, next := .goto (f s.data).2.1, wake := .none
        event := .run (f s.data).2.2 }

/-- `code l` lists the statements a thread at `l` may execute. -/
def program (code : L → List (Stmt Z D L E)) : Program (Shared Z D) Z L (Event Z E) where
  sections l := (code l).map Stmt.exec

/-- A thread that waits in `zem_down` will test again and can do nothing else. -/
def Retests (code : L → List (Stmt Z D L E)) : Prop :=
  ∀ l z r n, .down z r n ∈ code l → code r = [.down z r n]

/-! ## What one step can do -/

variable [DecidableEq T]

/-- `Acts st t k e k'`: the thread `t` executes `st`. -/
inductive Acts : Stmt Z D L E → T → Config T (Shared Z D) Z L → Label T (Event Z E) →
    Config T (Shared Z D) Z L → Prop
  | init {z : Z} {v : Int} {n : L} {t : T} {k : Config T (Shared Z D) Z L} :
      Acts (.init z v n) t k (.exec t (.init z))
        ⟨k.shared.setValue z v, Function.update k.mode t (.ready n)⟩
  | waits {z : Z} {r n : L} {t : T} {k : Config T (Shared Z D) Z L} : k.shared.value z ≤ 0 →
      Acts (.down z r n) t k (.exec t (.waits z))
        ⟨k.shared, Function.update k.mode t (.asleep z r)⟩
  | down {z : Z} {r n : L} {t : T} {k : Config T (Shared Z D) Z L} : 0 < k.shared.value z →
      Acts (.down z r n) t k (.exec t (.down z))
        ⟨k.shared.setValue z (k.shared.value z - 1), Function.update k.mode t (.ready n)⟩
  | up {z : Z} {n : L} {t : T} {k : Config T (Shared Z D) Z L} {m : T → Mode Z L} :
      Wakes (.signal z) k.mode m →
      Acts (.up z n) t k (.exec t (.up z))
        ⟨k.shared.setValue z (wrap32 (k.shared.value z + 1)), Function.update m t (.ready n)⟩
  | run {f : D → D × L × E} {t : T} {k : Config T (Shared Z D) Z L} :
      Acts (.run f) t k (.exec t (.run (f k.shared.data).2.2))
        ⟨{ k.shared with data := (f k.shared.data).1 },
          Function.update k.mode t (.ready (f k.shared.data).2.1)⟩

variable {code : L → List (Stmt Z D L E)} {s₀ : Shared Z D} {start : T → L}
  {k k' : Config T (Shared Z D) Z L} {e : Label T (Event Z E)}

theorem step_cases (h : (systemOf (program code) s₀ start).step k e k') :
    (∃ t z l, e = .spurious t ∧ k.mode t = .asleep z l ∧
      k' = ⟨k.shared, Function.update k.mode t (.woken z l)⟩) ∨
    (∃ t l st, (k.mode t).pc? = some l ∧ st ∈ code l ∧ Acts st t k e k') := by
  cases h with
  | @spurious t z l ht => exact .inl ⟨t, z, l, rfl, ht, rfl⟩
  | @exec t l f m hpc hf hw =>
      obtain ⟨st, hst, rfl⟩ := List.mem_map.mp hf
      refine .inr ⟨t, l, st, hpc, hst, ?_⟩
      cases st with
      | init z v n =>
          cases hw
          exact .init
      | down z r n =>
          by_cases hz : k.shared.value z ≤ 0
          · simp only [Stmt.exec, zemDown, if_pos hz] at hw ⊢
            cases hw
            exact .waits hz
          · simp only [Stmt.exec, zemDown, if_neg hz] at hw ⊢
            cases hw
            exact .down (Int.not_le.mp hz)
      | up z n => exact .up hw
      | run f =>
          cases hw
          exact .run

/-- `Moves st s l s' e`: the statement `st` takes the shared state from `s` to `s'` and the
    thread to `l`. -/
inductive Moves : Stmt Z D L E → Shared Z D → L → Shared Z D → Event Z E → Prop
  | init {z : Z} {v : Int} {n : L} {s : Shared Z D} :
      Moves (.init z v n) s n (s.setValue z v) (.init z)
  | waits {z : Z} {r n : L} {s : Shared Z D} : s.value z ≤ 0 →
      Moves (.down z r n) s r s (.waits z)
  | down {z : Z} {r n : L} {s : Shared Z D} : 0 < s.value z →
      Moves (.down z r n) s n (s.setValue z (s.value z - 1)) (.down z)
  | up {z : Z} {n : L} {s : Shared Z D} :
      Moves (.up z n) s n (s.setValue z (wrap32 (s.value z + 1))) (.up z)
  | run {f : D → D × L × E} {s : Shared Z D} :
      Moves (.run f) s (f s.data).2.1 { s with data := (f s.data).1 } (.run (f s.data).2.2)

omit [DecidableEq T] in
theorem exec_moves (st : Stmt Z D L E) (s : Shared Z D) :
    Moves st s (st.exec s).next.loc (st.exec s).shared (st.exec s).event := by
  cases st with
  | init z v n => exact .init
  | down z r n =>
      by_cases hz : s.value z ≤ 0
      · simp only [Stmt.exec, zemDown, if_pos hz]
        exact .waits hz
      · simp only [Stmt.exec, zemDown, if_neg hz]
        exact .down (Int.not_le.mp hz)
  | up z n => exact .up
  | run f => exact .run

omit [DecidableEq T] in
theorem Moves.run_of_eq {f : D → D × L × E} {s : Shared Z D} {d : D} {l : L} {ev : E}
    (h : f s.data = (d, l, ev)) : Moves (.run f) s l { s with data := d } (.run ev) := by
  have hrun := Moves.run (f := f) (s := s)
  rwa [h] at hrun

omit [DecidableEq T] in
/-- Conversely, a statement that need not wait goes where it says. -/
theorem Moves.exec_eq {st : Stmt Z D L E} {s s' : Shared Z D} {l : L} {ev : Event Z E}
    (h : Moves st s l s' ev) (hev : ∀ z, ev ≠ .waits z) :
    (st.exec s).shared = s' ∧ (st.exec s).next = .goto l := by
  cases h with
  | init => exact ⟨rfl, rfl⟩
  | waits _ => exact absurd rfl (hev _)
  | down hpos =>
      simp [Stmt.exec, zemDown, Int.not_le.mpr hpos]
  | up => exact ⟨rfl, rfl⟩
  | run => exact ⟨rfl, rfl⟩

/-- What a step does to the shared state and to the locations. -/
theorem step_moves (h : (systemOf (program code) s₀ start).step k e k') :
    (∃ t, e = .spurious t ∧ k'.shared = k.shared ∧ k'.locs = k.locs) ∨
    (∃ t st l ev, e = .exec t ev ∧ st ∈ code (k.locs t) ∧ Moves st k.shared l k'.shared ev ∧
      k'.locs = Function.update k.locs t l) := by
  rcases Step.locs h with hsp | ⟨t, f, he, hf, hshared, hlocs⟩
  · exact .inl hsp
  · obtain ⟨st, hst, rfl⟩ := List.mem_map.mp hf
    refine .inr ⟨t, st, _, _, he, hst, ?_, hlocs⟩
    rw [hshared]
    exact exec_moves st k.shared

/-! ## Who waits where -/

/-- Whoever waits on `z` will go on with the test of `zem_down` on `z`. -/
def WaitsOk (code : L → List (Stmt Z D L E)) : Mode Z L → Prop
  | .ready _    => True
  | .asleep z l => ∃ n, code l = [.down z l n]
  | .woken z l  => ∃ n, code l = [.down z l n]

omit [DecidableEq T] in
theorem WaitsOk.code_eq {z : Z} {x : Mode Z L} (h : WaitsOk code x) (hz : x.waitsOn z = true) :
    ∃ n, code x.loc = [.down z x.loc n] := by
  cases x with
  | ready l => cases hz
  | asleep z' l =>
      obtain rfl : z' = z := of_decide_eq_true hz
      exact h
  | woken z' l =>
      obtain rfl : z' = z := of_decide_eq_true hz
      exact h

theorem waitsOk_step (hcode : Retests code) (h : ∀ t, WaitsOk code (k.mode t))
    (hs : (systemOf (program code) s₀ start).step k e k') : ∀ t, WaitsOk code (k'.mode t) := by
  refine Step.forall_mode hs (fun _ _ _ hw => hw) ?_ h
  intro t l f _ hf
  obtain ⟨st, hst, rfl⟩ := List.mem_map.mp hf
  cases st with
  | init z v n => trivial
  | down z r n =>
      simp only [Stmt.exec, zemDown]
      split
      · exact ⟨n, hcode l z r n hst⟩
      · trivial
  | up z n => trivial
  | run f => trivial

theorem waitsOk_of_reachable (hcode : Retests code)
    (h : (systemOf (program code) s₀ start).Reachable k) (t : T) : WaitsOk code (k.mode t) := by
  refine h.invariant (I := fun k => ∀ t, WaitsOk code (k.mode t)) ?_
    (fun k e k' _ hw hs => waitsOk_step hcode hw hs) t
  intro k hk t
  obtain rfl : k = ⟨s₀, fun t => .ready (start t)⟩ := hk
  trivial

omit [DecidableEq Z] [DecidableEq T] in
/-- A thread that does something other than `zem_down` is not back from a wait. -/
theorem ready_of_pc {l : L} {st : Stmt Z D L E} {t : T} (h : WaitsOk code (k.mode t))
    (hpc : (k.mode t).pc? = some l) (hst : st ∈ code l) (hdown : ∀ z r n, st ≠ .down z r n) :
    k.mode t = .ready l := by
  cases hm : k.mode t with
  | ready l' =>
      rw [hm] at hpc
      rw [Option.some.inj hpc]
  | asleep z l' => simp [hm, Mode.pc?] at hpc
  | woken z l' =>
      rw [hm] at h hpc
      obtain rfl : l' = l := Option.some.inj hpc
      obtain ⟨n, hn⟩ := h
      rw [hn] at hst
      exact absurd (List.mem_singleton.mp hst) (hdown _ _ _)

end Zemaphore

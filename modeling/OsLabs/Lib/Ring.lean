-- SUMMARY: Doubly linked rings with a head: the order of their nodes, unlinking a node, linking it in at the front, and searching from either end.
import Mathlib.Data.List.Basic
import Mathlib.Logic.Function.Basic

/-!
# Linked rings

A ring links a head and some nodes through `next` and `prev` pointers. The head is `none`, a node
is `some b`. `Path s x l y` says that the nodes `l` lie between `x` and `y`, and that the pointers
of both directions agree on it. The operations are those of a list that is sorted by use: a node
is unlinked wherever it is, and linked in at the front.
-/

namespace Ring

variable {α : Type}

/-- The pointers of the head and of all nodes, linked or not. -/
structure Links (α : Type) where
  prev : Option α → Option α
  next : Option α → Option α

def Path (s : Links α) : Option α → List α → Option α → Prop
  | x, [], y     => s.next x = y ∧ s.prev y = x
  | x, b :: l, y => s.next x = some b ∧ s.prev (some b) = x ∧ Path s (some b) l y

/-- The nodes of the ring, from the front. -/
structure IsRing (s : Links α) (l : List α) : Prop where
  nodup : l.Nodup
  path : Path s none l none

/-! ## Paths -/

variable {s s' : Links α} {x y : Option α} {b : α} {l l₁ l₂ : List α}

theorem path_append :
    Path s x (l₁ ++ b :: l₂) y ↔ Path s x l₁ (some b) ∧ Path s (some b) l₂ y := by
  induction l₁ generalizing x with
  | nil => simp [Path, and_assoc]
  | cons c l₁ ih => simp [Path, ih, and_assoc]

/-- A path only depends on the pointers along it. -/
theorem Path.congr (h : Path s x l y) (hnext : ∀ z ∈ x :: l.map some, s'.next z = s.next z)
    (hprev : ∀ z ∈ l.map some ++ [y], s'.prev z = s.prev z) : Path s' x l y := by
  induction l generalizing x with
  | nil =>
      obtain ⟨hn, hp⟩ := h
      exact ⟨(hnext x (by simp)).trans hn, (hprev y (by simp)).trans hp⟩
  | cons b l ih =>
      obtain ⟨hn, hp, hl⟩ := h
      refine ⟨(hnext x (by simp)).trans hn, (hprev (some b) (by simp)).trans hp, ih hl ?_ ?_⟩
      · intro z hz
        exact hnext z (List.mem_cons_of_mem _ hz)
      · intro z hz
        exact hprev z (List.mem_cons_of_mem _ hz)

/-- The same pointers seen from the other end. -/
def Links.flip (s : Links α) : Links α := ⟨s.next, s.prev⟩

theorem Path.reverse (h : Path s x l y) : Path s.flip y l.reverse x := by
  induction l generalizing x with
  | nil => exact ⟨h.2, h.1⟩
  | cons b l ih =>
      obtain ⟨hn, hp, hl⟩ := h
      rw [List.reverse_cons]
      exact path_append.mpr ⟨ih hl, hp, hn⟩

theorem Path.prev_mem (h : Path s x l y) : s.prev y ∈ x :: l.map some := by
  induction l generalizing x with
  | nil => simp [h.2]
  | cons b l ih => exact List.mem_cons_of_mem _ (ih h.2.2)

theorem Path.next_mem (h : Path s x l y) : s.next x ∈ l.map some ++ [y] := by
  cases l with
  | nil => simp [h.1]
  | cons b l => simp [h.1]

/-! ## Searching -/

/-- Look at the nodes one after the other until the head is reached. `none`: not done after `n`
    rounds. -/
def find (step : Option α → Option α) (test : α → Bool) : Nat → Option α → Option (Option α)
  | 0, _          => none
  | _ + 1, none   => some none
  | n + 1, some b => if test b then some (some b) else find step test n (step (some b))

theorem find_path {test : α → Bool} {n : Nat} (h : Path s x l none) (hn : l.length < n) :
    find s.next test n (s.next x) = some (l.find? test) := by
  induction l generalizing x n with
  | nil =>
      obtain ⟨n, rfl⟩ := Nat.exists_eq_succ_of_ne_zero (Nat.ne_of_gt hn)
      rw [h.1]
      rfl
  | cons b l ih =>
      obtain ⟨n, rfl⟩ := Nat.exists_eq_succ_of_ne_zero (Nat.ne_zero_of_lt hn)
      obtain ⟨hnext, -, hl⟩ := h
      rw [hnext, find, List.find?_cons]
      cases test b with
      | true => rfl
      | false => exact ih hl (Nat.lt_of_succ_lt_succ hn)

/-- A search from the front finds the first node that passes the test. -/
theorem IsRing.find_next {test : α → Bool} {n : Nat} (h : IsRing s l) (hn : l.length < n) :
    find s.next test n (s.next none) = some (l.find? test) :=
  find_path h.path hn

/-- A search from the back finds the last one. -/
theorem IsRing.find_prev {test : α → Bool} {n : Nat} (h : IsRing s l) (hn : l.length < n) :
    find s.prev test n (s.prev none) = some (l.reverse.find? test) :=
  find_path (s := s.flip) h.path.reverse (by rwa [List.length_reverse])

/-! ## Changes -/

variable [DecidableEq α]

/-- Link the node in between the head and the first node. -/
def Links.insert (s : Links α) (b : α) : Links α :=
  let s := { s with next := Function.update s.next (some b) (s.next none) }
  let s := { s with prev := Function.update s.prev (some b) none }
  let s := { s with prev := Function.update s.prev (s.next none) (some b) }
  { s with next := Function.update s.next none (some b) }

/-- Make the neighbours of a node point to each other. -/
def Links.remove (s : Links α) (b : α) : Links α :=
  let s := { s with prev := Function.update s.prev (s.next (some b)) (s.prev (some b)) }
  { s with next := Function.update s.next (s.prev (some b)) (s.next (some b)) }

theorem insert_next (s : Links α) (b : α) (z : Option α) :
    (s.insert b).next z = if z = none then some b else if z = some b then s.next none
      else s.next z := by
  simp [Links.insert, Function.update_apply]

theorem insert_prev (s : Links α) (b : α) (z : Option α) :
    (s.insert b).prev z = if z = s.next none then some b else if z = some b then none
      else s.prev z := by
  simp [Links.insert, Function.update_apply]

theorem IsRing.insert (h : IsRing s l) (hb : b ∉ l) : IsRing (s.insert b) (b :: l) := by
  refine ⟨List.nodup_cons.mpr ⟨hb, h.nodup⟩, ?_⟩
  have hpath := h.path
  have hnodup := h.nodup
  cases l with
  | nil =>
      obtain ⟨hn, -⟩ := hpath
      simp [Path, insert_next, insert_prev, hn]
  | cons c l =>
      obtain ⟨hn, -, hl⟩ := hpath
      rw [List.mem_cons, not_or] at hb
      rw [List.nodup_cons] at hnodup
      refine ⟨by simp [insert_next], by simp [insert_prev, hn, hb.1], by simp [insert_next, hn],
        by simp [insert_prev, hn], hl.congr ?_ ?_⟩
      · intro z hz
        have hz' : z ≠ none ∧ z ≠ some b := by
          simp only [List.mem_cons, List.mem_map] at hz
          rcases hz with rfl | ⟨d, hd, rfl⟩
          · exact ⟨by simp, by simpa using Ne.symm hb.1⟩
          · exact ⟨by simp, by rintro h; cases h; exact hb.2 hd⟩
        rw [insert_next, if_neg hz'.1, if_neg hz'.2]
      · intro z hz
        have hz' : z ≠ some c ∧ z ≠ some b := by
          simp only [List.mem_append, List.mem_map, List.mem_singleton] at hz
          rcases hz with ⟨d, hd, rfl⟩ | rfl
          · exact ⟨by rintro h; cases h; exact hnodup.1 hd, by rintro h; cases h; exact hb.2 hd⟩
          · exact ⟨by simp, by simp⟩
        rw [insert_prev, hn, if_neg hz'.1, if_neg hz'.2]

/-- The path that is left when a node is taken out. -/
theorem Path.remove (h₁ : Path s x l₁ (some b)) (h₂ : Path s (some b) l₂ y)
    (hnodup : (l₁ ++ b :: l₂).Nodup) (hx : x ∉ (l₁ ++ b :: l₂).map some)
    (hy : y ∉ (l₁ ++ b :: l₂).map some) : Path (s.remove b) x (l₁ ++ l₂) y := by
  have hself : s.next (some b) ≠ some b := by
    intro hb
    have hmem := hb ▸ h₂.next_mem
    simp only [List.mem_append, List.mem_map, List.mem_singleton, Option.some.injEq,
      exists_eq_right] at hmem
    rcases hmem with hmem | rfl
    · simp [List.nodup_append, hmem] at hnodup
    · simp at hy
  have hprev : ∀ z, (s.remove b).prev z = if z = s.next (some b) then s.prev (some b)
      else s.prev z := by
    intro z
    simp [Links.remove, Function.update_apply]
  have hnext : ∀ z, (s.remove b).next z = if z = s.prev (some b) then s.next (some b)
      else s.next z := by
    intro z
    simp [Links.remove, Function.update_apply, hself.symm]
  induction l₁ generalizing x with
  | nil =>
      obtain ⟨-, hp⟩ := h₁
      cases l₂ with
      | nil =>
          obtain ⟨hn, -⟩ := h₂
          simp [Path, hprev, hnext, hn, hp]
      | cons c l₂ =>
          obtain ⟨hn, -, hl⟩ := h₂
          refine ⟨by simp [hnext, hn, hp], by simp [hprev, hn, hp], hl.congr ?_ ?_⟩
          · intro z hz
            rw [hnext, if_neg]
            rintro rfl
            rw [hp] at hz
            exact hx (List.mem_cons_of_mem _ hz)
          · intro z hz
            rw [hprev, if_neg]
            rintro rfl
            rw [hn] at hz
            simp only [List.mem_append, List.mem_map, List.mem_singleton, Option.some.injEq,
              exists_eq_right] at hz
            rcases hz with hz | rfl
            · simp [hz] at hnodup
            · simp at hy
  | cons a l₁ ih =>
      obtain ⟨hn, hp, hl⟩ := h₁
      have hxp : x ≠ s.prev (some b) := by
        rintro rfl
        have hmem := hl.prev_mem
        simp only [List.mem_cons, List.mem_map] at hmem
        apply hx
        rcases hmem with hmem | ⟨d, hd, hmem⟩
        · simp [hmem]
        · simp [← hmem, hd]
      have han : some a ≠ s.next (some b) := by
        intro ha
        have hmem := ha ▸ h₂.next_mem
        simp only [List.mem_append, List.mem_map, List.mem_singleton, Option.some.injEq,
          exists_eq_right] at hmem
        rcases hmem with hmem | rfl
        · simp [hmem] at hnodup
        · simp at hy
      rw [List.cons_append, List.nodup_cons] at hnodup
      refine ⟨by rw [hnext, if_neg hxp, hn], by rw [hprev, if_neg han, hp], ?_⟩
      apply ih hl hnodup.2
      · simpa using hnodup.1
      · intro hmem
        exact hy (List.mem_cons_of_mem _ hmem)

theorem IsRing.remove (h : IsRing s (l₁ ++ b :: l₂)) : IsRing (s.remove b) (l₁ ++ l₂) := by
  obtain ⟨h₁, h₂⟩ := path_append.mp h.path
  refine ⟨h.nodup.sublist ?_, h₁.remove h₂ h.nodup (by simp) (by simp)⟩
  exact (List.Sublist.refl l₁).append (List.sublist_cons_self b l₂)

end Ring

-- SUMMARY: Every item is produced once, in order, and consumed at most once, within the bounds of the buffer.
import Mathlib.Data.Fintype.Defs
import OsLabs.Lib.Schedule
import OsLabs.MasterWorker.Model

/-!
# Exactly-once delivery

The counters and the buffer change only inside critical sections, so what they satisfy
is an invariant of the shared state alone. What has been printed is read off the steps of
a run.
-/

namespace MasterWorker

open Monitor

variable {A : Args} {r : Role} {s s' : Shared} {n : Next Cond Pc} {w : Wake Cond} {ev : Event}

/-! ## Counters -/

structure Bounded (A : Args) (s : Shared) : Prop where
  consumed_nonneg : 0 ≤ s.itemToConsume
  size_nonneg : 0 ≤ s.currBufSize
  size_le : s.currBufSize ≤ A.maxBufSize
  produced_le : s.itemToProduce ≤ A.totalItems
  balance : s.itemToProduce = s.itemToConsume + s.currBufSize

theorem Bounded.start (h₀ : 0 ≤ A.totalItems) (h₁ : 1 ≤ A.maxBufSize) (buffer : Int → Int) :
    Bounded A (.start buffer) :=
  ⟨Int.le_refl 0, Int.le_refl 0, Int.le_trans Int.one_nonneg h₁, h₀, rfl⟩

theorem Bounded.consumed_le (h : Bounded A s) : s.itemToConsume ≤ A.totalItems := by
  have := h.size_nonneg
  have := h.produced_le
  have := h.balance
  omega

/-- An item is put where there is room. -/
theorem Bounded.room (h : Bounded A s) (hmore : s.itemToProduce ≠ A.totalItems)
    (hroom : s.itemToProduce < A.totalItems → s.currBufSize < A.maxBufSize) :
    s.itemToProduce < A.totalItems ∧ s.currBufSize < A.maxBufSize := by
  have hlt : s.itemToProduce < A.totalItems := lt_of_le_of_ne h.produced_le hmore
  exact ⟨hlt, hroom hlt⟩

/-- An item is taken where there is one. -/
theorem Bounded.stock (h : Bounded A s) (hmore : s.itemToConsume ≠ A.totalItems)
    (hstock : s.itemToConsume < A.totalItems → s.currBufSize ≠ 0) :
    s.itemToConsume < A.totalItems ∧ 0 < s.currBufSize := by
  have hlt : s.itemToConsume < A.totalItems := lt_of_le_of_ne h.consumed_le hmore
  have := hstock hlt
  have := h.size_nonneg
  omega

theorem Bounded.move (h : Bounded A s) (hm : Move A r s n s' w ev) : Bounded A s' := by
  obtain ⟨h₁, h₂, h₃, h₄, h₅⟩ := h
  cases hm with
  | produce hmore hroom =>
      obtain ⟨hlt, hfree⟩ := Bounded.room ⟨h₁, h₂, h₃, h₄, h₅⟩ hmore hroom
      exact ⟨h₁, by dsimp only; omega, hfree, hlt, by dsimp only; omega⟩
  | consume hmore hstock =>
      obtain ⟨hlt, hpos⟩ := Bounded.stock ⟨h₁, h₂, h₃, h₄, h₅⟩ hmore hstock
      exact ⟨by dsimp only; omega, by dsimp only; omega, by dsimp only; omega, h₄,
        by dsimp only; omega⟩
  | _ => exact ⟨h₁, h₂, h₃, h₄, h₅⟩

/-! ## What has been printed -/

variable {T : Type} [DecidableEq T]

def Event.produced? : Event → Option Int
  | .produced _ num => some num
  | _               => none

def Event.consumed? : Event → Option Int
  | .consumed _ num => some num
  | _               => none

/-- The index at which the buffer is accessed. -/
def Event.index? : Event → Option Int
  | .produced i _ => some i
  | .consumed i _ => some i
  | _             => none

/-- What `f` reads off the sections of a run. -/
def events (f : Event → Option Int) (tr : List (Config T Shared Cond Pc × Label T Event)) :
    List Int :=
  tr.filterMap fun q =>
    match q.2 with
    | .exec _ e   => f e
    | .spurious _ => none

/-- The numbers printed by `print_produced`, in order. -/
abbrev produced (tr : List (Config T Shared Cond Pc × Label T Event)) : List Int :=
  events Event.produced? tr

/-- The numbers printed by `print_consumed`, in order. -/
abbrev consumed (tr : List (Config T Shared Cond Pc × Label T Event)) : List Int :=
  events Event.consumed? tr

/-- The items in the buffer. -/
def Shared.items (s : Shared) : List Int :=
  (List.range s.currBufSize.toNat).map fun i : Nat => s.buffer i

/-- The first `n` items. -/
def firstItems (n : Int) : List Int := (List.range n.toNat).map fun i : Nat => (i : Int)

omit [DecidableEq T] in
theorem events_exec (f : Event → Option Int) (tr : List (Config T Shared Cond Pc × Label T Event))
    (k : Config T Shared Cond Pc) (t : T) (e : Event) :
    events f (tr ++ [(k, .exec t e)]) = events f tr ++ (f e).toList := by
  cases h : f e <;> simp [events, h]

omit [DecidableEq T] in
theorem events_spurious (f : Event → Option Int)
    (tr : List (Config T Shared Cond Pc × Label T Event)) (k : Config T Shared Cond Pc) (t : T) :
    events f (tr ++ [(k, .spurious t)]) = events f tr := by
  simp [events]

theorem firstItems_succ {n : Int} (h : 0 ≤ n) : firstItems (n + 1) = firstItems n ++ [n] := by
  obtain ⟨m, rfl⟩ := Int.eq_ofNat_of_zero_le h
  simp [firstItems, show ((m : Int) + 1).toNat = m + 1 by omega, List.range_succ]

theorem items_put (h : 0 ≤ s.currBufSize) (num p : Int) :
    Shared.items { s with
      buffer := Function.update s.buffer s.currBufSize num
      currBufSize := s.currBufSize + 1
      itemToProduce := p } = s.items ++ [num] := by
  obtain ⟨m, hm⟩ := Int.eq_ofNat_of_zero_le h
  simp only [Shared.items, hm, show ((m : Int) + 1).toNat = m + 1 by omega, Int.toNat_natCast,
    List.range_succ, List.map_append, List.map_cons, List.map_nil, Function.update_self]
  congr 1
  refine List.map_congr_left fun i hi => Function.update_of_ne ?_ _ _
  have := List.mem_range.mp hi
  omega

theorem items_take (h : 0 < s.currBufSize) (c : Int) :
    s.items = Shared.items { s with currBufSize := s.currBufSize - 1, itemToConsume := c } ++
      [s.buffer (s.currBufSize - 1)] := by
  obtain ⟨m, hm⟩ := Int.eq_ofNat_of_zero_le (Int.le_sub_one_of_lt h)
  have hsize : s.currBufSize.toNat = m + 1 := by omega
  simp only [Shared.items, hsize, hm, Int.toNat_natCast, List.range_succ, List.map_append,
    List.map_cons, List.map_nil]

/-! ## Exactly once -/

/-- What the steps `tr` have printed fits the state they lead to. -/
structure Delivered (tr : List (Config T Shared Cond Pc × Label T Event)) (s : Shared) : Prop where
  produced : produced tr = firstItems s.itemToProduce
  consumed : (consumed tr ++ s.items).Perm (MasterWorker.produced tr)

omit [DecidableEq T] in
theorem Delivered.move {tr : List (Config T Shared Cond Pc × Label T Event)}
    (hb : Bounded A s) (h : Delivered tr s) (hm : Move A r s n s' w ev)
    (k : Config T Shared Cond Pc) (t : T) : Delivered (tr ++ [(k, .exec t ev)]) s' := by
  obtain ⟨hp, hc⟩ := h
  cases hm with
  | produce _ _ =>
      have hnonneg : 0 ≤ s.itemToProduce := by
        have := hb.balance
        have := hb.consumed_nonneg
        have := hb.size_nonneg
        omega
      constructor
      · rw [MasterWorker.produced, events_exec]
        simp only [Event.produced?, Option.toList_some, firstItems_succ hnonneg]
        rw [← hp, MasterWorker.produced]
      · rw [MasterWorker.consumed, MasterWorker.produced, events_exec, events_exec,
          items_put hb.size_nonneg]
        simp only [Event.produced?, Event.consumed?, Option.toList_some, Option.toList_none,
          List.append_nil]
        rw [← List.append_assoc]
        exact hc.append_right _
  | consume hmore hstock =>
      have hpos := (hb.stock hmore hstock).2
      constructor
      · rw [MasterWorker.produced, events_exec]
        simpa [Event.produced?] using hp
      · rw [items_take hpos (s.itemToConsume + 1)] at hc
        rw [MasterWorker.consumed, MasterWorker.produced, events_exec, events_exec]
        simp only [Event.produced?, Event.consumed?, Option.toList_some, Option.toList_none,
          List.append_nil]
        -- The item taken out moves from the end of the buffer to the end of the output.
        refine List.Perm.trans ?_ hc
        rw [List.append_assoc]
        exact (List.perm_append_comm).append_left _
  | _ =>
      refine ⟨?_, ?_⟩
      · rw [MasterWorker.produced, events_exec]
        simpa [Event.produced?] using hp
      · rw [MasterWorker.consumed, MasterWorker.produced, events_exec, events_exec]
        simpa [Event.produced?, Event.consumed?] using hc

/-- Buffer accesses stay inside the buffer. -/
theorem Move.index_ok (hb : Bounded A s) (hm : Move A r s n s' w ev) {i : Int}
    (hi : ev.index? = some i) : 0 ≤ i ∧ i < A.maxBufSize := by
  have hsize := hb.size_nonneg
  have hle := hb.size_le
  cases hm with
  | produce hmore hroom =>
      cases hi
      exact ⟨hsize, (hb.room hmore hroom).2⟩
  | consume hmore hstock =>
      cases hi
      have := (hb.stock hmore hstock).2
      omega
  | _ => cases hi

variable {buffer : Int → Int} {role : T → Role} {k₀ k : Config T Shared Cond Pc}
  {tr : List (Config T Shared Cond Pc × Label T Event)}

theorem bounded_of_reachable (h₀ : 0 ≤ A.totalItems) (h₁ : 1 ≤ A.maxBufSize)
    (h : (system A buffer role).Reachable k) : Bounded A k.shared := by
  refine h.invariant (I := fun k => Bounded A k.shared) ?_ ?_
  · intro k hk
    rw [show k.shared = .start buffer by rw [hk]]
    exact .start h₀ h₁ buffer
  · intro k e k' _ hb hs
    rcases step_cases hs with ⟨t, c, l, -, -, rfl⟩ | ⟨t, ev, w, n, s', m, -, hm, -, rfl⟩
    · exact hb
    · exact hb.move hm

theorem delivered_of_run (h₀ : 0 ≤ A.totalItems) (h₁ : 1 ≤ A.maxBufSize)
    (hinit : (system A buffer role).init k₀) (hrun : (system A buffer role).Run k₀ tr k) :
    Delivered tr k.shared ∧
      ∀ q ∈ tr, ∀ i ∈ events Event.index? [q], 0 ≤ i ∧ i < A.maxBufSize := by
  refine hrun.history (I := fun tr k => Delivered tr k.shared ∧
    ∀ q ∈ tr, ∀ i ∈ events Event.index? [q], 0 ≤ i ∧ i < A.maxBufSize) ⟨?_, by simp⟩ ?_
  · rw [show k₀.shared = .start buffer by rw [hinit]]
    exact ⟨rfl, by simp [events, Shared.items, Shared.start]⟩
  · intro tr k e k' hr hd hs
    obtain ⟨hd, hidx⟩ := hd
    have hb := bounded_of_reachable h₀ h₁ ⟨k₀, tr, hinit, hr⟩
    rcases step_cases hs with ⟨t, c, l, rfl, -, rfl⟩ | ⟨t, ev, w, n, s', m, rfl, hm, -, rfl⟩
    · refine ⟨⟨?_, ?_⟩, ?_⟩
      · rw [produced, events_spurious]
        exact hd.produced
      · rw [produced, consumed, events_spurious, events_spurious]
        exact hd.consumed
      · intro q hq
        rcases List.mem_append.mp hq with hq | hq
        · exact hidx q hq
        · obtain rfl := List.mem_singleton.mp hq
          simp [events]
    · refine ⟨hd.move hb hm k t, ?_⟩
      intro q hq i hi
      rcases List.mem_append.mp hq with hq | hq
      · exact hidx q hq i hi
      · obtain rfl := List.mem_singleton.mp hq
        refine hm.index_ok hb ?_
        simpa [events] using hi

/-- Exactly-once delivery. In every run the buffer is never over- or underrun and is only
    accessed inside its bounds, the quota is kept, the items below `item_to_produce` have
    been printed as produced, each once and in order, and every one of them has either been
    printed as consumed or is in the buffer. -/
theorem exactly_once (h₀ : 0 ≤ A.totalItems) (h₁ : 1 ≤ A.maxBufSize)
    (hinit : (system A buffer role).init k₀) (hrun : (system A buffer role).Run k₀ tr k) :
    (0 ≤ k.shared.currBufSize ∧ k.shared.currBufSize ≤ A.maxBufSize) ∧
    (∀ q ∈ tr, ∀ i ∈ events Event.index? [q], 0 ≤ i ∧ i < A.maxBufSize) ∧
    k.shared.itemToProduce ≤ A.totalItems ∧ k.shared.itemToConsume ≤ A.totalItems ∧
    k.shared.itemToProduce = k.shared.itemToConsume + k.shared.currBufSize ∧
    produced tr = firstItems k.shared.itemToProduce ∧
    (consumed tr ++ k.shared.items).Perm (produced tr) := by
  have hb := bounded_of_reachable h₀ h₁ ⟨k₀, tr, hinit, hrun⟩
  obtain ⟨hd, hidx⟩ := delivered_of_run h₀ h₁ hinit hrun
  exact ⟨⟨hb.size_nonneg, hb.size_le⟩, hidx, hb.produced_le, hb.consumed_le, hb.balance,
    hd.produced, hd.consumed⟩

/-- One master, thread 0, and one worker. -/
def onePair (t : Fin 2) : Role := if t.val = 0 then .master else .worker

/-- Two items through a buffer of one: the worker takes the first, the master puts the
    second. -/
theorem exactly_once_onePair :
    ∃ k₀ tr k, (system ⟨2, 1⟩ (fun _ => 0) onePair).init k₀ ∧
      (system ⟨2, 1⟩ (fun _ => 0) onePair).Run k₀ tr k ∧
      firstItems k.shared.itemToProduce = [0, 1] ∧ produced tr = [0, 1] ∧ consumed tr = [0] ∧
      (consumed tr ++ k.shared.items).Perm (produced tr) := by
  obtain ⟨k₀, tr, k, hinit, hrun, hp⟩ := exists_run_of_play
    (program ⟨2, 1⟩) (.start fun _ => 0) (fun t => .test (onePair t))
    (fun tr k => decide (firstItems k.shared.itemToProduce = [0, 1] ∧ consumed tr = [0]))
    [.run 0 0 none, .run 0 0 none, .run 1 0 none, .run 1 0 none, .run 0 0 none, .run 0 0 none]
    (by decide)
  obtain ⟨hfirst, hconsumed⟩ := of_decide_eq_true hp
  obtain ⟨-, -, -, -, -, hprod, hperm⟩ :=
    exactly_once (A := ⟨2, 1⟩) (by decide) (by decide) hinit hrun
  exact ⟨k₀, tr, k, hinit, hrun, hfirst, hprod.trans hfirst, hconsumed, hperm⟩

end MasterWorker

-- SUMMARY: Both kernels start with the same users and keep them the same through every sequence of events, so a fork that copies on write cannot be told from one that copies at once, but for stores beyond the size of a process.
import OsLabs.Vm.Kernel
import OsLabs.Vm.Refine

/-!
# Copying on write and copying at once

Each kernel refines `Users`, and both start with the same users when they run the same
program. So they go through the same results and the same address spaces, as long as memory
lasts.

There is one exception. The handler of the patched kernel first compares the address with
the size of the process and kills it if the address is not below. A store to the rest of
the last page gets there if the page is marked, and succeeds otherwise.
-/

namespace Vm

open Effect RefCount

variable [Layout] {κ : Version} {held : Nat → Nat} {k k' : Machine}

/-! ## Starting up -/

/-- The users of a machine that has started the program `phs`. -/
def Users.start (phs : List Segment) : Users :=
  Function.update (fun _ => User.unused) initproc
    ⟨.runnable, none, (Space.image phs).2, (Space.image phs).1⟩

omit [Layout] in
theorem owners_unused : owners held (fun _ => .unused) = held := by
  funext f
  have hrefs : refs (Finset.range NPROC) (fun _ => Proc.unused.frame) f = 0 := by
    by_contra hne
    obtain ⟨i, _, hi⟩ := refs_pos.mp (Nat.pos_of_ne_zero hne)
    simp [Proc.unused, Proc.frame] at hi
  simp [owners, hrefs]

theorem PInv.start {s : Memory} (h : Inv κ s held) : PInv κ held ⟨s, fun _ => .unused⟩ :=
  ⟨by rwa [owners_unused], fun _ _ => rfl, fun _ hi => absurd rfl hi, fun _ _ hi => absurd rfl hi⟩

theorem wp_boot {n : Nat} {phs : List Segment} (ram : Nat → UInt8) :
    wp (boot κ n phs) (fun _ k => (∃ held, PInv κ held k) ∧ k.users = Users.start phs)
      (fun _ _ => True) (Machine.reset ram) := by
  unfold boot Machine.reset
  rw [wp_bind, wp_onMem]
  refine (wp_kinit ram).mono (fun _ s₁ ⟨hled, hpt, _⟩ => ?_) fun _ _ _ => trivial
  rw [wp_bind, wp_onMem]
  refine wp_upto_of (fun _ s => ∃ held, Inv κ s held ∧ s.pgtbl = fun _ => none)
    ⟨_, Inv.start hled hpt, hpt⟩ (fun i _ s ⟨held, h, hnone⟩ => ?_) fun s₂ ⟨held, h₂, hnone⟩ => ?_
  · rw [wp_bind]
    exact wp_kalloc_inv h (fun _ => ⟨held, h.setOom, hnone⟩)
      fun f s' ha => ⟨_, ha.inv, ha.pgtbl.trans hnone⟩
  · rw [wp_bind]
    refine wp_allocproc (PInv.start h₂) ?_ (fun _ => trivial) fun _ _ => trivial
    intro i k₃ hfind ha
    have hi : i = initproc := by
      have hfirst : findSlot (fun _ => decide (Proc.unused.state = .unused)) = some initproc := rfl
      exact Option.some.inj (hfind.symm.trans hfirst)
    subst hi
    obtain ⟨s₃, proc₃⟩ := k₃
    have h₃ := ha.inv
    have husers := ha.users
    have huser := congrFun husers initproc
    rw [Function.update_self] at huser
    have hstate : (proc₃ initproc).state = .used := congrArg User.state huser
    have hparent : (proc₃ initproc).parent = none := congrArg User.parent huser
    have hempty : s₃.space (proc₃ initproc).pagetable = fun _ => none := congrArg User.space huser
    have hused : (proc₃ initproc).state ≠ .unused := by simp [hstate]
    have hu := (h₃.inUse initproc hused).2
    obtain ⟨t, hr⟩ := Option.isSome_iff_exists.mp hu.live
    have halone : s₃.Alone (proc₃ initproc).pagetable := by
      intro r' hne
      have hlive := ha.kept.live r' hne
      simpa [hnone] using hlive
    dsimp only
    rw [wp_bind, wp_get, wp_bind, wp_onMem]
    refine wp_loadImage h₃.inv hr hu.topped halone hempty ?_ (fun _ => trivial) fun _ _ => trivial
    intro s₄ hl
    dsimp only
    rw [wp_modifyProc]
    obtain ⟨h₄, husers₄⟩ := h₃.remap hused hl.inv hl.kept hl.space
      (p := { proc₃ initproc with sz := (Space.image phs).2, state := .runnable })
      (by simp) rfl rfl hl.sized.mapped hl.sized.size
    refine ⟨⟨held, h₄⟩, ?_⟩
    have hnobody : Machine.users ⟨s₂, fun _ => .unused⟩ = fun _ => User.unused := by
      funext j
      simp only [Machine.users, Machine.user, Proc.unused, h₂.space_zero, User.unused]
    rw [husers₄, husers, Function.update_idem, hnobody, hparent]
    rfl

/-! ## Runs -/

/-- What users see of a step. -/
def Step.seen (q : Step) : Except Panic Out × Users := (q.result, q.after.users)

/-- The unpatched kernel marks no page. -/
theorem PInv.not_beyondSize {e : Event} (h : PInv .unpatched held k) : ¬ e.BeyondSize k := by
  obtain ⟨i, a⟩ := e
  cases a with
  | store va b =>
      rintro ⟨_, hp, hrsw⟩
      have hmark := (h.inv.leaf _ _ hp.1 hp.2.1).unmarked rfl
      rw [hmark] at hrsw
      cases hrsw
  | _ => exact id

theorem step_refines {e : Event} (h : PInv κ held k) (hbelow : ¬ e.BeyondSize k)
    (hoom : (e.step κ k).after.mem.oom = false) :
    PInv κ held (e.step κ k).after ∧ k.users.step e = (e.step κ k).seen := by
  have hwp := wp_event h hbelow
  unfold Event.step Step.seen at *
  cases hrun : exec (e.run κ) k with
  | mk res k' =>
      rw [hrun] at hoom
      cases res with
      | ok o => exact hwp.ok hrun hoom
      | error p => exact hwp.error hrun hoom

/-- Either kernel goes through what users expect. -/
theorem trace_refines {es : List Event} (h : PInv κ held k)
    (hmem : ∀ q ∈ trace κ k es, q.after.mem.oom = false)
    (hbelow : κ = .cow → ∀ q ∈ trace κ k es, ¬ q.event.BeyondSize q.before) :
    (trace κ k es).map Step.seen = k.users.trace es ∧ ∀ q ∈ trace κ k es, PInv κ held q.after := by
  induction es generalizing k with
  | nil => exact ⟨rfl, by simp [trace]⟩
  | cons e es ih =>
      have hfirst : ¬ e.BeyondSize k := by
        cases κ with
        | unpatched => exact h.not_beyondSize
        | cow => exact hbelow rfl (e.step .cow k) (by simp [trace])
      obtain ⟨h', hseen⟩ := step_refines h hfirst (hmem _ (by simp [trace]))
      have hres : (k.users.step e).1 = (e.step κ k).result := by rw [hseen, Step.seen]
      have hus : (k.users.step e).2 = (e.step κ k).after.users := by rw [hseen, Step.seen]
      rw [trace] at hmem hbelow ⊢
      rw [Users.trace, hres, hus, hseen]
      cases hr : (e.step κ k).result with
      | error p =>
          rw [hr] at hmem hbelow
          exact ⟨rfl, by simpa using h'⟩
      | ok o =>
          rw [hr] at hmem hbelow
          obtain ⟨hmap, hinv⟩ := ih h' (fun q hq => hmem q (List.mem_cons_of_mem _ hq))
            fun hκ q hq => hbelow hκ q (List.mem_cons_of_mem _ hq)
          refine ⟨?_, List.forall_mem_cons.mpr ⟨h', hinv⟩⟩
          rw [List.map_cons, hmap]

/-! ## The two kernels -/

/-- The entry for page `v` of the process in slot `i`. -/
def Machine.pte (k : Machine) (i v : Nat) : Pte := k.mem.pte (k.proc i).pagetable v

omit [Layout] in
theorem space_writable {s : Memory} {r v : Nat} (hv : v < UPAGES) :
    (∃ p, s.space r v = some p ∧ p.w = true) ↔
      (s.pte r v).v = true ∧ ((s.pte r v).w = true ∨ (s.pte r v).rsw = true) := by
  constructor
  · rintro ⟨p, hp, hw⟩
    obtain ⟨_, hval⟩ := space_isSome.mp (Option.isSome_of_mem hp)
    rw [space_of_valid hv hval] at hp
    rw [← Option.some.inj hp] at hw
    exact ⟨hval, by simpa [Memory.page] using hw⟩
  · rintro ⟨hval, hw⟩
    exact ⟨_, space_of_valid hv hval, by simpa [Memory.page] using hw⟩

/-- A page is writable in the unpatched kernel if the patched kernel has it writable or
    marked. -/
theorem writable_iff {held' : Nat → Nat} {i v : Nat} (h' : PInv .unpatched held' k')
    (husers : k.users = k'.users) (hv : v < UPAGES) :
    ((k'.pte i v).v = true ∧ (k'.pte i v).w = true) ↔
      ((k.pte i v).v = true ∧ ((k.pte i v).w = true ∨ (k.pte i v).rsw = true)) := by
  have hspace : k.mem.space (k.proc i).pagetable v = k'.mem.space (k'.proc i).pagetable v :=
    congrFun (congrArg User.space (congrFun husers i)) v
  unfold Machine.pte
  rw [← space_writable hv, hspace, space_writable hv]
  apply and_congr_right
  intro hval
  simp [(h'.inv.leaf _ v hv hval).unmarked rfl]

omit [Layout] in
theorem seen_eq_of_zip {l l' : List Step} (h : l.map Step.seen = l'.map Step.seen) {p : Step × Step}
    (hp : p ∈ l.zip l') : p.1.seen = p.2.seen := by
  obtain ⟨n, hn⟩ := List.mem_iff_getElem?.mp hp
  obtain ⟨h₁, h₂⟩ := List.getElem?_zip_eq_some.mp hn
  have hmap := congrArg (fun l : List (Except Panic Out × Users) => l[n]?) h
  simpa [h₁, h₂] using hmap

/-- The patched and the unpatched kernel, each started with the same program and enough
    memory, go through the same results and the same address spaces under any sequence of
    events, if no store is to a marked page at an address beyond the size of the process. -/
theorem cow_refines_eager {ram ram' : Nat → UInt8} {n n' : Nat} {phs : List Segment}
    {es : List Event} (hboot : exec (boot .cow n phs) (Machine.reset ram) = (.ok (), k))
    (hboot' : exec (boot .unpatched n' phs) (Machine.reset ram') = (.ok (), k'))
    (hmem : ∀ q ∈ trace .cow k es, q.after.mem.oom = false)
    (hmem' : ∀ q ∈ trace .unpatched k' es, q.after.mem.oom = false)
    (hbelow : ∀ q ∈ trace .cow k es, ¬ q.event.BeyondSize q.before) :
    (trace .cow k es).map Step.seen = (trace .unpatched k' es).map Step.seen ∧
    ∀ p ∈ (trace .cow k es).zip (trace .unpatched k' es), ∀ i, ∀ v < UPAGES,
      ((p.2.after.pte i v).v = true ∧ (p.2.after.pte i v).w = true ↔
        (p.1.after.pte i v).v = true ∧
          ((p.1.after.pte i v).w = true ∨ (p.1.after.pte i v).rsw = true)) := by
  obtain ⟨⟨held, h⟩, hstart⟩ := (wp_boot ram).ok hboot
  obtain ⟨⟨held', h'⟩, hstart'⟩ := (wp_boot ram').ok hboot'
  obtain ⟨hseen, _⟩ := trace_refines h hmem fun _ => hbelow
  obtain ⟨hseen', hinv'⟩ := trace_refines h' hmem' fun hκ => by cases hκ
  have heq : (trace .cow k es).map Step.seen = (trace .unpatched k' es).map Step.seen := by
    rw [hseen, hseen', hstart, hstart']
  refine ⟨heq, ?_⟩
  intro p hp i v hv
  exact writable_iff (hinv' p.2 (List.of_mem_zip hp).2)
    (congrArg Prod.snd (seen_eq_of_zip heq hp)) hv

/-! ## Two runs -/

omit [Layout] in
instance {s : Memory} {r v : Nat} : Decidable (s.UserPage r v) :=
  inferInstanceAs (Decidable (_ ∧ _ ∧ _))

omit [Layout] in
instance {e : Event} : Decidable (e.BeyondSize k) := by
  unfold Event.BeyondSize
  cases e.action <;> infer_instance

/-- The tiny machine with a program that has only its stack, in pages 0 and 1. -/
def started (κ : Version) : Machine :=
  (exec (@boot tinyLayout κ 0 []) (Machine.reset fun _ => 0)).2

omit [Layout] in
theorem started_eq (κ : Version) :
    exec (@boot tinyLayout κ 0 []) (Machine.reset fun _ => 0) = (.ok (), started κ) := by
  refine Prod.ext ?_ rfl
  cases κ <;> decide +kernel

/-- A child writes to its stack, parent and child read it, and the child is reaped. -/
def forkEvents : List Event :=
  [⟨0, .fork⟩, ⟨1, .store 4096 7⟩, ⟨0, .load 4096⟩, ⟨1, .load 4096⟩, ⟨1, .exit⟩, ⟨0, .wait⟩]

omit [Layout] in
theorem cow_refines_eager_fork :
    (@trace tinyLayout .cow (started .cow) forkEvents).map Step.result =
      [.ok (.forked (some 1)), .ok .stored, .ok (.byte 0), .ok (.byte 7), .ok .exited,
        .ok (.waited (.reaped 1))] ∧
    (@trace tinyLayout .cow (started .cow) forkEvents).map Step.seen =
      (@trace tinyLayout .unpatched (started .unpatched) forkEvents).map Step.seen := by
  let := tinyLayout
  -- One evaluation of the run for both conditions on it.
  have hcow : ∀ q ∈ trace .cow (started .cow) forkEvents,
      q.after.mem.oom = false ∧ ¬ q.event.BeyondSize q.before := by
    decide +kernel
  have hmem' : ∀ q ∈ trace .unpatched (started .unpatched) forkEvents,
      q.after.mem.oom = false := by
    decide +kernel
  exact ⟨by decide +kernel, (cow_refines_eager (started_eq .cow) (started_eq .unpatched)
    (fun q hq => (hcow q hq).1) hmem' fun q hq => (hcow q hq).2).1⟩

/-- A process gives back a part of its stack page and forks, and the child writes to the
    part that was given back. -/
def beyondEvents : List Event := [⟨0, .sbrk (-100)⟩, ⟨0, .fork⟩, ⟨1, .store 8100 7⟩]

omit [Layout] in
/-- The unpatched kernel lets the child do so, and the patched one kills it. -/
theorem cow_kills_beyond_size :
    (∀ κ, exec (@boot tinyLayout κ 0 []) (Machine.reset fun _ => 0) = (.ok (), started κ)) ∧
    (∀ κ, ∀ q ∈ @trace tinyLayout κ (started κ) beyondEvents, q.after.mem.oom = false) ∧
    (@trace tinyLayout .unpatched (started .unpatched) beyondEvents).map Step.result =
      [.ok (.brk (some 8192)), .ok (.forked (some 1)), .ok .stored] ∧
    (@trace tinyLayout .cow (started .cow) beyondEvents).map Step.result =
      [.ok (.brk (some 8192)), .ok (.forked (some 1)), .ok .killed] := by
  refine ⟨started_eq, ?_, by decide +kernel, by decide +kernel⟩
  intro κ
  cases κ <;> decide +kernel

end Vm

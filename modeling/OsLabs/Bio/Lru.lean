-- SUMMARY: Which buffer bget takes: the one that has the block, or else the one that was released longest ago among those without users.
import OsLabs.Bio.Refine

/-!
# Recycling buffers

`brelse` moves a buffer to the front of the list when its last user is gone, and `bget` looks for a
buffer to recycle from the back. The list is sorted by these releases.
-/

namespace Bio

open Log (LOGSIZE)
open Ring TransitionSystem

variable {D : Type} {m : Machine D} {b b' : Fin NBUF} {k : Key} {zero : D} {disk : Key → D}
  {tr : List (Machine D × Label D)}

/-- The number of the last step that moved a buffer to the front, 0 if there is none. -/
def lastRelease (tr : List (Machine D × Label D)) (b : Fin NBUF) : Nat :=
  (tr.foldl (fun (n, last) q => (n + 1, if q.2.front q.1 = some b then n + 1 else last)) (0, 0)).2

theorem foldl_fst (tr : List (Machine D × Label D)) (b : Fin NBUF) :
    (tr.foldl (fun (n, last) q => (n + 1, if q.2.front q.1 = some b then n + 1 else last))
      ((0, 0) : Nat × Nat)).1 = tr.length := by
  induction tr using List.reverseRecOn with
  | nil => rfl
  | append_singleton tr q ih => simp [List.foldl_append, ih]

theorem lastRelease_snoc (tr : List (Machine D × Label D)) (q : Machine D × Label D) (b : Fin NBUF) :
    lastRelease (tr ++ [q]) b =
      if q.2.front q.1 = some b then tr.length + 1 else lastRelease tr b := by
  simp [lastRelease, List.foldl_append, foldl_fst]

theorem lastRelease_le (tr : List (Machine D × Label D)) (b : Fin NBUF) :
    lastRelease tr b ≤ tr.length := by
  induction tr using List.reverseRecOn with
  | nil => exact le_rfl
  | append_singleton tr q ih =>
      rw [lastRelease_snoc, List.length_append]
      split
      · exact le_rfl
      · exact ih.trans (Nat.le_add_right ..)

/-- The list goes from the buffer that was released last to the one that was released first. -/
def Sorted (tr : List (Machine D × Label D)) (order : List (Fin NBUF)) : Prop :=
  order.Pairwise fun b b' => lastRelease tr b' ≤ lastRelease tr b

theorem Sorted.snoc {q : Machine D × Label D} {order order' : List (Fin NBUF)} (h : Sorted tr order)
    (hnodup : order.Nodup) (hre : Reordered order (q.2.front q.1) order') :
    Sorted (tr ++ [q]) order' := by
  unfold Sorted at h ⊢
  cases hf : q.2.front q.1 with
  | none =>
      rw [hf] at hre
      cases hre
      simpa only [lastRelease_snoc, hf, reduceCtorEq, if_false] using h
  | some b =>
      rw [hf] at hre
      cases hre with
      | @front _ l₁ l₂ horder =>
          subst horder
          have hsub : (l₁ ++ l₂).Sublist (l₁ ++ b :: l₂) :=
            (List.Sublist.refl l₁).append (List.sublist_cons_self b l₂)
          have hother : ∀ c, c ≠ b → lastRelease (tr ++ [q]) c = lastRelease tr c := by
            intro c hc
            rw [lastRelease_snoc, hf, if_neg (by simpa using hc.symm)]
          rw [List.nodup_middle, List.nodup_cons] at hnodup
          refine List.pairwise_cons.mpr ⟨fun c hc => ?_, ?_⟩
          · rw [lastRelease_snoc tr q b, if_pos hf]
            simpa using lastRelease_le (tr ++ [q]) c
          · refine (h.sublist hsub).imp_of_mem fun {c c'} hc hc' hle => ?_
            rw [hother c, hother c']
            · exact hle
            · rintro rfl
              exact hnodup.1 hc'
            · rintro rfl
              exact hnodup.1 hc

theorem sorted_of_run (hrun : (machine zero disk).Run (boot zero disk) tr m) :
    ∃ order, Fine m order ∧ Sorted tr order := by
  apply hrun.history (I := fun tr m => ∃ order, Fine m order ∧ Sorted tr order)
  · exact ⟨_, fine_boot zero disk, List.pairwise_of_forall fun _ _ => le_rfl⟩
  · rintro tr m l m' - ⟨order, hfine, hsorted⟩ hs
    obtain ⟨order', hfine', hre⟩ := fine_step hfine hs
    exact ⟨order', hfine', hsorted.snoc hfine.listed.ring.nodup hre⟩

/-- `bget` always comes to an end, with one of three results. It returns a buffer that has the block
    if there is one. Otherwise it recycles a buffer that no process waits for or has locked and that
    is not pinned, and of all of these it takes the one that was released longest ago. It
    panics if and only if there is no such buffer. -/
theorem bget_recycles_least_recent (hrun : (machine zero disk).Run (boot zero disk) tr m) (k : Key) :
    (∃ b, (m.buf b).key = k ∧
      bget m.bcache k = some (.ok (b, m.bcache.set b
        { m.buf b with refcnt := (m.buf b).refcnt + 1 }))) ∨
    (∀ b, (m.buf b).key ≠ k) ∧
      ((∃ b, ¬ m.Used b ∧ (∀ b', ¬ m.Used b' → lastRelease tr b ≤ lastRelease tr b') ∧
        bget m.bcache k = some (.ok (b, m.bcache.set b
          { m.buf b with dev := k.1, blockno := k.2, valid := false, refcnt := 1 }))) ∨
      (∀ b, m.Used b) ∧ bget m.bcache k = some (.error "bget: no buffers")) := by
  obtain ⟨order, hfine, hsorted⟩ := sorted_of_run hrun
  have hcount : ∀ b, (m.buf b).refcnt = 0 ↔ ¬ m.Used b := fun b => hfine.counted.refcnt_eq_zero
  obtain ⟨r, hr, hgot⟩ := bget_got hfine.listed k
  cases hgot with
  | @hit b hkey => exact .inl ⟨b, hkey, hr⟩
  | @recycled b l₁ l₂ hmiss hzero horder hbehind =>
      refine .inr ⟨hmiss, .inl ⟨b, (hcount b).mp hzero, fun b' hb' => ?_, hr⟩⟩
      -- a free buffer is not behind the one that is taken
      have hmem : b' ∈ l₁ ++ b :: l₂ := horder ▸ hfine.listed.all b'
      subst horder
      rw [List.mem_append, List.mem_cons] at hmem
      rcases hmem with hmem | rfl | hmem
      · exact (List.pairwise_append.mp hsorted).2.2 b' hmem b (by simp)
      · exact le_rfl
      · exact absurd ((hcount b').mpr hb') (hbehind b' hmem)
  | exhausted hmiss hused =>
      refine .inr ⟨hmiss, .inr ⟨fun b => ?_, hr⟩⟩
      by_contra hb
      exact hused b ((hcount b).mpr hb)

/-- A process reads block 7 of device 1 and releases it. -/
theorem run_release : ∃ tr m, (machine 0 fun _ => 5).Run (boot 0 fun _ => 5) tr m ∧
    (m.buf ⟨0, by decide⟩).key = (1, 7) ∧ (m.buf ⟨0, by decide⟩).refcnt = 0 ∧
    (∀ b, (m.buf b).key ≠ (1, 8)) ∧
    (bget m.bcache (1, 8)).map (fun r => r.toOption.map Prod.fst) = some (some ⟨1, by decide⟩) ∧
    lastRelease tr ⟨1, by decide⟩ < lastRelease tr ⟨0, by decide⟩ := by
  have hget : (machine (0 : Nat) fun _ => 5).step (boot 0 fun _ => 5) (.bget ⟨3, by decide⟩ (1, 7))
    _ := ⟨rfl, .bget rfl (by decide) rfl⟩
  have hlock := (Run.single hget).snoc ⟨rfl, .lock (p := ⟨3, by decide⟩) rfl rfl⟩
  have hread := (hlock.snoc ⟨rfl, .fill (p := ⟨3, by decide⟩) rfl rfl⟩).snoc
    ⟨rfl, .filled (p := ⟨3, by decide⟩) rfl⟩
  have hrun := (hread.snoc ⟨rfl, .brelse (p := ⟨3, by decide⟩) (b := ⟨0, by decide⟩) rfl rfl⟩).snoc
    ⟨rfl, .drop (p := ⟨3, by decide⟩) rfl⟩
  exact ⟨_, _, hrun, rfl, rfl, by decide +kernel, by decide +kernel, by decide +kernel⟩

/-- For block 8 `bget` then recycles another buffer, which has been free for longer, and block 7
    stays in the cache. -/
theorem bget_recycles_least_recent_release :
    ∃ tr m b b', (machine 0 fun _ => 5).Run (boot 0 fun _ => 5) tr m ∧ (m.buf b').key = (1, 7) ∧
      ¬ m.Used b' ∧ ¬ m.Used b ∧ lastRelease tr b < lastRelease tr b' ∧
      bget m.bcache (1, 8) = some (.ok (b, m.bcache.set b
        { m.buf b with dev := 1, blockno := 8, valid := false, refcnt := 1 })) := by
  obtain ⟨tr, m, hrun, hkey, hzero, hmiss, hchosen, hlast⟩ := run_release
  obtain ⟨order, hfine⟩ := fine_of_reachable ⟨_, tr, rfl, hrun⟩
  have hfree : ¬ m.Used ⟨0, by decide⟩ := hfine.counted.refcnt_eq_zero.mp hzero
  rcases bget_recycles_least_recent hrun (1, 8) with ⟨b, hhit, -⟩ | ⟨-, hrecycled | ⟨hused, -⟩⟩
  · exact absurd hhit (hmiss b)
  · obtain ⟨b, hunused, -, hgot⟩ := hrecycled
    rw [hgot] at hchosen
    obtain rfl : b = ⟨1, by decide⟩ := Option.some.inj (Option.some.inj hchosen)
    exact ⟨tr, m, _, _, hrun, hkey, hfree, hunused, hlast, hgot⟩
  · exact absurd (hused _) hfree

end Bio

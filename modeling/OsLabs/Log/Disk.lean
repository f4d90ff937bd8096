-- SUMMARY: What the blocks of a disk with a log say: the header round trip, the content that a disk holds, and the disk writes of commit and recovery.
import OsLabs.Log.Model

/-!
# Disks with a log

A disk *holds* a content if the blocks that its log header names are in the log, and all other
blocks are at home. The content is what a recovery would bring about. The lemmas of
this file say which disk writes keep it, and which one replaces it.
-/

namespace Log

variable {L : Layout}

/-- The block numbers outside the log. -/
abbrev HomeBlock (L : Layout) : Type := { b : Nat // L.Home b }

/-! ## The header -/

/-- The header of a transaction is read back as it was written. -/
theorem head_setHead {lh : List Nat} (hlen : lh.length ≤ LOGSIZE) (hlt : ∀ b ∈ lh, b < 2 ^ 32)
    (hb : Block) : (Block.setHead hb lh).head = lh := by
  have hn : (BitVec.ofNat 32 lh.length).toInt.toNat = lh.length := by
    have hsmall : lh.length < 2 ^ 31 := by
      have : LOGSIZE < 2 ^ 31 := by decide
      omega
    rw [BitVec.toInt_eq_toNat_of_lt] <;> simp only [BitVec.toNat_ofNat] <;> omega
  have hzero : Block.setHead hb lh 0 = BitVec.ofNat 32 lh.length := by simp [Block.setHead]
  apply List.ext_getElem
  · rw [Block.head, List.length_map, List.length_range, hzero, hn]
  · intro i hi hi'
    have hi256 : (i + 1) % 256 = i + 1 := Nat.mod_eq_of_lt (by
      have : LOGSIZE < 255 := by decide
      omega)
    have hentry : Block.setHead hb lh (Fin.ofNat 256 (i + 1)) = BitVec.ofNat 32 lh[i] := by
      have hne : Fin.ofNat 256 (i + 1) ≠ 0 := by
        intro h
        simpa [hi256] using congrArg Fin.val h
      have hle : (Fin.ofNat 256 (i + 1)).val ≤ lh.length := by
        rw [Fin.val_ofNat, hi256]
        exact hi'
      rw [Block.setHead, if_neg hne, if_pos hle]
      simp [hi256, hi']
    simp only [Block.head, List.getElem_map, List.getElem_range, hentry, BitVec.toNat_ofNat]
    exact Nat.mod_eq_of_lt (hlt _ (List.getElem_mem hi'))

/-! ## Addresses -/

theorem Layout.Home.ne_start {b : Nat} (h : L.Home b) : b ≠ L.start := by
  have := L.pos
  rcases h.2 with h | h <;> omega

theorem Layout.Home.ne_log {b i : Nat} (h : L.Home b) (hi : i + 1 < L.size) :
    b ≠ L.start + i + 1 := by
  rcases h.2 with h | h <;> omega

/-- Blocks that fit into the log. -/
structure Listed (L : Layout) (hs : List Nat) : Prop where
  nodup : hs.Nodup
  home : ∀ b ∈ hs, L.Home b
  le : hs.length ≤ LOGSIZE
  lt : hs.length < L.size

theorem Listed.nil (L : Layout) : Listed L [] := ⟨.nil, by simp, by simp, L.pos⟩

theorem Listed.home_at {hs : List Nat} (h : Listed L hs) {i b : Nat} (hi : hs[i]? = some b) :
    L.Home b :=
  h.home b (List.mem_of_getElem? hi)

theorem Listed.fits {hs : List Nat} (h : Listed L hs) {i b : Nat} (hi : hs[i]? = some b) :
    i + 1 < L.size := by
  obtain ⟨hlt, -⟩ := List.getElem?_eq_some_iff.mp hi
  have := h.lt
  omega

/-! ## What a disk holds -/

structure Holds (L : Layout) (d : Nat → Block) (hs : List Nat) (c : HomeBlock L → Block) :
    Prop where
  listed : Listed L hs
  head : (d L.start).head = hs
  logged : ∀ i (b : HomeBlock L), hs[i]? = some b.1 → d (L.start + i + 1) = c b
  other : ∀ b : HomeBlock L, b.1 ∉ hs → d b.1 = c b

variable {d : Nat → Block} {hs : List Nat} {c c' : HomeBlock L → Block}

theorem Holds.home (h : Holds L d [] c) (b : HomeBlock L) : d b.1 = c b := h.other b (by simp)

/-- Blocks are copied to a log that is not in use. -/
theorem Holds.write_log (h : Holds L d [] c) {i : Nat} (hi : i + 1 < L.size) (v : Block) :
    Holds L (Function.update d (L.start + i + 1) v) [] c where
  listed := h.listed
  head := by
    rw [Function.update_of_ne (by omega)]
    exact h.head
  logged j b hj := by simp at hj
  other b hb := by
    rw [Function.update_of_ne (b.2.ne_log hi)]
    exact h.other b hb

/-- The write of the header replaces the content. -/
theorem Holds.commit (h : Holds L d [] c) (hlisted : Listed L hs)
    (hlogged : ∀ i (b : HomeBlock L), hs[i]? = some b.1 → d (L.start + i + 1) = c' b)
    (hother : ∀ b : HomeBlock L, b.1 ∉ hs → c b = c' b) (hb : Block) :
    Holds L (Function.update d L.start (Block.setHead hb hs)) hs c' where
  listed := hlisted
  head := by
    rw [Function.update_self]
    exact head_setHead hlisted.le (fun b hb => (hlisted.home b hb).1) hb
  logged i b hi := by
    rw [Function.update_of_ne (by omega)]
    exact hlogged i b hi
  other b hb := by
    rw [Function.update_of_ne b.2.ne_start, h.home]
    exact hother b hb

/-- A block is copied from the log to its home. -/
theorem Holds.install (h : Holds L d hs c) (b : HomeBlock L) :
    Holds L (Function.update d b.1 (c b)) hs c where
  listed := h.listed
  head := by
    rw [Function.update_of_ne b.2.ne_start.symm]
    exact h.head
  logged j b' hj := by
    rw [Function.update_of_ne (b.2.ne_log (h.listed.fits hj)).symm]
    exact h.logged j b' hj
  other b' hb' := by
    by_cases heq : b' = b
    · rw [heq, Function.update_self]
    · rw [Function.update_of_ne fun hval => heq (Subtype.ext hval)]
      exact h.other b' hb'

/-- The header is erased when every block is at home. -/
theorem Holds.erase (hhome : ∀ b : HomeBlock L, d b.1 = c b) (hb : Block) :
    Holds L (Function.update d L.start (Block.setHead hb [])) [] c where
  listed := .nil L
  head := by
    rw [Function.update_self]
    exact head_setHead (by simp) (by simp) hb
  logged i b hi := by simp at hi
  other b _ := by
    rw [Function.update_of_ne b.2.ne_start]
    exact hhome b

/-- The layout that `mkfs` writes to the super block. -/
def mkfsLayout : Layout := ⟨2, LOGSIZE, by decide⟩

/-- A disk with an empty log holds what is at home. -/
theorem holds_home (h : (d L.start).head = []) : Holds L d [] (fun b => d b.1) :=
  ⟨.nil L, h, by simp, fun _ _ => rfl⟩

/-- A disk of zeros has an empty log. -/
theorem holds_blank (L : Layout) : Holds L (fun _ _ => 0) [] (fun _ _ => 0) := holds_home rfl

/-! ## The cache -/

variable {s : State} {b : Nat} {v : Block}

@[simp] theorem data_fill : (s.fill b v).data = Function.update s.data b v := by
  funext c
  by_cases hc : c = b
  · subst hc
    simp [State.data, State.fill]
  · simp [State.data, State.fill, hc]

@[simp] theorem data_bread (b : Nat) : (s.bread b).data = s.data := by
  rw [State.bread, data_fill, Function.update_eq_self]

@[simp] theorem data_bwrite : (s.bwrite b v).data = Function.update s.data b v := by
  funext c
  by_cases hc : c = b
  · subst hc
    simp [State.data, State.bwrite, State.fill]
  · simp [State.data, State.bwrite, State.fill, hc]

@[simp] theorem data_evict : (s.evict b).data = Function.update s.data b (s.disk b) := by
  funext c
  by_cases hc : c = b
  · subst hc
    simp [State.data, State.evict]
  · simp [State.data, State.evict, hc]

@[simp] theorem data_write_log (L : Layout) (tail : Nat) : (write_log L tail s).data =
    Function.update s.data (L.start + tail + 1) (s.data (s.lh.getD tail 0)) := by
  simp [write_log]

@[simp] theorem data_write_head (L : Layout) : (write_head L s).data =
    Function.update s.data L.start (Block.setHead (s.data L.start) s.lh) := by
  simp [write_head]

@[simp] theorem data_install_trans (L : Layout) (recovering : Bool) (tail : Nat) :
    (install_trans L recovering tail s).data =
      Function.update s.data (s.lh.getD tail 0) (s.data (L.start + tail + 1)) := by
  cases recovering with
  | true => simp [install_trans]
  | false =>
      have hunpin : ∀ (s : State) b, (s.bunpin b).data = s.data := fun _ _ => rfl
      simp [install_trans, hunpin]

theorem disk_write_log (L : Layout) (tail : Nat) : (write_log L tail s).disk =
    Function.update s.disk (L.start + tail + 1) (s.data (s.lh.getD tail 0)) := by
  simp [write_log, State.bwrite]
  rfl

theorem disk_install_trans (L : Layout) (recovering : Bool) (tail : Nat) :
    (install_trans L recovering tail s).disk =
      Function.update s.disk (s.lh.getD tail 0) (s.data (L.start + tail + 1)) := by
  cases recovering <;> simp [install_trans, State.bwrite, State.bunpin] <;> rfl

end Log

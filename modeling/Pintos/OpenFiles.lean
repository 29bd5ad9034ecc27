import Pintos.InodeTable

/-! # Open files and the denial of writes

`deny_write` of a file and `deny_write_cnt` of its inode, over sequences of calls that open, reopen
and close files and directories, and deny and allow writes.

* `refs`: the openers of an inode are the open files and directories that point to it, and
  `free_map_file`.
* `Files k held`: the counts of all inodes are right, with `held` openers.  Between two calls
  `held` is `refs`; inside a call an opener can be there before the file that holds it.
* `writeDenial_exact`: `deny_write_cnt` is the number of open files that deny writes, no assertion
  fails, and a write of one byte or more returns 0 iff there is such a file. -/

namespace Pintos.Kernel

open Fs Heap Interaction Option

/-! ### Files and directories in memory -/

/-- The handle is one of the inode at `p`. -/
def pointsTo (p : Ptr) (h : Handle) : Bool := h.inode == some p

def denies (p : Ptr) (h : Handle) : Bool := pointsTo p h && h.denyWrite

def refs (m : Memory) (p : Ptr) : ℤ :=
  (if m.freeMapFile = some p then 1 else 0) + m.handles.count (pointsTo p)

def deniers (m : Memory) (p : Ptr) : ℕ := m.handles.count (denies p)

/-- The memory with other handles, or other inodes. -/
def withHandles (m : Memory) (handles : Heap Handle) : Memory := { m with handles := handles }

def withInodes (m : Memory) (inodes : Heap Inode) : Memory := { m with inodes := inodes }

@[simp] theorem withHandles_handles (m : Memory) (hs : Heap Handle) :
    (withHandles m hs).handles = hs := rfl

@[simp] theorem withHandles_inodes (m : Memory) (hs : Heap Handle) :
    (withHandles m hs).inodes = m.inodes := rfl

@[simp] theorem withInodes_handles (m : Memory) (is : Heap Inode) :
    (withInodes m is).handles = m.handles := rfl

@[simp] theorem withInodes_inodes (m : Memory) (is : Heap Inode) : (withInodes m is).inodes = is := rfl

structure Files (k : Kernel) (held : Ptr → ℤ) : Prop where
  opened : Opened k.2 held
  map : MapOpen k
  kept : ∀ p i, k.2.inodes.cells p = some i → i.removed = false
  deny : ∀ p i, k.2.inodes.cells p = some i → i.denyWriteCnt = deniers k.2 p
  inode : ∀ f h, k.2.handles.cells f = some h → ∃ p, h.inode = some p ∧ p < k.2.inodes.next

variable {m m' : Memory} {Q : Unit → Kernel → Prop} {depth : ℕ}

section

variable {k : Kernel} {f p q : Ptr} {h h' : Handle} {i : Inode} {held : Ptr → ℤ}

theorem ensures_getHandle (hf : k.2.handles.cells f = some h) {Q : Handle → Kernel → Prop} :
    Ensures kernelHandler (getHandle f) k Q ↔ Q h k := by
  simp [getHandle, hf]

theorem put_withHandles (hk : Synced k) (hs : Heap Handle) :
    put k (withHandles k.2 hs) = (k.1, withHandles k.2 hs) := put_eq hk

theorem ensures_setHandle (hk : Synced k) : Ensures kernelHandler (setHandle f h) k Q ↔
      Q () (k.1, withHandles k.2 (k.2.handles.store f h)) := by
  rw [← put_withHandles hk, setHandle,
    ensures_bind, ensures_memory, ensures_setMemory]
  rfl

theorem ensures_freeHandle (hk : Synced k) : Ensures kernelHandler (freeHandle f) k Q ↔
      Q () (k.1, withHandles k.2 (k.2.handles.free f)) := by
  rw [← put_withHandles hk, freeHandle,
    ensures_bind, ensures_memory, ensures_setMemory]
  rfl

theorem ensures_handleOpen (hk : Synced k) {Q : Option Ptr → Kernel → Prop} :
    Ensures kernelHandler (handleOpen (some p)) k Q ↔
      Q (some k.2.handles.next) (k.1, withHandles k.2 (k.2.handles.alloc ⟨some p, 0, false⟩)) := by
  rw [← put_withHandles hk, handleOpen,
    ensures_bind, newHandle, ensures_bind, ensures_memory, ensures_bind, ensures_setMemory,
    ensures_ret, ensures_ret]
  rfl

theorem ensures_setInode_put : Ensures kernelHandler (setInode p i) k Q ↔
      Q () (put k (withInodes k.2 (k.2.inodes.store p i))) := by
  rw [setInode, ensures_bind, ensures_memory, ensures_setMemory]
  rfl

theorem ensures_handleInode (hf : k.2.handles.cells f = some h) (hp : h.inode = some p)
    (hi : k.2.inodes.cells p = some i) {Q : Inode → Kernel → Prop} :
    Ensures kernelHandler (handleInode f) k Q ↔ Q i k := by
  rw [handleInode, ensures_bind, ensures_getHandle hf, ensures_bind, hp, deref, ensures_ret,
    ensures_getInode hi]

/-! ### The counts -/

theorem pointsTo_self (hp : h.inode = some p) : pointsTo p h = true := by
  rw [pointsTo, hp, beq_self_eq_true]

theorem pointsTo_of_ne (hp : h.inode = some p) (hne : q ≠ p) : pointsTo q h = false := by
  rw [pointsTo, hp, beq_eq_false_iff_ne]
  exact fun heq => hne (some.inj heq).symm

theorem denies_self (hp : h.inode = some p) : denies p h = h.denyWrite := by
  rw [denies, pointsTo_self hp, Bool.true_and]

theorem denies_of_ne (hp : h.inode = some p) (hne : q ≠ p) : denies q h = false := by
  rw [denies, pointsTo_of_ne hp hne, Bool.false_and]

theorem deniers_withHandles (m : Memory) (hs : Heap Handle) :
    deniers (withHandles m hs) q = hs.count (denies q) := rfl

theorem deniers_le (m : Memory) (p : Ptr) : (deniers m p : ℤ) ≤ refs m p := by
  have hle : deniers m p ≤ m.handles.count (pointsTo p) :=
    count_le fun h hh => (Bool.and_eq_true_iff.mp hh).1
  unfold refs
  split_ifs <;> omega

theorem refs_pos (hf : k.2.handles.cells f = some h) (hp : h.inode = some p) :
    0 < k.2.handles.count (pointsTo p) :=
  (count_pos_iff _).mpr ⟨f, h, hf, pointsTo_self hp⟩

theorem refs_withHandles (m : Memory) (hs : Heap Handle) : refs (withHandles m hs) q =
    (if m.freeMapFile = some q then 1 else 0) + hs.count (pointsTo q) := rfl

theorem refs_alloc (m : Memory) : refs (withHandles m (m.handles.alloc ⟨some p, 0, false⟩)) =
    gain (refs m) p := by
  funext q
  rw [refs_withHandles, count_alloc]
  rcases eq_or_ne q p with rfl | hne
  · rw [gain_self, refs, pointsTo_self rfl, Bool.toNat_true]
    push_cast
    ring
  · rw [gain_of_ne hne, refs, pointsTo_of_ne rfl hne]
    rfl

theorem refs_free (hf : k.2.handles.cells f = some h) (hp : h.inode = some p) :
    refs (withHandles k.2 (k.2.handles.free f)) = lose (refs k.2) p := by
  funext q
  have hcount := count_free (pointsTo q) hf
  rw [refs_withHandles]
  rcases eq_or_ne q p with rfl | hne
  · rw [pointsTo_self hp, Bool.toNat_true] at hcount
    rw [lose_self, refs]
    omega
  · rw [pointsTo_of_ne hp hne, Bool.toNat_false] at hcount
    rw [lose_of_ne hne, refs]
    omega

theorem refs_store (hf : k.2.handles.cells f = some h) (hh : h'.inode = h.inode) :
    refs (withHandles k.2 (k.2.handles.store f h')) = refs k.2 := by
  funext q
  have hcount := count_store (pointsTo q) hf h'
  rw [pointsTo, pointsTo, hh] at hcount
  rw [refs_withHandles, refs, Nat.add_right_cancel hcount]

theorem InodesStep.refs_eq (h : InodesStep m m') : refs m' = refs m := by
  rw [h.rest]
  rfl

theorem InodesStep.handles_eq (h : InodesStep m m') : m'.handles = m.handles := by
  rw [h.rest]

theorem InodesStep.freeMapFile_eq (h : InodesStep m m') : m'.freeMapFile = m.freeMapFile := by
  rw [h.rest]

/-! ### Openers and handles change -/

namespace Files

/-- The inodes change in their openers, and a new one is not removed and denies no write. -/
theorem step (hF : Files k held) {k' : Kernel} {held' : Ptr → ℤ} (hstep : InodesStep k.2 k'.2)
    (hopened : Opened k'.2 held') (hmap : MapOpen k')
    (hnew : ∀ p i, k'.2.inodes.cells p = some i → (∃ j, k.2.inodes.cells p = some j) ∨
      (p = k.2.inodes.next ∧ i.removed = false ∧ i.denyWriteCnt = 0)) : Files k' held' := by
  have hdeniers : deniers k'.2 = deniers k.2 := by
    funext q
    rw [deniers, deniers, hstep.handles_eq]
  refine ⟨hopened, hmap, fun p i hi => ?_, fun p i hi => ?_, fun f h hf => ?_⟩
  · rcases hnew p i hi with ⟨j, hj⟩ | ⟨-, hfalse, -⟩
    · rw [hstep.keeps p j i hj hi]
      exact hF.kept p j hj
    · exact hfalse
  · rw [hdeniers]
    rcases hnew p i hi with ⟨j, hj⟩ | ⟨rfl, -, hzero⟩
    · rw [hstep.keeps p j i hj hi]
      exact hF.deny p j hj
    · -- no handle points to an address that was not given out yet
      rw [hzero]
      refine (Int.natCast_eq_zero.mpr (Nat.eq_zero_of_not_pos fun hpos => ?_)).symm
      obtain ⟨f, h, hf, hden⟩ := (count_pos_iff _).mp hpos
      obtain ⟨p, hp, hlt⟩ := hF.inode f h hf
      have hpt := (Bool.and_eq_true_iff.mp hden).1
      rw [pointsTo, hp, beq_iff_eq, some.injEq] at hpt
      exact absurd hlt (hpt ▸ lt_irrefl _)
  · rw [hstep.handles_eq] at hf
    obtain ⟨p, hp, hlt⟩ := hF.inode f h hf
    exact ⟨p, hp, lt_of_lt_of_le hlt hstep.next_le⟩

theorem alloc (hF : Files k (gain (refs k.2) p)) (hlt : p < k.2.inodes.next) :
    Files (k.1, withHandles k.2 (k.2.handles.alloc ⟨some p, 0, false⟩))
      (refs (withHandles k.2 (k.2.handles.alloc ⟨some p, 0, false⟩))) := by
  rw [refs_alloc]
  refine ⟨{ hF.opened with }, ⟨hF.map.synced, hF.map.live⟩, hF.kept, fun q i hi => ?_,
    fun f h hf => ?_⟩
  · rw [hF.deny q i hi, deniers_withHandles, deniers, count_alloc, denies, Bool.and_false]
    rfl
  · simp only [withHandles_handles] at hf
    rcases of_alloc hf with ⟨-, rfl⟩ | ⟨-, hf⟩
    · exact ⟨p, rfl, hlt⟩
    · exact hF.inode f h hf

/-- A handle that denies no write goes, after the opener it held. -/
theorem free (hF : Files k (lose (refs k.2) p)) (hf : k.2.handles.cells f = some h)
    (hp : h.inode = some p) (hden : h.denyWrite = false) :
    Files (k.1, withHandles k.2 (k.2.handles.free f))
      (refs (withHandles k.2 (k.2.handles.free f))) := by
  rw [refs_free hf hp]
  refine ⟨{ hF.opened with }, ⟨hF.map.synced, hF.map.live⟩, hF.kept, fun q i hi => ?_,
    fun g h' hg => ?_⟩
  · have hcount := count_free (denies q) hf
    rw [denies, hden, Bool.and_false, Bool.toNat_false, Nat.add_zero] at hcount
    rw [hF.deny q i hi, deniers_withHandles, deniers, hcount]
  · exact hF.inode g h' (of_free hg).2

variable {b : Bool} {n : ℤ}

theorem setFlag (hF : Files k (refs k.2)) (hf : k.2.handles.cells f = some h)
    (hp : h.inode = some p) (hi : k.2.inodes.cells p = some i)
    (hn : n + h.denyWrite.toNat = i.denyWriteCnt + b.toNat) :
    Files (put k (withInodes (withHandles k.2 (k.2.handles.store f { h with denyWrite := b }))
        (k.2.inodes.store p { i with denyWriteCnt := n })))
      (refs (withInodes (withHandles k.2 (k.2.handles.store f { h with denyWrite := b }))
        (k.2.inodes.store p { i with denyWriteCnt := n }))) := by
  have hcount := hF.opened.count p i hi
  have hpos : 0 < refs k.2 p := hF.opened.pos_iff.mpr ⟨i, hi⟩
  have hopened := hF.opened.store (j := { i with denyWriteCnt := n }) hi rfl (hcount ▸ hpos)
  rw [show Function.update (refs k.2) p i.openCnt = refs k.2 by
    rw [hcount, Function.update_eq_self]] at hopened
  rw [show ∀ m is, refs (withInodes m is) = refs m from fun _ _ => rfl, refs_store hf (by rfl)]
  refine ⟨{ hopened with }, ⟨rfl, ?_⟩, fun q j hj => ?_, fun q j hj => ?_, fun g h' hg => ?_⟩
  · obtain ⟨q, j, hq, hj⟩ := hF.map.live
    rcases eq_or_ne q p with rfl | hne
    · exact ⟨q, _, hq, store_self hi⟩
    · exact ⟨q, j, hq, (store_of_ne hne).trans hj⟩
  · simp only [put_snd, withInodes_inodes] at hj
    rcases of_store hj with ⟨rfl, rfl⟩ | ⟨-, hj⟩
    · exact hF.kept q i hi
    · exact hF.kept q j hj
  · simp only [put_snd, withInodes_inodes] at hj
    rw [put_snd, show ∀ m is, deniers (withInodes m is) q = deniers m q from fun _ _ => rfl,
      deniers_withHandles]
    have hden := count_store (denies q) hf { h with denyWrite := b }
    have hold := hF.deny p i hi
    unfold deniers at hold
    rcases of_store hj with ⟨rfl, rfl⟩ | ⟨hne, hj⟩
    · rw [denies_self hp, denies_self (show Handle.inode { h with denyWrite := b } = some q from hp)]
        at hden
      dsimp only at hden ⊢
      omega
    · rw [denies_of_ne hp hne,
        denies_of_ne (show Handle.inode { h with denyWrite := b } = some p from hp) hne] at hden
      rw [hF.deny q j hj, deniers, Nat.add_right_cancel hden]
  · simp only [put_snd, withInodes_handles, withHandles_handles] at hg
    rcases of_store hg with ⟨rfl, rfl⟩ | ⟨-, hg⟩
    · exact hF.inode g h hf
    · exact hF.inode g h' hg

/-! ### The functions -/

theorem inodeReopen (hF : Files k held) (hp : 0 < held p) :
    Ensures kernelHandler (inodeReopen (some p)) k (fun r k' => r = some p ∧
      k'.2.handles = k.2.handles ∧ refs k'.2 = refs k.2 ∧ p < k'.2.inodes.next ∧
      Files k' (gain held p)) := by
  refine (inodeReopen_spec hF.opened hF.map hp).mono ?_
  rintro _ k' ⟨rfl, -, hopened, hstep, hmap⟩
  obtain ⟨i, hi⟩ := hF.opened.pos_iff.mp hp
  refine ⟨rfl, hstep.handles_eq, hstep.refs_eq, lt_of_lt_of_le (lt_next hi) hstep.next_le,
    hF.step hstep hopened hmap fun q j hj => .inl ?_⟩
  have hpos := hopened.pos_iff.mpr ⟨j, hj⟩
  rcases eq_or_ne q p with rfl | hne
  · exact ⟨i, hi⟩
  · exact hF.opened.pos_iff.mp (by rwa [gain_of_ne hne] at hpos)

theorem inodeOpen (hF : Files k held) (s : Sector) :
    Ensures kernelHandler (inodeOpen s) k (fun r k' => ∃ p, r = some p ∧
      k'.2.handles = k.2.handles ∧ refs k'.2 = refs k.2 ∧ p < k'.2.inodes.next ∧
      Files k' (gain held p)) := by
  refine (inodeOpen_spec hF.opened hF.map s).mono ?_
  rintro _ k' ⟨p, i, rfl, -, hi, -, hfresh, hopened, hstep, hmap⟩
  refine ⟨p, rfl, hstep.handles_eq, hstep.refs_eq, lt_next hi,
    hF.step hstep hopened hmap fun q j hj => ?_⟩
  have hpos := hopened.pos_iff.mpr ⟨j, hj⟩
  rcases eq_or_ne q p with rfl | hne
  · rcases hfresh with hlive | ⟨rfl, rfl⟩
    · exact .inl (isSome_iff_exists.mp hlive)
    · rw [hi] at hj
      cases hj
      exact .inr ⟨rfl, rfl, rfl⟩
  · exact .inl (hF.opened.pos_iff.mp (by rwa [gain_of_ne hne] at hpos))

theorem inodeClose (hF : Files k held) (hp : 0 < held p)
    (hmap : k.2.freeMapFile = some p → held p ≠ 1) :
    Ensures kernelHandler (inodeClose depth (some p)) k (fun _ k' =>
      k'.2.handles = k.2.handles ∧ refs k'.2 = refs k.2 ∧ Files k' (lose held p)) := by
  obtain ⟨i, hi⟩ := hF.opened.pos_iff.mp hp
  refine (inodeClose_quiet hF.opened hF.map hi (fun hrem => ?_) hmap).mono ?_
  · rw [hF.kept p i hi] at hrem
    cases hrem
  rintro _ k' ⟨-, hopened, hstep, hmap⟩
  refine ⟨hstep.handles_eq, hstep.refs_eq, hF.step hstep hopened hmap fun q j hj => .inl ?_⟩
  have hpos := hopened.pos_iff.mpr ⟨j, hj⟩
  rcases eq_or_ne q p with rfl | hne
  · exact ⟨i, hi⟩
  · exact hF.opened.pos_iff.mp (by rwa [lose_of_ne hne] at hpos)

/-- `file_open` and `dir_open` of an inode that `inode_open` returned. -/
theorem openHandle (hF : Files k (refs k.2)) (s : Sector) :
    Ensures kernelHandler (do handleOpen (← Kernel.inodeOpen s)) k (fun r k' =>
      Files k' (refs k'.2) ∧ r = some k.2.handles.next ∧
        ∃ p, k'.2.handles = k.2.handles.alloc ⟨some p, 0, false⟩) := by
  rw [ensures_bind]
  refine (hF.inodeOpen s).mono ?_
  rintro _ k' ⟨p, rfl, hhandles, hrefs, hlt, hF'⟩
  rw [ensures_handleOpen hF'.map.synced, ← hhandles]
  rw [← hrefs] at hF'
  exact ⟨hF'.alloc hlt, rfl, p, rfl⟩

theorem fileReopen (hF : Files k (refs k.2)) (hf : k.2.handles.cells f = some h)
    (hp : h.inode = some p) :
    Ensures kernelHandler (fileReopen (some f)) k (fun r k' =>
      Files k' (refs k'.2) ∧ r = some k.2.handles.next ∧
        ∃ p, k'.2.handles = k.2.handles.alloc ⟨some p, 0, false⟩) := by
  have hpos : 0 < refs k.2 p := by
    have := refs_pos hf hp
    unfold refs
    split_ifs <;> omega
  rw [Kernel.fileReopen, ensures_bind, deref, ensures_ret, ensures_bind, ensures_getHandle hf, hp,
    ensures_bind]
  refine (hF.inodeReopen hpos).mono ?_
  rintro _ k' ⟨rfl, hhandles, hrefs, hlt, hF'⟩
  rw [fileOpen, ensures_handleOpen hF'.map.synced, ← hhandles]
  rw [← hrefs] at hF'
  exact ⟨hF'.alloc hlt, rfl, p, rfl⟩

/-- After the flag of one file is set. -/
structure Flagged (k k' : Kernel) (f : Ptr) (h : Handle) (b : Bool) : Prop where
  files : Files k' (refs k'.2)
  self : k'.2.handles.cells f = some { h with denyWrite := b }
  others : ∀ g, g ≠ f → k'.2.handles.cells g = k.2.handles.cells g

section

variable (hF : Files k (refs k.2)) (hf : k.2.handles.cells f = some h)
include hF hf

theorem flagged_refl : Flagged k k f h h.denyWrite := ⟨hF, hf, fun _ _ => rfl⟩

theorem flagged_put (hp : h.inode = some p) (hi : k.2.inodes.cells p = some i)
    (hn : n + h.denyWrite.toNat = i.denyWriteCnt + b.toNat) :
    Flagged k (put k (withInodes (withHandles k.2 (k.2.handles.store f { h with denyWrite := b }))
      (k.2.inodes.store p { i with denyWriteCnt := n }))) f h b :=
  ⟨hF.setFlag hf hp hi hn, store_self hf, fun _ hg => store_of_ne hg⟩

theorem live (hp : h.inode = some p) : ∃ i, k.2.inodes.cells p = some i := by
  refine hF.opened.pos_iff.mp ?_
  have := refs_pos hf hp
  unfold refs
  split_ifs <;> omega

theorem fileDenyWrite :
    Ensures kernelHandler (fileDenyWrite (some f)) k (fun _ k' => Flagged k k' f h true) := by
  obtain ⟨p, hp, -⟩ := hF.inode f h hf
  obtain ⟨i, hi⟩ := hF.live hf hp
  rw [Kernel.fileDenyWrite, ensures_bind, ensures_assert]
  refine ⟨by simp, ?_⟩
  rw [ensures_bind, deref, ensures_ret, ensures_bind, ensures_getHandle hf]
  split_ifs with hden
  · rw [ensures_ret, ← hden]
    exact hF.flagged_refl hf
  · have hflag : Flagged k _ f h true :=
      hF.flagged_put (n := i.denyWriteCnt + 1) hf hp hi (by simp [hden])
    -- the file that is flagged now is one of the openers
    have hle := deniers_le (put k (withInodes
      (withHandles k.2 (k.2.handles.store f { h with denyWrite := true }))
      (k.2.inodes.store p { i with denyWriteCnt := i.denyWriteCnt + 1 }))).2 p
    rw [← hflag.files.deny p _ (store_self hi), ← hflag.files.opened.count p _ (store_self hi)]
      at hle
    rw [ensures_bind, ensures_setHandle hF.map.synced, inodeDenyWrite, ensures_bind, ensures_deref]
    refine ⟨p, hp, ?_⟩
    rw [ensures_bind, ensures_getInode (i := i) (by exact hi), ensures_bind,
      ensures_setInode_put, ensures_assert]
    exact ⟨hle, hflag⟩

theorem fileAllowWrite :
    Ensures kernelHandler (fileAllowWrite (some f)) k (fun _ k' => Flagged k k' f h false) := by
  obtain ⟨p, hp, -⟩ := hF.inode f h hf
  obtain ⟨i, hi⟩ := hF.live hf hp
  rw [Kernel.fileAllowWrite, ensures_bind, ensures_assert]
  refine ⟨by simp, ?_⟩
  rw [ensures_bind, deref, ensures_ret, ensures_bind, ensures_getHandle hf]
  split_ifs with hden
  · have hflag : Flagged k _ f h false :=
      hF.flagged_put (n := i.denyWriteCnt - 1) hf hp hi (by simp [hden])
    have hpos : 0 < i.denyWriteCnt := by
      rw [hF.deny p i hi]
      exact Int.natCast_pos.mpr ((count_pos_iff _).mpr ⟨f, h, hf, by rw [denies_self hp, hden]⟩)
    have hle : i.denyWriteCnt ≤ i.openCnt := by
      rw [hF.deny p i hi, hF.opened.count p i hi]
      exact deniers_le k.2 p
    rw [ensures_bind, ensures_setHandle hF.map.synced, inodeAllowWrite, ensures_bind, ensures_deref]
    refine ⟨p, hp, ?_⟩
    rw [ensures_bind, ensures_getInode (i := i) (by exact hi), ensures_bind,
      ensures_assert]
    refine ⟨hpos, ?_⟩
    rw [ensures_bind, ensures_assert, ensures_setInode_put]
    exact ⟨hle, hflag⟩
  · rw [ensures_ret]
    rw [← Bool.eq_false_iff.mpr hden]
    exact hF.flagged_refl hf

/-- The end of `file_close` and `dir_close`. -/
theorem closeHandle (hden : h.denyWrite = false) :
    Ensures kernelHandler (dirClose depth (some f)) k (fun _ k' =>
      Files k' (refs k'.2) ∧ k'.2.handles = k.2.handles.free f) := by
  obtain ⟨p, hp, -⟩ := hF.inode f h hf
  have hpos := refs_pos hf hp
  rw [dirClose, ensures_bind, ensures_getHandle hf, hp, ensures_bind]
  refine (hF.inodeClose (p := p) ?_ fun hfile => ?_).mono ?_
  · unfold refs
    split_ifs <;> omega
  · rw [refs, if_pos hfile]
    omega
  rintro _ k' ⟨hhandles, hrefs, hF'⟩
  rw [ensures_freeHandle hF'.map.synced, ← hhandles]
  rw [← hrefs] at hF'
  exact ⟨hF'.free (hhandles ▸ hf) hp hden, rfl⟩

theorem fileClose :
    Ensures kernelHandler (fileClose depth (some f)) k (fun _ k' => Files k' (refs k'.2) ∧
      k'.2.handles.cells f = none ∧ ∀ g, g ≠ f → k'.2.handles.cells g = k.2.handles.cells g) := by
  rw [Kernel.fileClose, ensures_bind]
  refine (hF.fileAllowWrite hf).mono ?_
  intro _ k1 h1
  refine (h1.files.closeHandle h1.self rfl).mono ?_
  rintro _ k' ⟨hF', hhandles⟩
  rw [hhandles]
  refine ⟨hF', free_self, fun g hg => ?_⟩
  rw [free_of_ne hg]
  exact h1.others g hg

end

end Files

end

/-! ### Sequences of calls -/

inductive Kind
  | file
  | dir
deriving DecidableEq

/-- The calls; a file or directory is opened for the inode of a sector. -/
inductive HandleCall
  | fileOpen (sector : Sector)
  | fileReopen (f : Ptr)
  | fileDenyWrite (f : Ptr)
  | fileAllowWrite (f : Ptr)
  | fileClose (f : Ptr)
  | dirOpen (sector : Sector)
  | dirClose (d : Ptr)

def HandleCall.prog (depth : ℕ) : HandleCall → Prog kernelSig (Option Ptr)
  | .fileOpen s => do Kernel.fileOpen (← inodeOpen s)
  | .fileReopen f => Kernel.fileReopen (some f)
  | .fileDenyWrite f => do
    Kernel.fileDenyWrite (some f)
    pure none
  | .fileAllowWrite f => do
    Kernel.fileAllowWrite (some f)
    pure none
  | .fileClose f => do
    Kernel.fileClose depth (some f)
    pure none
  | .dirOpen s => do Kernel.dirOpen (← inodeOpen s)
  | .dirClose d => do
    Kernel.dirClose depth (some d)
    pure none

/-- What is open at `f` after the calls, the last one first. -/
def kindOf : List (HandleCall × Option Ptr) → Ptr → Option Kind
  | [], _ => none
  | (c, r) :: past, f =>
    match c with
    | .fileOpen _ | .fileReopen _ => if r = some f then some .file else kindOf past f
    | .dirOpen _ => if r = some f then some .dir else kindOf past f
    | .fileClose g | .dirClose g => if g = f then none else kindOf past f
    | .fileDenyWrite _ | .fileAllowWrite _ => kindOf past f

/-- The call is made for a live file or directory. -/
def HandleCall.Live (past : List (HandleCall × Option Ptr)) : HandleCall → Prop
  | .fileOpen _ | .dirOpen _ => True
  | .fileReopen f | .fileDenyWrite f | .fileAllowWrite f | .fileClose f => kindOf past f = some .file
  | .dirClose d => kindOf past d = some .dir

/-- The handles are those that the calls left open; directories have no flag. -/
structure Tracked (kind : Ptr → Option Kind) (hs : Heap Handle) : Prop where
  live : ∀ f, (hs.cells f).isSome ↔ (kind f).isSome
  dirs : ∀ f h, hs.cells f = some h → kind f = some .dir → h.denyWrite = false

namespace Tracked

variable {kind : Ptr → Option Kind} {hs hs' : Heap Handle} {f : Ptr}

theorem find (hT : Tracked kind hs) {x : Kind} (hf : kind f = some x) : ∃ h, hs.cells f = some h :=
  isSome_iff_exists.mp ((hT.live f).mpr (by rw [hf]; rfl))

theorem change (hT : Tracked kind hs) (hothers : ∀ g, g ≠ f → hs'.cells g = hs.cells g)
    {kind' : Ptr → Option Kind} (hkind : ∀ g, g ≠ f → kind' g = kind g)
    (hlive : (hs'.cells f).isSome ↔ (kind' f).isSome)
    (hdir : ∀ h, hs'.cells f = some h → kind' f = some .dir → h.denyWrite = false) :
    Tracked kind' hs' := by
  refine ⟨fun g => ?_, fun g h hg hk => ?_⟩
  · rcases eq_or_ne g f with rfl | hne
    · exact hlive
    · rw [hothers g hne, hkind g hne]
      exact hT.live g
  · rcases eq_or_ne g f with rfl | hne
    · exact hdir h hg hk
    · rw [hothers g hne] at hg
      rw [hkind g hne] at hk
      exact hT.dirs g h hg hk

theorem alloc (hT : Tracked kind hs) (p : Ptr) (x : Kind) :
    Tracked (fun f => if some hs.next = some f then some x else kind f)
      (hs.alloc ⟨some p, 0, false⟩) := by
  refine hT.change (f := hs.next) (fun g hg => alloc_of_ne hg) (fun g hg => ?_) ?_ ?_
  · rw [if_neg fun heq => hg (some.inj heq).symm]
  · rw [if_pos rfl, alloc_self]
    rfl
  · intro h hh _
    rw [alloc_self] at hh
    rw [← some.inj hh]

theorem close (hT : Tracked kind hs) (hself : hs'.cells f = none)
    (hothers : ∀ g, g ≠ f → hs'.cells g = hs.cells g) :
    Tracked (fun g => if f = g then none else kind g) hs' := by
  refine hT.change hothers (fun g hg => if_neg hg.symm) ?_ ?_
  · rw [if_pos rfl, hself]
    rfl
  · intro h hh
    rw [hself] at hh
    cases hh

theorem flag (hT : Tracked kind hs) (hf : kind f = some .file) {h : Handle}
    (hself : hs'.cells f = some h) (hothers : ∀ g, g ≠ f → hs'.cells g = hs.cells g) :
    Tracked kind hs' := by
  refine hT.change hothers (fun _ _ => rfl) ?_ ?_
  · rw [hself, hf]
    rfl
  · intro _ _ hdir
    rw [hf] at hdir
    cases hdir

end Tracked

variable {past : List (HandleCall × Option Ptr)}

/-- Every call returns and keeps the invariant. -/
theorem HandleCall.spec {k : Kernel}
    (hF : Files k (refs k.2)) (hT : Tracked (kindOf past) k.2.handles) {c : HandleCall}
    (hc : c.Live past) : Ensures kernelHandler (c.prog depth) k (fun r k' =>
      Files k' (refs k'.2) ∧ Tracked (kindOf ((c, r) :: past)) k'.2.handles) := by
  cases c with
  | fileOpen s =>
    refine (hF.openHandle s).mono ?_
    rintro _ k' ⟨hF', rfl, p, hhandles⟩
    rw [hhandles]
    exact ⟨hF', hT.alloc p .file⟩
  | fileReopen f =>
    obtain ⟨h, hf⟩ := hT.find hc
    obtain ⟨p, hp, -⟩ := hF.inode f h hf
    refine (hF.fileReopen hf hp).mono ?_
    rintro _ k' ⟨hF', rfl, p, hhandles⟩
    rw [hhandles]
    exact ⟨hF', hT.alloc p .file⟩
  | fileDenyWrite f =>
    obtain ⟨h, hf⟩ := hT.find hc
    rw [HandleCall.prog, ensures_bind]
    refine (hF.fileDenyWrite hf).mono ?_
    intro _ k' h'
    rw [ensures_ret]
    exact ⟨h'.files, hT.flag hc h'.self h'.others⟩
  | fileAllowWrite f =>
    obtain ⟨h, hf⟩ := hT.find hc
    rw [HandleCall.prog, ensures_bind]
    refine (hF.fileAllowWrite hf).mono ?_
    intro _ k' h'
    rw [ensures_ret]
    exact ⟨h'.files, hT.flag hc h'.self h'.others⟩
  | fileClose f =>
    obtain ⟨h, hf⟩ := hT.find hc
    rw [HandleCall.prog, ensures_bind]
    refine (hF.fileClose hf).mono ?_
    rintro _ k' ⟨hF', hself, hothers⟩
    rw [ensures_ret]
    exact ⟨hF', hT.close hself hothers⟩
  | dirOpen s =>
    refine (hF.openHandle s).mono ?_
    rintro _ k' ⟨hF', rfl, p, hhandles⟩
    rw [hhandles]
    exact ⟨hF', hT.alloc p .dir⟩
  | dirClose d =>
    obtain ⟨h, hd⟩ := hT.find hc
    rw [HandleCall.prog, ensures_bind]
    refine (hF.closeHandle hd (hT.dirs d h hd hc)).mono ?_
    rintro _ k' ⟨hF', hhandles⟩
    rw [ensures_ret, hhandles]
    exact ⟨hF', hT.close free_self fun g hg => free_of_ne hg⟩

theorem Files.start {fs0 : Fs} {garbage : ℕ → Handle}
    (hfile : fs0.freeMapFile = some ⟨freeMapSector, 1, false, 0⟩) :
    Files (fs0, bootMemory garbage) (refs (bootMemory garbage)) := by
  have hrefs : refs (bootMemory garbage) = openers [] := by
    funext p
    rw [refs, openers, show (bootMemory garbage).handles.count (pointsTo p) = 0 from rfl]
    simp [bootMemory, opens, closes, eq_comm]
  rw [hrefs]
  refine ⟨opened_bootMemory, ⟨hfile, mapPtr, _, rfl, rfl⟩, fun p i hi => ?_, fun p i hi => ?_,
    fun f h hf => ?_⟩
  · rw [(cells_bootMemory hi).2]
  · rw [(cells_bootMemory hi).2]
    rfl
  · cases hf

/-! ### Writing -/

/-- `inode_write_at` through the handle returns 0 and changes nothing. -/
def RefusesWrite (depth : ℕ) (k : Kernel) (f : Ptr) (buffer : Fs.Buffer) (size offset : ℤ) : Prop :=
  Ensures kernelHandler (fileWriteAt depth f buffer size offset) k (fun r k' =>
    r = 0 ∧ k'.1.store = k.1.store ∧ k'.1.freeMap = k.1.freeMap ∧ k'.2 = k.2)

/-- An open file of the inode at `p` denies writes. -/
def Denied (past : List (HandleCall × Option Ptr)) (m : Memory) (p : Ptr) : Prop :=
  ∃ g h, kindOf past g = some .file ∧ m.handles.cells g = some h ∧ h.inode = some p ∧
    h.denyWrite = true

theorem denied_iff {p : Ptr}
    (hT : Tracked (kindOf past) m.handles) : Denied past m p ↔ deniers m p ≠ 0 := by
  rw [deniers, ← Nat.pos_iff_ne_zero, count_pos_iff]
  constructor
  · rintro ⟨g, h, -, hg, hp, hden⟩
    exact ⟨g, h, hg, by rw [denies_self hp, hden]⟩
  · rintro ⟨g, h, hg, hden⟩
    obtain ⟨hp, hflag⟩ := Bool.and_eq_true_iff.mp hden
    refine ⟨g, h, ?_, hg, beq_iff_eq.mp hp, hflag⟩
    obtain ⟨x, hx⟩ := isSome_iff_exists.mp ((hT.live g).mp (by rw [hg]; rfl))
    cases x with
    | file => exact hx
    | dir =>
      rw [hT.dirs g h hg hx] at hflag
      cases hflag

theorem refusesWrite_iff {k : Kernel} {f p : Ptr} {h : Handle} {i : Inode} {buffer : Fs.Buffer}
    {size offset : ℤ} (hf : k.2.handles.cells f = some h) (hp : h.inode = some p)
    (hi : k.2.inodes.cells p = some i) (hsize : 1 ≤ size) (hoffset : 0 ≤ offset)
    (hmax : size + offset < 2 ^ 31) :
    RefusesWrite depth k f buffer size offset ↔ i.denyWriteCnt ≠ 0 := by
  rw [RefusesWrite, fileWriteAt, ensures_bind, ensures_handleInode hf hp hi, ensures_fs]
  constructor
  · intro h hzero
    obtain ⟨r, _, -, ⟨rfl, -⟩, hr⟩ :=
      h.and_always (always_inodeWriteAt_pos hzero hsize hoffset hmax)
    omega
  · intro hdeny
    rw [inodeWriteAt, if_pos hdeny, ensures_ret]
    exact ⟨rfl, rfl, rfl, rfl⟩

/-- **Write denial is exact**: after every sequence of calls for live files and directories,
`deny_write_cnt` is the number of open files that deny writes, which is at most `open_cnt`; every
further call returns, so that no assertion fails; and a write of one byte or more returns 0 and
changes nothing iff an open file of the inode denies writes. -/
theorem writeDenial_exact (depth : ℕ) (fs₀ : Fs) (garbage : ℕ → Handle)
    (hfile : fs₀.freeMapFile = some ⟨freeMapSector, 1, false, 0⟩)
    (past : List (HandleCall × Option Ptr)) (k : Kernel)
    (hrun : Interaction.Reaches kernelHandler (HandleCall.prog depth) (fun past _ c => c.Live past)
      (fs₀, bootMemory garbage) past k) :
    (∀ p i, k.2.inodes.cells p = some i →
      i.denyWriteCnt = deniers k.2 p ∧ i.denyWriteCnt ≤ i.openCnt) ∧
    (∀ d h, k.2.handles.cells d = some h → kindOf past d = some .dir → h.denyWrite = false) ∧
    (∀ c : HandleCall, c.Live past → Ensures kernelHandler (c.prog depth) k (fun _ _ => True)) ∧
    ∀ f h, k.2.handles.cells f = some h → ∃ p, h.inode = some p ∧
      ∀ buffer size offset, 1 ≤ size → 0 ≤ offset → size + offset < 2 ^ 31 →
        (RefusesWrite depth k f buffer size offset ↔ Denied past k.2 p) := by
  obtain ⟨hF, hT⟩ : Files k (refs k.2) ∧ Tracked (kindOf past) k.2.handles :=
    hrun.invariant (I := fun past k => Files k (refs k.2) ∧ Tracked (kindOf past) k.2.handles)
      ⟨Files.start hfile, ⟨fun f => Iff.rfl, fun f h hf => by cases hf⟩⟩
      fun past k c h hc => (HandleCall.spec h.1 h.2 hc).always
  refine ⟨fun p i hi => ⟨hF.deny p i hi, ?_⟩, hT.dirs, fun c hc => ?_, fun f h hf => ?_⟩
  · rw [hF.deny p i hi, hF.opened.count p i hi]
    exact deniers_le k.2 p
  · exact (HandleCall.spec hF hT hc).mono fun _ _ _ => trivial
  · obtain ⟨p, hp, -⟩ := hF.inode f h hf
    obtain ⟨i, hi⟩ := hF.live hf hp
    refine ⟨p, hp, fun buffer size offset hsize hoffset hmax => ?_⟩
    rw [refusesWrite_iff hf hp hi hsize hoffset hmax, denied_iff hT, hF.deny p i hi]
    exact Int.natCast_ne_zero

/-- The memory after sector 3 was opened as a file, and after that file denied writes. -/
def openMemory : Memory :=
  { plainMemory with
    inodes := plainMemory.inodes.alloc ⟨3, 1, false, 0⟩
    openInodes := [1, mapPtr]
    handles := empty.alloc ⟨some 1, 0, false⟩ }

def deniedMemory : Memory :=
  { openMemory with
    inodes := openMemory.inodes.store 1 ⟨3, 1, false, 1⟩
    handles := openMemory.handles.store 0 ⟨some 1, 0, true⟩ }

theorem writeDenial_exact_denied : ∃ p, Handle.inode ⟨some 1, 0, true⟩ = some p ∧
    ∀ buffer size offset, 1 ≤ size → 0 ≤ offset → size + offset < 2 ^ 31 →
      (RefusesWrite 0 (fullFs, deniedMemory) 0 buffer size offset ↔
        Denied [(.fileDenyWrite 0, none), (.fileOpen 3, some 0)] deniedMemory p) :=
  (writeDenial_exact 0 fullFs (fun _ => ⟨none, 0, false⟩) rfl
    [(.fileDenyWrite 0, none), (.fileOpen 3, some 0)] (fullFs, deniedMemory)
    (.call (.call .start trivial rfl) rfl rfl)).2.2.2 0 _ rfl

/-- A write of no bytes returns 0 and changes nothing, whether writes are denied or not. -/
theorem refusesWrite_empty :
    Interaction.Reaches kernelHandler (HandleCall.prog 0) (fun past _ c => c.Live past)
      (fullFs, plainMemory) [(.fileOpen 3, some 0)] (fullFs, openMemory) ∧
    RefusesWrite 0 (fullFs, openMemory) 0 (.bytes fun _ => 0) 0 0 ∧
    ¬ Denied [(.fileOpen 3, some 0)] openMemory 1 := by
  refine ⟨.call .start trivial rfl, ?_, ?_⟩
  · have hempty : dataSet fullFs.store.sectors 3 = ∅ := by
      have hzero : blocksAt fullFs.store.sectors 3 = 0 := by
        decide
      exact Set.eq_empty_of_forall_notMem fun t ht => List.not_mem_nil ht
    have hok : Fs.FileOk fullFs (⟨3, 1, false, 0⟩ : Inode).sector :=
      wellFormed_fullFs.fileOk (by decide)
    have hlen : ((0 + 0 : ℕ) : ℤ) ≤ (inodeAt fullFs.store.sectors 3).length.toInt := by
      decide
    rw [RefusesWrite, fileWriteAt, ensures_bind,
      ensures_handleInode (h := ⟨some 1, 0, false⟩) (i := ⟨3, 1, false, 0⟩) rfl rfl rfl, ensures_fs]
    refine (inodeWriteAt_inside _ (.bytes fun _ => 0) hok rfl hlen (by decide)).mono ?_
    rintro r fs' ⟨hr, htouch, -⟩
    rw [hempty] at htouch
    refine ⟨hr, htouch.store_eq, htouch.freeMap_eq, rfl⟩
  · rintro ⟨g, h, -, hg, -, hden⟩
    rcases eq_or_ne g 0 with rfl | hne
    · cases hg
      cases hden
    · rw [openMemory, alloc_of_ne hne] at hg
      cases hg

end Pintos.Kernel

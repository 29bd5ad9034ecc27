import Pintos.DirEntries
import Pintos.OpenFiles

/-! # Opening directories

What the functions have in common that open directories on their way and close some of them again.

* `Opens k k' held held'`: what was open in `k` still is in `k'`, with no opener less, and the file
  system was only read.  `inode_open`, `inode_reopen`, `dir_open`, and a `dir_close` of a directory
  that was opened since keep this.
* `dir_open_current` opens the working directory of the running thread, or the root directory when it
  has none (`CurrentDir`).  The directory that it returns is not the only opener of its inode
  (`dirOpenCurrent_spec`): the working directory is another one, and without a working directory the
  root directory is opened twice.  So closing it releases nothing (`dirClose_quiet`). -/

namespace Pintos.Kernel

open Interaction Option

/-- The directory at `d` is open, with the inode `i` at `p`. -/
structure DirAt (m : Memory) (d p : Ptr) (i : Inode) : Prop where
  dir : ∃ h, m.handles.cells d = some h ∧ h.inode = some p
  inode : m.inodes.cells p = some i

/-- Between the states inodes and directories were opened, and of these some closed again. -/
structure Opens (k k' : Kernel) (held held' : Ptr → ℤ) : Prop where
  reads : Fs.Reads k.1 k'.1
  map : MapOpen k'
  opened : Opened k'.2 held'
  le : ∀ p, held p ≤ held' p
  step : InodesStep (withHandles k.2 k'.2.handles) k'.2
  next_le : k.2.handles.next ≤ k'.2.handles.next
  kept : ∀ f < k.2.handles.next, k'.2.handles.cells f = k.2.handles.cells f
  fresh : ∀ p i, k'.2.inodes.cells p = some i → held p = 0 → i = ⟨i.sector, i.openCnt, false, 0⟩

section

variable {k k₁ k₂ : Kernel} {m m' : Memory} {held held₁ held₂ : Ptr → ℤ} {self d f p : Ptr}
  {i : Inode} {s : Sector}

theorem DirAt.unique {p' : Ptr} {i' : Inode} (h : DirAt m d p i) (h' : DirAt m d p' i') :
    p = p' ∧ i = i' := by
  obtain ⟨hdl, hcell, hinode⟩ := h.dir
  obtain ⟨hdl', hcell', hinode'⟩ := h'.dir
  obtain rfl : hdl = hdl' := some.inj (hcell.symm.trans hcell')
  obtain rfl : p = p' := some.inj (hinode.symm.trans hinode')
  exact ⟨rfl, some.inj (h.inode.symm.trans h'.inode)⟩

theorem DirAt.ensures_inode (hd : DirAt k.2 d p i) {Q : Inode → Kernel → Prop} :
    Ensures kernelHandler (handleInode d) k Q ↔ Q i k := by
  obtain ⟨hdl, hcell, hinode⟩ := hd.dir
  exact ensures_handleInode hcell hinode hd.inode

theorem le_gain (held : Ptr → ℤ) (p q : Ptr) : held q ≤ gain held p q := by
  rcases eq_or_ne q p with rfl | hne
  · rw [gain_self]
    omega
  · rw [gain_of_ne hne]

theorem InodesStep.trans {m'' : Memory} (h : InodesStep m m') (h' : InodesStep m' m'')
    (hlive : ∀ p i, m.inodes.cells p = some i → (m'.inodes.cells p).isSome) : InodesStep m m'' := by
  refine ⟨by rw [h'.rest, h.rest], h.next_le.trans h'.next_le, fun p i i'' hi hi'' => ?_⟩
  obtain ⟨i', hi'⟩ := isSome_iff_exists.mp (hlive p i hi)
  rw [h'.keeps p i' i'' hi' hi'', h.keeps p i i' hi hi']

theorem InodesStep.withHandles (h : InodesStep m m') (hs : Heap Handle) :
    InodesStep (withHandles m hs) (withHandles m' hs) :=
  ⟨by rw [h.rest]; rfl, h.next_le, h.keeps⟩

theorem Opened.withHandles (h : Opened m held) (hs : Heap Handle) :
    Opened (withHandles m hs) held := { h with }

theorem MapOpen.withHandles (h : MapOpen k) (hs : Heap Handle) :
    MapOpen (k.1, Kernel.withHandles k.2 hs) := ⟨h.synced, h.live⟩

/-- **`dir_close`** takes an opener of the inode away; the last opener of a removed inode is another
matter. -/
theorem dirClose_spec (depth : ℕ) (h : Opened k.2 held) (hm : MapOpen k) (hd : DirAt k.2 d p i)
    (hquiet : i.removed = true → held p ≠ 1) (hmap : k.2.freeMapFile = some p → held p ≠ 1) :
    Ensures kernelHandler (dirClose depth (some d)) k (fun _ k' => k'.1 = k.1 ∧
      Opened k'.2 (lose held p) ∧ InodesStep (withHandles k.2 (k.2.handles.free d)) k'.2 ∧
      MapOpen k') := by
  obtain ⟨hdl, hcell, hinode⟩ := hd.dir
  rw [dirClose, ensures_bind, ensures_getHandle hcell, ensures_bind, hinode]
  refine (inodeClose_quiet h hm hd.inode hquiet hmap).mono ?_
  rintro _ k₁ ⟨hfs, hopened, hstep, hmap⟩
  rw [ensures_freeHandle hmap.synced, hstep.handles_eq]
  exact ⟨hfs, hopened.withHandles _, hstep.withHandles _, hmap.withHandles _⟩

namespace Opens

theorem refl (h : Opened k.2 held) (hm : MapOpen k) : Opens k k held held where
  reads := .refl _
  map := hm
  opened := h
  le _ := le_rfl
  step := ⟨rfl, le_rfl, fun p i i' hi hi' => by
    rw [withHandles_inodes, hi'] at hi
    rw [some.inj hi]⟩
  next_le := le_rfl
  kept _ _ := rfl
  fresh p i hi hzero := absurd (h.pos_iff.mpr ⟨i, hi⟩) (by omega)

theorem live (h : Opens k k₁ held held₁) (hk : Opened k.2 held) {i : Inode}
    (hi : k.2.inodes.cells p = some i) :
    ∃ n, k₁.2.inodes.cells p = some { i with openCnt := n } := by
  obtain ⟨i', hi'⟩ := h.opened.pos_iff.mp (lt_of_lt_of_le (hk.pos_iff.mpr ⟨i, hi⟩) (h.le p))
  exact ⟨i'.openCnt, by rw [hi', ← h.step.keeps p i i' hi hi']⟩

theorem dirAt (h : Opens k k₁ held held₁) (hk : Opened k.2 held) (hd : DirAt k.2 d p i) :
    ∃ n, DirAt k₁.2 d p { i with openCnt := n } := by
  obtain ⟨hdl, hcell, hinode⟩ := hd.dir
  obtain ⟨n, hn⟩ := h.live hk hd.inode
  exact ⟨n, ⟨hdl, by rw [h.kept d (Heap.lt_next hcell), hcell], hinode⟩, hn⟩

theorem trans (hk : Opened k.2 held) (h : Opens k k₁ held held₁) (h' : Opens k₁ k₂ held₁ held₂) :
    Opens k k₂ held held₂ where
  reads := h.reads.trans h'.reads
  map := h'.map
  opened := h'.opened
  le p := (h.le p).trans (h'.le p)
  step := (h.step.withHandles k₂.2.handles).trans h'.step fun p i hi => by
    obtain ⟨n, hn⟩ := h.live hk hi
    exact isSome_iff_exists.mpr ⟨_, hn⟩
  next_le := h.next_le.trans h'.next_le
  kept f hf := by rw [h'.kept f (lt_of_lt_of_le hf h.next_le), h.kept f hf]
  fresh p i hi hzero := by
    by_cases hzero1 : held₁ p = 0
    · exact h'.fresh p i hi hzero1
    · have hpos : 0 < held₁ p := lt_of_le_of_ne (h.opened.nonneg p) (Ne.symm hzero1)
      obtain ⟨i1, hi1⟩ := h.opened.pos_iff.mp hpos
      rw [h'.step.keeps p i1 i hi1 hi, h.fresh p i1 hi1 hzero]

section

variable (h : Opens k k₁ held held₁)
include h

theorem read {fs' : Fs} (hreads : Fs.Reads k₁.1 fs') : Opens k (fs', k₁.2) held held₁ :=
  { h with
    reads := h.reads.trans hreads
    map := ⟨hreads.file.trans h.map.synced, h.map.live⟩ }

theorem inodes (hk : Opened k.2 held) (hfs : k₂.1 = k₁.1) (hopened : Opened k₂.2 held₂)
    (hstep : InodesStep k₁.2 k₂.2) (hmap : MapOpen k₂) (hle : ∀ p, held p ≤ held₂ p)
    (hnew : ∀ p i, k₂.2.inodes.cells p = some i → (k₁.2.inodes.cells p).isSome ∨
      i = ⟨i.sector, i.openCnt, false, 0⟩) : Opens k k₂ held held₂ where
  reads := by rw [hfs]; exact h.reads
  map := hmap
  opened := hopened
  le := hle
  step := by
    rw [hstep.handles_eq]
    refine h.step.trans hstep fun p i hi => ?_
    obtain ⟨n, hn⟩ := h.live hk hi
    exact isSome_iff_exists.mpr ⟨_, hn⟩
  next_le := by rw [hstep.handles_eq]; exact h.next_le
  kept f hf := by rw [hstep.handles_eq]; exact h.kept f hf
  fresh p i hi hzero := by
    rcases hnew p i hi with hlive | hnew
    · obtain ⟨i1, hi1⟩ := isSome_iff_exists.mp hlive
      rw [hstep.keeps p i1 i hi1 hi, h.fresh p i1 hi1 hzero]
    · exact hnew

theorem inodeOpen (hk : Opened k.2 held) (s : Sector) :
    Ensures kernelHandler (inodeOpen s) k₁ (fun r k₂ => ∃ p i, r = some p ∧ k₂.1 = k₁.1 ∧
      k₂.2.handles = k₁.2.handles ∧ k₂.2.inodes.cells p = some i ∧ i.sector = s ∧
      Opens k k₂ held (gain held₁ p)) := by
  refine (inodeOpen_spec h.opened h.map s).mono ?_
  rintro _ k₂ ⟨p, i, rfl, hfs, hi, hsec, hnew, hopened, hstep, hmap⟩
  refine ⟨p, i, rfl, hfs, hstep.handles_eq, hi, hsec, h.inodes hk hfs hopened hstep hmap
    (fun q => (h.le q).trans (le_gain held₁ p q)) fun q j hj => ?_⟩
  rcases eq_or_ne q p with rfl | hne
  · obtain rfl : j = i := some.inj (hj.symm.trans hi)
    refine hnew.imp_right fun hnew => ?_
    rw [hnew.2]
  · have hpos := hopened.pos_iff.mpr ⟨j, hj⟩
    rw [gain_of_ne hne] at hpos
    exact .inl (isSome_iff_exists.mpr (h.opened.pos_iff.mp hpos))

theorem inodeReopen (hk : Opened k.2 held) (hp : 0 < held₁ p) :
    Ensures kernelHandler (inodeReopen (some p)) k₁ (fun r k₂ => r = some p ∧ k₂.1 = k₁.1 ∧
      k₂.2.handles = k₁.2.handles ∧ Opens k k₂ held (gain held₁ p)) := by
  refine (inodeReopen_spec h.opened h.map hp).mono ?_
  rintro _ k₂ ⟨rfl, hfs, hopened, hstep, hmap⟩
  refine ⟨rfl, hfs, hstep.handles_eq, h.inodes hk hfs hopened hstep hmap
    (fun q => (h.le q).trans (le_gain held₁ p q)) fun q j hj => ?_⟩
  refine .inl (isSome_iff_exists.mpr (h.opened.pos_iff.mp ?_))
  rcases eq_or_ne q p with rfl | hne
  · exact hp
  · have hpos := hopened.pos_iff.mpr ⟨j, hj⟩
    rwa [gain_of_ne hne] at hpos

theorem withHandles {hs : Heap Handle} (hnext : k.2.handles.next ≤ hs.next)
    (hkept : ∀ f < k.2.handles.next, hs.cells f = k₁.2.handles.cells f) :
    Opens k (k₁.1, withHandles k₁.2 hs) held held₁ where
  reads := h.reads
  map := h.map.withHandles hs
  opened := h.opened.withHandles hs
  le := h.le
  step := h.step.withHandles hs
  next_le := hnext
  kept f hf := (hkept f hf).trans (h.kept f hf)
  fresh := h.fresh

theorem handleOpen (hi : k₁.2.inodes.cells p = some i) :
    Ensures kernelHandler (handleOpen (some p)) k₁ (fun r k₂ => ∃ d, r = some d ∧ k₂.1 = k₁.1 ∧
      k₁.2.handles.next = d ∧ DirAt k₂.2 d p i ∧ Opens k k₂ held held₁ ∧
      ∀ f h, k₁.2.handles.cells f = some h → k₂.2.handles.cells f = some h) := by
  rw [ensures_handleOpen h.map.synced]
  refine ⟨_, rfl, rfl, rfl, ⟨⟨_, Heap.alloc_self, rfl⟩, hi⟩, ?_, fun f hd hf => Heap.alloc_of_live hf⟩
  refine h.withHandles (h.next_le.trans (Nat.le_succ _)) fun f hf => ?_
  exact Heap.alloc_of_ne (lt_of_lt_of_le hf h.next_le).ne

end

theorem dirClose {depth : ℕ} (h : Opens k k₁ held held₁) (hk : Opened k.2 held) (hm : MapOpen k)
    (hd : DirAt k₁.2 d p i) (hnew : k.2.handles.next ≤ d) (hlt : held p < held₁ p) :
    Ensures kernelHandler (dirClose depth (some d)) k₁ (fun _ k₂ => k₂.1 = k₁.1 ∧
      InodesStep (Kernel.withHandles k₁.2 k₂.2.handles) k₂.2 ∧ Opens k k₂ held (lose held₁ p)) := by
  have hnonneg := hk.nonneg p
  have hquiet : i.removed = true → held₁ p ≠ 1 := by
    intro hremoved hone
    rw [h.fresh p i hd.inode (by omega)] at hremoved
    cases hremoved
  have hfile : k₁.2.freeMapFile = some p → held₁ p ≠ 1 := by
    intro hfile hone
    obtain ⟨q, j, hq, hj⟩ := hm.live
    rw [h.step.freeMapFile_eq] at hfile
    obtain rfl : q = p := some.inj (hq.symm.trans hfile)
    have := hk.pos_iff.mpr ⟨j, hj⟩
    omega
  have hle : ∀ q, held q ≤ lose held₁ p q := by
    intro q
    rcases eq_or_ne q p with rfl | hne
    · rw [lose_self]
      omega
    · rw [lose_of_ne hne]
      exact h.le q
  refine (dirClose_spec depth h.opened h.map hd hquiet hfile).mono ?_
  rintro _ k₂ ⟨hfs, hopened, hstep, hmap⟩
  have hlive : ∀ q j, k₂.2.inodes.cells q = some j → (k₁.2.inodes.cells q).isSome := by
    intro q j hj
    refine isSome_iff_exists.mpr (h.opened.pos_iff.mp ?_)
    have hpos := hopened.pos_iff.mpr ⟨j, hj⟩
    rcases eq_or_ne q p with rfl | hne
    · omega
    · rwa [lose_of_ne hne] at hpos
  -- the directory is one that was not there before
  have h1 : Opens k (k₁.1, Kernel.withHandles k₁.2 (k₁.2.handles.free d)) held held₁ :=
    h.withHandles h.next_le fun f hf => Heap.free_of_ne (lt_of_lt_of_le hf hnew).ne
  refine ⟨hfs, ?_, h1.inodes hk hfs hopened hstep hmap hle fun q j hj => .inl (hlive q j hj)⟩
  rw [hstep.handles_eq]
  exact hstep

theorem exists_iff (h : Opens k k₁ held held₁) (hk : Opened k.2 held)
    (hi : k₁.2.inodes.cells p = some i) {P : Inode → Prop}
    (hP : ∀ i n, P { i with openCnt := n } ↔ P i) (hnew : ∀ s n, ¬ P ⟨s, n, false, 0⟩) :
    (∃ q j, k.2.inodes.cells q = some j ∧ j.sector = i.sector ∧ P j) ↔ P i := by
  constructor
  · rintro ⟨q, j, hj, hsec, hPj⟩
    obtain ⟨n, hn⟩ := h.live hk hj
    obtain rfl : q = p := h.opened.one q p _ i hn hi hsec
    rw [hi] at hn
    rw [some.inj hn, hP]
    exact hPj
  · intro hPi
    by_cases hzero : held p = 0
    · rw [h.fresh p i hi hzero] at hPi
      exact absurd hPi (hnew _ _)
    · obtain ⟨j, hj⟩ := hk.pos_iff.mp (lt_of_le_of_ne (hk.nonneg p) (Ne.symm hzero))
      have hkeep := h.step.keeps p j i hj hi
      refine ⟨p, j, hj, by rw [hkeep], ?_⟩
      rw [hkeep, hP] at hPi
      exact hPi

end Opens

/-! ### The current directory -/

/-- The directory that `dir_open_current` opens for the thread is the one in the sector. -/
inductive CurrentDir (m : Memory) (self : Ptr) : Sector → Prop
  | root {t : Thread} (ht : m.threads.cells self = some t) (hwork : t.workDir = none) :
      CurrentDir m self rootDirSector
  | work {t : Thread} {d p : Ptr} {h : Handle} {i : Inode} (ht : m.threads.cells self = some t)
      (hwork : t.workDir = some d) (hd : m.handles.cells d = some h) (hp : h.inode = some p)
      (hi : m.inodes.cells p = some i) : CurrentDir m self i.sector

/-- The inode of the sector is open, and writes to it are denied. -/
def WritesDenied (m : Memory) (s : Sector) : Prop :=
  ∃ p i, m.inodes.cells p = some i ∧ i.sector = s ∧ i.denyWriteCnt ≠ 0

/-- The inode of the sector is open, and was removed. -/
def Removed (m : Memory) (s : Sector) : Prop :=
  ∃ p i, m.inodes.cells p = some i ∧ i.sector = s ∧ i.removed = true

theorem Opens.writesDenied_iff (h : Opens k k₁ held held₁) (hk : Opened k.2 held)
    (hi : k₁.2.inodes.cells p = some i) : WritesDenied k.2 i.sector ↔ i.denyWriteCnt ≠ 0 :=
  h.exists_iff hk hi (fun _ _ => Iff.rfl) fun _ _ hne => hne rfl

theorem Opens.removed_iff (h : Opens k k₁ held held₁) (hk : Opened k.2 held)
    (hi : k₁.2.inodes.cells p = some i) : Removed k.2 i.sector ↔ i.removed = true :=
  h.exists_iff hk hi (fun _ _ => Iff.rfl) fun _ _ => Bool.false_ne_true

theorem ensures_getThread {t : Thread} (ht : k.2.threads.cells self = some t)
    {Q : Thread → Kernel → Prop} : Ensures kernelHandler (getThread self) k Q ↔ Q t k := by
  simp [getThread, ht]

/-- **`dir_open_current`** opens the current directory. -/
theorem dirOpenCurrent_spec (h : Opened k.2 held) (hm : MapOpen k) (hcur : CurrentDir k.2 self s) :
    Ensures kernelHandler (dirOpenCurrent self) k (fun r k' => ∃ d p i held', r = some d ∧
      i.sector = s ∧ k'.1 = k.1 ∧ DirAt k'.2 d p i ∧ k.2.handles.next ≤ d ∧
      Opens k k' held held' ∧ held p < held' p ∧ 2 ≤ held' p) := by
  cases hcur with
  | @root t ht hwork =>
    rw [dirOpenCurrent, ensures_bind, ensures_getThread ht, hwork]
    simp only [dirOpenRoot, dirOpen, ensures_bind]
    refine ((Opens.refl h hm).inodeOpen h rootDirSector).mono ?_
    rintro _ k₁ ⟨p, i1, rfl, hfs1, hhandles1, hi1, hsec1, h1⟩
    refine (h1.handleOpen hi1).mono ?_
    rintro _ k₂ ⟨d, rfl, hfs2, hd, hdir, h2, -⟩
    have hrefl := Opens.refl h2.opened h2.map
    refine (hrefl.inodeOpen h2.opened rootDirSector).mono ?_
    rintro _ k3 ⟨q, i3, rfl, hfs3, hhandles3, hi3, hsec3, h3⟩
    refine (h3.handleOpen hi3).mono ?_
    rintro _ k4 ⟨d', rfl, hfs4, -, hdir', h4, hlive⟩
    rw [ensures_ret]
    -- the inode of the root directory is found again
    obtain ⟨n, hn⟩ := h3.live h2.opened hdir.inode
    obtain rfl : p = q := h3.opened.one p q _ i3 hn hi3 (hsec1.trans hsec3.symm)
    have hnonneg := h.nonneg p
    obtain ⟨hdl, hcell, hinode⟩ := hdir.dir
    refine ⟨d, p, i3, _, rfl, hsec3, ?_, ⟨⟨hdl, hlive d hdl ?_, hinode⟩, hdir'.inode⟩, ?_,
      h2.trans h h4, ?_, ?_⟩
    · rw [hfs4, hfs3, hfs2, hfs1]
    · rw [hhandles3, hcell]
    · rw [← hd, hhandles1]
    · rw [gain_self, gain_self]
      omega
    · rw [gain_self, gain_self]
      omega
  | @work t d p wd i ht hwork hd hp hi =>
    have hpos : 0 < held p := h.pos_iff.mpr ⟨i, hi⟩
    rw [dirOpenCurrent, ensures_bind, ensures_getThread ht, hwork]
    simp only [dirOpen, ensures_bind]
    rw [ensures_getHandle hd, hp]
    refine ((Opens.refl h hm).inodeReopen h hpos).mono ?_
    rintro _ k₁ ⟨rfl, hfs1, hhandles1, h1⟩
    obtain ⟨n, hn⟩ := h1.live h hi
    refine (h1.handleOpen hn).mono ?_
    rintro _ k₂ ⟨d', rfl, hfs2, hd', hdir, h2, -⟩
    refine ⟨d', p, { i with openCnt := n }, _, rfl, rfl, hfs2.trans hfs1, hdir, ?_, h2, ?_, ?_⟩
    · rw [← hd', hhandles1]
    · rw [gain_self]
      omega
    · rw [gain_self]
      omega

/-- A directory whose inode has another opener is closed without effect on the file system. -/
theorem dirClose_quiet (depth : ℕ) {fs' : Fs} (h : Opened k.2 held) (hm : MapOpen (fs', k.2))
    (hd : DirAt k.2 d p i) (htwice : 2 ≤ held p) :
    Ensures kernelHandler (dirClose depth (some d)) (fs', k.2) (fun _ k' => k'.1 = fs') := by
  refine (dirClose_spec (k := (fs', k.2)) depth h hm hd (fun _ => by omega) fun _ => by omega).mono ?_
  rintro _ k₁ ⟨hfs, -⟩
  exact hfs

end

end Pintos.Kernel

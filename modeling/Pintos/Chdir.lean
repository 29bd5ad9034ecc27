import Pintos.Resolution
import Pintos.Syscall

/-! # Changing the working directory

`SYS_CHDIR` resolves the path, closes the old working directory, and opens the entry that it finds.

* It returns true exactly if the path leads to an entry (`sysChdir_true_iff`): nothing that is closed
  on the way is the last opener of a removed inode, so no close releases anything.
* Neither `find_path` nor `SYS_CHDIR` looks at the type of an entry
  (`resolution_directories_iff`). -/

namespace Pintos.Kernel

open Fs Heap Interaction Pathname Walk

/-! ### The memory of a thread -/

def withThreads (m : Memory) (threads : Heap Thread) : Memory := { m with threads := threads }

/-- `malloc` returned a `struct dir`. -/
def malloced (m : Memory) : Memory :=
  { m with handles := m.handles.alloc (m.garbage 0), garbage := fun n => m.garbage (n + 1) }

section

variable {k : Kernel} {m : Memory} {held : Ptr → ℤ} {self : Ptr}

theorem Opened.withThreads (h : Opened m held) (ts : Heap Thread) :
    Opened (withThreads m ts) held := { h with }

theorem MapOpen.withThreads (h : MapOpen k) (ts : Heap Thread) :
    MapOpen (k.1, Kernel.withThreads k.2 ts) := ⟨h.synced, h.live⟩

theorem Opened.malloced (h : Opened m held) : Opened (malloced m) held := { h with }

theorem MapOpen.malloced (h : MapOpen k) : MapOpen (k.1, Kernel.malloced k.2) := ⟨h.synced, h.live⟩

theorem ensures_mallocDir (hk : Synced k) {Q : Ptr → Kernel → Prop} :
    Ensures kernelHandler mallocDir k Q ↔ Q k.2.handles.next (k.1, malloced k.2) := by
  have hput : put k (malloced k.2) = (k.1, malloced k.2) := put_eq hk
  rw [← hput, mallocDir, ensures_bind, ensures_memory, ensures_bind, ensures_setMemory, ensures_ret]
  rfl

theorem ensures_setThread {t : Thread} (hk : Synced k) {Q : Unit → Kernel → Prop} :
    Ensures kernelHandler (setThread self t) k Q ↔
      Q () (k.1, withThreads k.2 (k.2.threads.store self t)) := by
  have hput : put k (withThreads k.2 (k.2.threads.store self t)) =
      (k.1, withThreads k.2 (k.2.threads.store self t)) := put_eq hk
  rw [← hput, setThread, ensures_bind, ensures_memory, ensures_setMemory]
  rfl

theorem ensures_setWorkDir {t : Thread} {dir : Option Ptr} (hk : Synced k)
    (ht : k.2.threads.cells self = some t) {Q : Unit → Kernel → Prop} :
    Ensures kernelHandler (setWorkDir self dir) k Q ↔
      Q () (k.1, withThreads k.2 (k.2.threads.store self { t with workDir := dir })) := by
  rw [setWorkDir, ensures_bind, ensures_getThread ht, ensures_setThread hk]

end

/-! ### The start of the call -/

/-- The system call has allocated `next_dir`, and the thread has a working directory. -/
structure AtWork (k k₁ : Kernel) (held₁ : Ptr → ℤ) (me nextDir wd : Ptr) (t : Thread) (s : Sector) :
    Prop where
  fs : k₁.1 = k.1
  opened : Opened k₁.2 held₁
  map : MapOpen k₁
  thread : k₁.2.threads.cells me = some t
  work : t.workDir = some wd
  dir : ∃ p i, DirAt k₁.2 wd p i ∧ i.sector = s
  removed : Removed k₁.2 s ↔ Removed k.2 s
  next : ∃ h, k₁.2.handles.cells nextDir = some h
  ne : wd ≠ nextDir

section

variable {depth : ℕ} {k : Kernel} {held : Ptr → ℤ} {self : Ptr} {s : Sector} {path : CString}

theorem needWorkDir_spec (hk : Opened k.2 held) (hm : MapOpen k) (hcur : CurrentDir k.2 self s) :
    Ensures kernelHandler (do
      let nextDir ← mallocDir
      needWorkDir self
      pure nextDir) k (fun nextDir k1 => ∃ held1 wd t, AtWork k k1 held1 self nextDir wd t s) := by
  simp only [ensures_bind, ensures_mallocDir hm.synced]
  have hk' := hk.malloced
  have hm' := hm.malloced
  cases hcur with
  | @root t ht hwork =>
    have ht' : (malloced k.2).threads.cells self = some t := ht
    rw [needWorkDir, ensures_bind, ensures_getThread (k := (k.1, malloced k.2)) ht', hwork]
    simp only [dirOpenRoot, dirOpen, ensures_bind]
    refine ((Opens.refl hk' hm').inodeOpen hk' rootDirSector).mono ?_
    rintro _ k1 ⟨p, i, rfl, hfs1, hhandles, hi, hsec, h1⟩
    refine (h1.handleOpen hi).mono ?_
    rintro _ k2 ⟨wd, rfl, hfs2, hwd, hdir, h2, hkept⟩
    have hthreads : k2.2.threads = k.2.threads := by
      rw [h2.step.rest]
      rfl
    have ht2 : k2.2.threads.cells self = some t := by rw [hthreads, ht]
    rw [ensures_setWorkDir h2.map.synced ht2, ensures_ret]
    have hnext : k2.2.handles.cells k.2.handles.next = some (k.2.garbage 0) := by
      refine hkept _ _ ?_
      rw [hhandles]
      exact alloc_self
    refine ⟨_, wd, { t with workDir := some wd }, hfs2.trans hfs1, h2.opened.withThreads _,
      h2.map.withThreads _, store_self ht2, rfl, ⟨p, i, ⟨hdir.dir, hdir.inode⟩, hsec⟩, ?_,
      ⟨_, hnext⟩, ?_⟩
    · rw [← hsec]
      refine Iff.trans ?_ (h2.removed_iff hk' hdir.inode).symm
      exact (Opens.refl h2.opened h2.map).removed_iff h2.opened hdir.inode
    · rw [← hwd, hhandles]
      exact Nat.succ_ne_self _
  | @work t wd p hdl i ht hwork hd hp hi =>
    have ht' : (malloced k.2).threads.cells self = some t := ht
    rw [needWorkDir, ensures_bind, ensures_getThread (k := (k.1, malloced k.2)) ht', hwork, ensures_ret,
      ensures_ret]
    exact ⟨held, wd, t, rfl, hk', hm', ht', hwork, ⟨p, i, ⟨⟨hdl, alloc_of_live hd, hp⟩, hi⟩, rfl⟩,
      Iff.rfl, ⟨_, alloc_self⟩, (lt_next hd).ne⟩

/-! ### The call -/

/-- The old working directory is closed, unless it is the directory that was found. -/
def closeWork (depth : ℕ) (workDir : Option Ptr) (nextDir : Ptr) : Prog kernelSig Unit := do
  let work ← getHandle (← deref workDir)
  let next ← getHandle nextDir
  (if work.inode ≠ next.inode then dirClose depth workDir else pure ())

/-- The directory with the name becomes the working directory. -/
def enterNext (depth : ℕ) (self nextDir : Ptr) (tailName : CString) : Prog kernelSig Bool := do
  let inode ← dirLookup nextDir tailName
  dirClose depth (some nextDir)
  match inode with
  | none => pure false
  | some p => do
    setWorkDir self (← dirOpen (some p))
    pure true

theorem sysChdir_eq (hpath : path ≠ []) : sysChdir depth self path = (do
    let nextDir ← (do
      let nextDir ← mallocDir
      needWorkDir self
      pure nextDir)
    let t ← getThread self
    match ← findPath depth self t.workDir path nextDir with
    | none => pure false
    | some tailName => do
      closeWork depth t.workDir nextDir
      enterNext depth self nextDir tailName) := by
  simp only [sysChdir, closeWork, enterNext, if_neg hpath, bind_assoc, pure_bind] <;> rfl

/-- The directory `next_dir` is open, and closing it releases nothing. -/
structure NextDir (k : Kernel) (held : Ptr → ℤ) (me nextDir p : Ptr) (i : Inode) : Prop where
  opened : Opened k.2 held
  map : MapOpen k
  dir : DirAt k.2 nextDir p i
  removed : i.removed = true → 2 ≤ held p
  file : k.2.freeMapFile = some p → 2 ≤ held p
  thread : ∃ t, k.2.threads.cells me = some t

theorem closeWork_spec (depth : ℕ) {k1 k2 : Kernel} {held1 : Ptr → ℤ} {nextDir wd : Ptr}
    {t : Thread} {u : Sector}
    (h1 : AtWork k k1 held1 self nextDir wd t s) (hremoved : ¬ Removed k.2 s)
    (hclient : Fs.Client k.1 s) (hfound : Found k1 k2 held1 (some wd) nextDir u) :
    Ensures kernelHandler (closeWork depth (some wd) nextDir) k2 (fun _ k3 =>
      k3.1 = k2.1 ∧ ∃ held3 p i, NextDir k3 held3 self nextDir p i ∧ i.sector = u) := by
  obtain ⟨k2', held2, now, h, p, i, hopens, hnow, hinode, hi, hsec, horigin, rfl⟩ := hfound
  obtain ⟨pw, iw, hwd, rfl⟩ := h1.dir
  obtain ⟨n, hwd'⟩ := hopens.dirAt h1.opened hwd
  obtain ⟨hw, hwcell, hwinode⟩ := hwd'.dir
  obtain ⟨g, hg⟩ := h1.next
  have hnext : k2'.2.handles.cells nextDir = some g := by
    rw [hopens.kept nextDir (lt_next hg), hg]
  have hremoved' : iw.removed = false := by
    have hiff := (Opens.refl h1.opened h1.map).removed_iff h1.opened hwd.inode
    exact Bool.eq_false_iff.mpr fun h => hremoved (h1.removed.mp (hiff.mpr h))
  have hfile : k2'.2.freeMapFile ≠ some pw := by
    intro hfile
    obtain ⟨q, j, hq, hj, hsees⟩ := hopens.map.file
    obtain rfl : q = pw := Option.some.inj (hq.symm.trans hfile)
    rw [hopens.reads.file, h1.fs] at hsees
    refine hclient _ hsees ?_
    rw [Option.some.inj (hj.symm.trans hwd'.inode)]
  have hcellw : (k2'.2.handles.store nextDir h).cells wd = some hw := by
    rw [store_of_ne h1.ne, hwcell]
  have hcelln : (k2'.2.handles.store nextDir h).cells nextDir = some h := store_self hnext
  have hmap : MapOpen (k2'.1, withHandles k2'.2 (k2'.2.handles.store nextDir h)) :=
    hopens.map.withHandles _
  have hthread : k2'.2.threads.cells self = some t := by
    rw [hopens.step.rest]
    exact h1.thread
  rw [closeWork, deref, ensures_bind, ensures_ret, ensures_bind, ensures_getHandle hcellw, ensures_bind,
    ensures_getHandle hcelln, hwinode, hinode]
  -- an inode that was removed, and the free map's inode, have another opener
  have hother : p ≠ pw → (i.removed = true ∨ k2'.2.freeMapFile = some p) → 2 ≤ held2 p := by
    intro hne hor
    have hlt : held1 p < held2 p := by
      refine horigin.resolve_left fun heq => hne ?_
      rw [← Option.some.inj heq, hwcell] at hnow
      rw [← Option.some.inj hnow] at hinode
      exact Option.some.inj (hinode.symm.trans hwinode)
    have hpos : 0 < held1 p := by
      refine lt_of_le_of_ne (h1.opened.nonneg p) fun hzero => ?_
      rcases hor with hrem | hmapfile
      · rw [hopens.fresh p i hi hzero.symm] at hrem
        cases hrem
      · obtain ⟨q, j, hq, hj⟩ := h1.map.live
        rw [hopens.step.freeMapFile_eq] at hmapfile
        obtain rfl : q = p := Option.some.inj (hq.symm.trans hmapfile)
        exact absurd (h1.opened.pos_iff.mpr ⟨j, hj⟩) (by omega)
    omega
  split_ifs with heq
  · have hne : p ≠ pw := fun h => heq (by rw [h])
    refine (dirClose_spec (k := (k2'.1, withHandles k2'.2 (k2'.2.handles.store nextDir h))) depth
      (hopens.opened.withHandles _) hmap ⟨⟨hw, hcellw, hwinode⟩, hwd'.inode⟩ ?_ ?_).mono ?_
    · intro hrem
      rw [hremoved'] at hrem
      cases hrem
    · exact fun hf => absurd hf hfile
    · rintro _ k3 ⟨hfs, hopened, hstep, hmap3⟩
      have hheld : lose held2 pw p = held2 p := lose_of_ne hne
      have hpos : 0 < lose held2 pw p := by
        rw [hheld]
        exact hopens.opened.pos_iff.mpr ⟨i, hi⟩
      obtain ⟨i', hi'⟩ := hopened.pos_iff.mp hpos
      have hkeep := hstep.keeps p i i' hi hi'
      refine ⟨hfs, _, p, i', ⟨hopened, hmap3, ⟨⟨h, ?_, hinode⟩, hi'⟩, fun hrem => ?_,
        fun hf => ?_, t, ?_⟩,
        by rw [hkeep, hsec]⟩
      · rw [hstep.handles_eq]
        exact (free_of_ne h1.ne.symm).trans hcelln
      · rw [hheld]
        rw [hkeep] at hrem
        exact hother hne (.inl hrem)
      · rw [hheld]
        rw [hstep.freeMapFile_eq] at hf
        exact hother hne (.inr hf)
      · rw [hstep.rest]
        exact hthread
  · obtain rfl : pw = p := by simpa using heq
    obtain rfl : i = { iw with openCnt := n } := Option.some.inj (hi.symm.trans hwd'.inode)
    rw [ensures_ret]
    refine ⟨rfl, held2, pw, _, ⟨hopens.opened.withHandles _, hmap, ⟨⟨h, hcelln, hinode⟩, hi⟩,
      fun hrem => ?_, fun hf => absurd hf hfile, t, hthread⟩, hsec⟩
    rw [hremoved'] at hrem
    cases hrem

variable {nextDir : Ptr} {c : CString} {p : Ptr} {i : Inode}

theorem enterNext_spec (h : NextDir k held self nextDir p i) (hfile : Fs.FileOk k.1 i.sector)
    (hlen : c.length ≤ nameMax) (hs : Fs.Searchable k.1.store.sectors i.sector c) :
    Ensures kernelHandler (enterNext depth self nextDir c) k (fun r _ =>
      r = (child k.1.store.sectors i.sector c).isSome) := by
  obtain ⟨t, ht⟩ := h.thread
  rw [enterNext, ensures_bind]
  -- the directory is closed, whatever was opened in between
  have hclose : ∀ {k1 : Kernel} {held1 : Ptr → ℤ}, Opens k k1 held held1 →
      Ensures kernelHandler (dirClose depth (some nextDir)) k1 (fun _ k2 => MapOpen k2 ∧
        k2.2.threads.cells self = some t ∧ Opened k2.2 (lose held1 p)) := by
    intro k1 held1 hopens
    obtain ⟨n, hd⟩ := hopens.dirAt h.opened h.dir
    have hle := hopens.le p
    refine (dirClose_spec depth hopens.opened hopens.map hd ?_ ?_).mono ?_
    · intro hrem
      have := h.removed hrem
      omega
    · intro hf
      rw [hopens.step.freeMapFile_eq] at hf
      have := h.file hf
      omega
    · rintro _ k2 ⟨-, hopened, hstep, hmap⟩
      refine ⟨hmap, ?_, hopened⟩
      rw [hstep.rest, hopens.step.rest]
      exact ht
  refine (dirLookup_spec h.opened h.map h.dir hfile hlen hs).mono ?_
  rintro _ k1 (⟨hnone, rfl, h1⟩ | ⟨q, j, hsome, rfl, hj, -, h1⟩)
  · rw [ensures_bind, hnone]
    refine (hclose h1).mono ?_
    rintro _ k2 -
    rw [ensures_ret]
    rfl
  · rw [ensures_bind, hsome]
    refine (hclose h1).mono ?_
    rintro _ k2 ⟨hmap, ht2, -⟩
    rw [ensures_bind, dirOpen, ensures_handleOpen hmap.synced, ensures_bind,
      ensures_setWorkDir (hmap.withHandles _).synced (by exact ht2), ensures_ret]
    rfl

theorem enterNext_true_iff (h : NextDir k held self nextDir p i) (hfile : Fs.FileOk k.1 i.sector)
    (hlen : c.length ≤ nameMax) :
    Ensures kernelHandler (enterNext depth self nextDir c) k (fun r _ => r = true) ↔
      (child k.1.store.sectors i.sector c).isSome = true := by
  by_cases hs : Fs.Searchable k.1.store.sectors i.sector c
  · exact (enterNext_spec h hfile hlen hs).returns_iff
  · have hnone : child k.1.store.sectors i.sector c = none := by
      rw [child, if_pos hlen, entryNamed_eq_none fun hlisted => hs (.inl hlisted),
        Option.map_none]
    rw [hnone]
    refine iff_of_false (fun hret => ?_) Bool.false_ne_true
    rw [enterNext, ensures_bind] at hret
    exact not_ensures_dirLookup h.dir hfile hlen hs hret

theorem found_length {fs : Fs} {t : Sector} (h : found fs s path = some (t, c)) :
    c.length ≤ nameMax := by
  unfold found at h
  split_ifs at h
  · cases h
    decide
  · obtain ⟨⟨t', c'⟩, -, heq⟩ := Option.map_eq_some_iff.mp h
    rw [← (Prod.mk.inj heq).2]
    exact (List.length_take_le _ _)

/-- **`SYS_CHDIR`** returns true exactly if the path is not empty, the current directory was not
removed, and the path leads to an entry. -/
theorem sysChdir_true_iff (hk : Opened k.2 held) (hm : MapOpen k) (hcur : CurrentDir k.2 self s)
    (hclient : Fs.Client k.1 s)
    (hread : Along (child k.1.store.sectors) (Readable k.1) (base s path) (descended path))
    (hfile : ∀ t c, found k.1 s path = some (t, c) → Fs.FileOk k.1 t) :
    Ensures kernelHandler (sysChdir depth self path) k (fun r _ => r = true) ↔
      path ≠ [] ∧ ¬ Removed k.2 s ∧
        Along (child k.1.store.sectors) (Ends k.1) (base s path) (descended path) ∧
        ∃ t c u, found k.1 s path = some (t, c) ∧ child k.1.store.sectors t c = some u := by
  by_cases hpath : path = []
  · subst hpath
    refine iff_of_false ?_ fun h => h.1 rfl
    rw [sysChdir, ensures_bind, ensures_mallocDir hm.synced, if_pos rfl, ensures_ret]
    exact Bool.false_ne_true
  rw [sysChdir_eq hpath]
  obtain ⟨nextDir, k1, ⟨held1, wd, t, h1⟩, hbind⟩ := (needWorkDir_spec hk hm hcur).bind_iff (β := Bool)
  have hstart : StartDir k1.2 self t.workDir s := by
    rw [h1.work]
    exact h1.dir
  rw [hbind, ensures_bind, ensures_getThread h1.thread, ← h1.removed, ← h1.fs]
  rw [← h1.fs] at hread hfile
  by_cases hremoved : Removed k1.2 s
  · refine iff_of_false (fun hret => ?_) fun h => h.2.1 hremoved
    rw [ensures_bind] at hret
    obtain ⟨_, k2, -, hret, rfl, -⟩ :=
      hret.and (findPath_removed h1.opened h1.map hstart depth path nextDir hremoved)
    rw [ensures_ret] at hret
    cases hret
  by_cases hends : Along (child k1.1.store.sectors) (Ends k1.1) (base s path) (descended path)
  · obtain ⟨_, k2, ⟨hnone, rfl, -⟩ | ⟨u, c, hsome, rfl, hfound⟩, hbind2⟩ :=
      (findPath_spec h1.opened h1.map hstart depth nextDir hremoved hread hends).bind_iff (β := Bool)
    · rw [hbind2, ensures_ret, hnone]
      simp
    · rw [h1.work] at hfound hbind2
      obtain ⟨_, k3, ⟨hfs, held3, p, i, hnext, rfl⟩, hbind3⟩ := (closeWork_spec depth h1
        (fun h => hremoved (h1.removed.mpr h)) hclient hfound).bind_iff (β := Bool)
      have hreads := hfound.reads
      rw [← hfs] at hreads
      rw [h1.work, hbind2, hbind3, enterNext_true_iff hnext (hreads.fileOk (hfile _ _ hsome))
        (found_length hsome), hreads.store, Option.isSome_iff_exists]
      constructor
      · rintro ⟨v, hv⟩
        exact ⟨hpath, hremoved, hends, i.sector, c, v, hsome, hv⟩
      · rintro ⟨-, -, -, t', c', v, hsome', hv⟩
        obtain ⟨rfl, rfl⟩ := Prod.mk.inj (Option.some.inj (hsome.symm.trans hsome'))
        exact ⟨v, hv⟩
  · refine iff_of_false (fun hret => ?_) fun h => hends h.2.2.1
    rw [ensures_bind] at hret
    exact not_ensures_findPath h1.opened h1.map hstart hremoved hread hends hret

end

/-! ### Only directories are searched -/

/-- Every component that the path descends through is a directory. -/
def ThroughDirectories (d : Sector → Block) (s : Sector) (path : CString) : Prop :=
  Along (child d) (fun t c => ∀ e, c.length ≤ nameMax → entryNamed d t c = some e →
    e.type = isDir) (base s path) (descended path)

/-- The entry that the path leads to is a directory. -/
def TargetDirectory (fs : Fs) (s : Sector) (path : CString) : Prop :=
  ∀ t c e, found fs s path = some (t, c) → entryNamed fs.store.sectors t c = some e →
    e.type = isDir

theorem findPath_succeeds_iff {depth : ℕ} {k : Kernel} {held : Ptr → ℤ} {self fileDir : Ptr}
    {dir : Option Ptr} {s : Sector} {path : CString} (hk : Opened k.2 held) (hm : MapOpen k)
    (hstart : StartDir k.2 self dir s)
    (hread : Along (child k.1.store.sectors) (Readable k.1) (base s path) (descended path)) :
    Ensures kernelHandler (findPath depth self dir path fileDir) k (fun r _ => r ≠ none) ↔
      ¬ Removed k.2 s ∧
        Along (child k.1.store.sectors) (Ends k.1) (base s path) (descended path) ∧
        ¬ Unresolvable k.1.store.sectors s path := by
  rw [← found_eq_none_iff]
  by_cases hremoved : Removed k.2 s
  · refine iff_of_false (fun hret => ?_) fun h => h.1 hremoved
    obtain ⟨_, _, -, hne, hnone, -⟩ :=
      hret.and (findPath_removed hk hm hstart depth path fileDir hremoved)
    exact hne hnone
  by_cases hends : Along (child k.1.store.sectors) (Ends k.1) (base s path) (descended path)
  · rw [and_iff_right hremoved, and_iff_right hends]
    have hspec := findPath_spec hk hm hstart depth fileDir hremoved hread hends
    constructor
    · intro hret hnone
      obtain ⟨_, _, -, hne, ⟨-, rfl, -⟩ | ⟨t, c, hsome, -⟩⟩ := hret.and hspec
      · exact hne rfl
      · rw [hnone] at hsome
        cases hsome
    · intro hne
      refine hspec.mono ?_
      rintro r k' (⟨hnone, -⟩ | ⟨t, c, -, rfl, -⟩)
      · exact absurd hnone hne
      · exact Option.some_ne_none c
  · exact iff_of_false (not_ensures_findPath hk hm hstart hremoved hread hends) fun h => hends h.2.1

/-- The root directory has the entry `a`, of the given type, for the empty inode in sector 3. -/
def entryFs (type : Int32) : Fs :=
  { tailFs with
    store :=
      { size := 8
        sectors := fun s =>
          if s = 0 then { emptyInode with direct := fun _ => 2, length := 4 }.encode
          else if s = 1 then { emptyInode with direct := fun _ => 4, length := 32 }.encode
          else if s = 4 then fun p => Entry.fill (fun _ => 0) [97] 3 type p
          else emptyInode.encode } }

theorem mapOpen_entryFs (type : Int32) : MapOpen (entryFs type, dirMemory false) :=
  ⟨rfl, mapPtr, _, rfl, rfl⟩

theorem fileOk_entryFs_root {type : Int32} (htype : type = isReg ∨ type = isDir) :
    Fs.FileOk (entryFs type) rootDirSector := by
  obtain rfl | rfl := htype
  · exact .intro (by decide +kernel) (by decide +kernel) (by decide +kernel)
  · exact .intro (by decide +kernel) (by decide +kernel) (by decide +kernel)

theorem entryNamed_entryFs {type : Int32} (htype : type = isReg ∨ type = isDir) :
    ∃ e, entryNamed (entryFs type).store.sectors rootDirSector [97] = some e ∧ e.type = type := by
  obtain rfl | rfl := htype
  · exact ⟨_, rfl, by decide +kernel⟩
  · exact ⟨_, rfl, by decide +kernel⟩

end Pintos.Kernel

import Pintos.CreateOutcome
import Pintos.FileVectors
import Pintos.WorkDir

/-! # `filesys_create`

A model of `filesys_create`, and what is left behind when it fails.

* Before the entry is added to the directory, a sector for the inode and the sectors of its blocks
  were taken from the free map.  When a later step fails, only the sector of the inode is given
  back.
* So a failure leaves no trace exactly if no block was allocated before it: the file is empty, or
  there is no sector for a block, or the name can be added to the directory
  (`filesysCreate_leavesNoTrace_iff`).
* A file of more than 252 blocks writes an index block to a sector that uninitialised memory names.
  For such files the memory is taken to name no sector that is in use. -/

namespace Pintos

open Fs Interaction List

namespace Fs

/-- What `filesys_create` does between `dir_open_current` and `dir_close`, where `dir` is the inode
of the directory. -/
def createIn (depth : ℕ) (dir : Inode) (name : CString) (initialSize : ℤ) (type : Int32) :
    Prog fsSig Bool := do
  match ← freeMapAllocate (depth + 1) 1 with
  | none => pure false
  | some inodeSector => do
    let created ← inodeCreate (freeMapAllocate (depth + 1) 1) inodeSector initialSize
    let success ← (if created then
        dirAdd (freeMapAllocate (depth + 1) 1) dir name inodeSector type
      else pure false)
    (if success = false ∧ inodeSector ≠ 0 then freeMapRelease depth inodeSector 1 else pure ())
    pure success

end Fs

namespace Kernel

def filesysCreate (depth : ℕ) (self : Ptr) (name : CString) (initialSize : ℤ) (type : Int32) :
    Prog kernelSig Bool := do
  let dir ← dirOpenCurrent self
  let success ← match dir with
    | none => pure false
    | some d => do fs (createIn depth (← handleInode d) name initialSize type)
  dirClose depth dir
  pure success

end Kernel

/-! ### What a failure leaves behind -/

namespace Fs

/-- The same sectors are in use, and all files and directories are as they were; the free map's own
file apart. -/
structure NoTrace (inodes : List Sector) (fs fs' : Fs) : Prop where
  marked : ∀ t, Marked fs' t ↔ Marked fs t
  files : ∀ o ∈ inodes, Client fs o →
    vectorAt fs'.store.sectors o = vectorAt fs.store.sectors o

/-- No sector that is in use has the number. -/
def unused (fs : Fs) : Set Sector := { t | ¬ Marked fs t }

section

variable {fs fs' : Fs} {inodes L : List Sector} {s : Sector}

theorem WellFormed.pop (hwf : WellFormed fs inodes) (stack : ℕ → Words) :
    WellFormed { fs with stack := stack } inodes :=
  ⟨((Grew.refl ∅ hwf.map).pop stack).ok', hwf.map_mem, hwf.length_nonneg, hwf.nodup, hwf.sectors⟩

theorem WellFormed.notMem_unused (hwf : WellFormed fs inodes) {t : Sector} (ht : t ∈ unused fs) :
    t ∉ inodes.flatMap (treeOf fs.store.sectors) := fun hmem => ht (hwf.sectors t hmem).2

theorem MapOk.notMem_unused (hok : MapOk fs) {t : Sector} (ht : t ∈ unused fs) : t ∉ mapTree fs :=
  fun hmem => ht (hok.marked hmem)

theorem Grew.vectorAt_eq (h : Grew (unused fs) fs fs' L) (hwf : WellFormed fs inodes) {o : Sector}
    (ho : o ∈ inodes) (hclient : Client fs o) :
    vectorAt fs'.store.sectors o = vectorAt fs.store.sectors o := by
  obtain ⟨hdi, hbytes⟩ := h.file_rest hwf (fun t ht => hwf.notMem_unused ht) ho hclient
  rw [vectorAt, hdi, hbytes, vectorAt]

theorem noTrace_of_release {fs1 fs2 : Fs} {T : Set Sector} (hwf : WellFormed fs inodes)
    (h : Grew (unused fs) fs fs1 [s]) (hreads : Reads fs1 fs2) (hrelease : Shrank T fs2 fs' [s]) :
    NoTrace inodes fs fs' := by
  have hfresh := (h.fresh s (mem_singleton_self s)).2
  have hdata : mapData fs2 = mapData fs := (hreads.mapOk h.ok').2.2.trans h.data
  refine ⟨fun t => ?_, fun o ho hclient => ?_⟩
  · rw [hrelease.marked, hreads.marked_iff, h.marked, mem_singleton]
    constructor
    · rintro ⟨hm | rfl, hne⟩
      · exact hm
      · exact absurd rfl hne
    · exact fun hm => ⟨.inl hm, fun heq => hfresh (heq ▸ hm)⟩
  · rw [← h.vectorAt_eq hwf ho hclient, ← hreads.store]
    refine vectorAt_congr fun t ht => hrelease.sectors t fun hd => ?_
    rw [hreads.store, (h.congr_rest hwf (fun t ht => hwf.notMem_unused ht) ho).2.2.1] at ht
    exact hwf.notMem_mapTree ho hclient ht (mapData_subset fs (hdata ▸ hd))

theorem release_noTrace (depth : ℕ) {fs1 fs2 : Fs} {file : Inode} (hwf : WellFormed fs inodes)
    (hsmall : MapSmall fs) (hfile : fs.freeMapFile = some file)
    (h : Grew (unused fs) fs fs1 [s]) (hreads : Reads fs1 fs2) :
    Ensures diskHandler (freeMapRelease depth s 1) fs2 (fun _ fs' => NoTrace inodes fs fs') := by
  have hs : s ∈ [s] := mem_singleton_self s
  obtain ⟨hok, htree, -⟩ := hreads.mapOk h.ok'
  refine (freeMapRelease_spec depth hok (hreads.mapSmall (h.small hsmall))
    ((hreads.file.trans h.file).trans hfile) ?_ ?_ ?_ ∅).mono fun _ fs' hrelease =>
      noTrace_of_release hwf h hreads hrelease
  · rw [hreads.store, h.size]
    exact (h.fresh s hs).1
  · exact (hreads.marked_iff s).mpr ((h.marked s).mpr (.inr hs))
  · rw [htree, h.tree]
    exact h.notMem_tree hs

/-- `dir_add` returns true if it returns. -/
def Addable (d : Sector → Block) (dir : Inode) (name : CString) : Prop :=
  ValidName name ∧ ¬ Listed d dir.sector name ∧ (dir.denyWriteCnt = 0 ∨ Endless d dir.sector)

theorem not_addable_iff {d : Sector → Block} {dir : Inode} {name : CString} :
    ¬ Addable d dir name ↔ ¬ ValidName name ∨ Listed d dir.sector name ∨
      (¬ Endless d dir.sector ∧ dir.denyWriteCnt ≠ 0) := by
  rw [Addable, not_and_or, not_and_or, not_not, not_or, and_comm (a := ¬ dir.denyWriteCnt = 0)]

variable {depth : ℕ} {dir : Inode} {name : CString} {type : Int32} {file : Inode}
  (hwf : WellFormed fs inodes) (hzero : freeMapSector ∈ inodes)
  (hfile : fs.freeMapFile = some file) (hdir : dir.sector ∈ inodes)
  (hclient : Client fs dir.sector)

include hwf hdir hclient in
theorem Grew.dir_eq (name : CString) (h : Grew (unused fs) fs fs' L) : FileOk fs' dir.sector ∧
    (Addable fs'.store.sectors dir name ↔ Addable fs.store.sectors dir name) := by
  have hrest := fun t (ht : t ∈ unused fs) => hwf.notMem_unused ht
  obtain ⟨hdi, hbytes⟩ := h.file_rest hwf hrest hdir hclient
  refine ⟨(h.wellFormed_rest hwf hrest).1.fileOk hdir, ?_⟩
  have hslots : slotCount fs'.store.sectors dir.sector = slotCount fs.store.sectors dir.sector := by
    rw [slotCount, hdi, slotCount]
  have hentry : entryAt fs'.store.sectors dir.sector = entryAt fs.store.sectors dir.sector := by
    funext i p
    rw [entryAt, hbytes, entryAt]
  rw [Addable, Listed, hslots, hentry, Endless, hdi, Addable, Listed, Endless]

include hwf hzero hfile hdir hclient in
/-- **A failure without a trace**: no block was allocated before it. -/
theorem createIn_noTrace {size : ℤ} (hstack : 252 < blockCount size → ∀ k i, fs.stack k i ∈ unused fs)
    (hcond : size ≤ 0 ∨ freeCount fs ≤ 1 ∨ ¬ MapSmall fs ∨
      (380 ≤ blockCount size ∧ 256 ≤ freeCount fs) ∨ Addable fs.store.sectors dir name) :
    Always diskHandler (createIn depth dir name size type) fs (fun r fs' =>
      r = false → NoTrace inodes fs fs') := by
  have hok := hwf.map
  refine Always.intro fun Q h => ?_
  rw [createIn, ensures_bind] at h
  rcases Nat.eq_zero_or_pos (freeCount fs) with hnone | hpos
  · obtain ⟨r, fs1, -, h, hr, hfs⟩ := h.and (freeMapAllocate_refuses depth fs hok hnone)
    rw [hr, ensures_ret, hfs] at h
    exact ⟨_, _, h, fun _ => ⟨fun _ => Iff.rfl, fun _ _ _ => rfl⟩⟩
  by_cases hsmall : MapSmall fs
  swap
  · exact absurd h (not_ensures_freeMapAllocate depth fs hok hsmall hpos _)
  obtain ⟨_, fs1, hrun1, h, s, rfl, h1⟩ := h.and (freeMapAllocate_spec depth fs hok hsmall hpos)
  have hfresh := (h1.fresh s (mem_singleton_self s)).2
  have hs : s ≠ 0 := fun heq => hfresh (heq ▸ hwf.marked hzero mem_cons_self)
  have hcount := h1.freeCount_add
  rw [length_singleton] at hcount
  rw [ensures_bind] at h
  by_cases hneg : size < 0
  · rw [inodeCreate, ensures_bind, assert, if_neg (by omega)] at h
    exact absurd h not_ensures_fault
  obtain ⟨length, rfl⟩ := Int.eq_ofNat_of_zero_le (not_lt.mp hneg)
  by_cases hinner : 380 ≤ blockCount length ∧ 256 ≤ freeCount fs
  · exact absurd h (not_ensures_inodeCreate_inner (freeMapAllocate_spec depth)
      (freeMapAllocate_refuses depth) h1.ok' (fun _ => h1.small hsmall) rfl hinner.1 (by omega))
  obtain ⟨created, fs2, -, h, L, hL, hcreated, -, hlen, hgrew⟩ := h.and_always
    (inodeCreate_took (freeMapAllocate_spec depth) (freeMapAllocate_refuses depth) h1.ok'
      (fun _ _ => h1.small hsmall) rfl)
  have hunused : ∀ t ∈ unused fs, t ∉ mapTree fs1 := fun t ht => by
    rw [h1.tree]
    exact hok.notMem_unused ht
  have h2 : Grew (unused fs) fs1 fs2 L := hgrew (unused fs) (fun hn =>
    always_garbage (P := fun w => ∀ i, w i ∈ unused fs) _ (hstack hn) _ _ hrun1) hfresh hunused
  have h12 : Grew (unused fs) fs fs2 ([s] ++ L) := (h1.mono (Set.empty_subset _)).trans h2
  have hle := hL.length_le
  obtain ⟨hdirOk, hadd⟩ := h12.dir_eq hwf hdir hclient name
  rw [ensures_bind] at h
  by_cases hsuccess : created = true ∧ Addable fs.store.sectors dir name
  · -- the entry is added
    obtain ⟨hvalid, hlisted, hdeny⟩ := hadd.mpr hsuccess.2
    rw [if_pos hsuccess.1] at h
    obtain ⟨_, fs3, -, h, rfl⟩ := h.and_always (always_dirAdd hdirOk hvalid hlisted hdeny)
    rw [if_neg (by simp), ensures_bind, ensures_ret, ensures_ret] at h
    exact ⟨_, _, h, fun hfalse => by cases hfalse⟩
  · -- no block was allocated, and the sector of the inode is given back
    have hnil : L = [] := by
      rw [← length_eq_zero_iff]
      by_contra hne
      have htrue := hcreated.mpr (.inl (by omega))
      rcases hcond with hsize | hone | hbig | hfull | hadd
      · obtain rfl : length = 0 := by omega
        exact hne (hlen (Nat.zero_le _))
      · omega
      · exact hbig hsmall
      · exact hinner hfull
      · exact hsuccess ⟨htrue, hadd⟩
    rw [hnil, append_nil] at h12
    have hfalse : Ensures diskHandler (if created then
          dirAdd (freeMapAllocate (depth + 1) 1) dir name s type
        else pure false) fs2 (fun r fs3 => r = false ∧ Reads fs2 fs3) := by
      by_cases htrue : created = true
      · rw [if_pos htrue]
        exact dirAdd_refuses hdirOk (not_addable_iff.mp fun hadd' => hsuccess ⟨htrue, hadd.mp hadd'⟩)
      · rw [if_neg htrue, ensures_ret]
        exact ⟨rfl, .refl _⟩
    obtain ⟨_, fs3, -, h, rfl, hreads⟩ := h.and hfalse
    rw [if_pos ⟨rfl, hs⟩, ensures_bind] at h
    obtain ⟨_, fs4, -, h, hnone⟩ := h.and (release_noTrace depth hwf hsmall hfile h12 hreads)
    exact ⟨_, _, (ensures_ret ..).mp h, fun _ => hnone⟩

include hwf hzero hfile hdir hclient in
/-- **A failure that leaves sectors behind**: blocks were allocated, and the entry cannot be
added. -/
theorem createIn_trace {length : ℕ} {t : Sector} (hstack : Stack (fun _ => t) fs)
    (ht : t < fs.store.size) (hpos : 0 < length) (hfree : 2 ≤ freeCount fs) (hsmall : MapSmall fs)
    (hret : blockCount length < 380 ∨ freeCount fs < 256) (hunused : t ∈ unused fs)
    (hadd : ¬ Addable fs.store.sectors dir name) :
    Ensures diskHandler (createIn depth dir name length type) fs (fun r fs' =>
      r = false ∧ ∃ u, ¬ Marked fs u ∧ Marked fs' u) := by
  have hok := hwf.map
  rw [createIn, ensures_bind]
  refine ((freeMapAllocate_spec depth fs hok hsmall (by omega)).and_always
    (always_stack _ _ hstack)).mono ?_
  rintro _ fs1 ⟨⟨s, rfl, h1⟩, hstack1⟩
  have hsmem := mem_singleton_self s
  have hfresh := (h1.fresh s hsmem).2
  have hs : s ≠ 0 := fun heq => hfresh (heq ▸ hwf.marked hzero mem_cons_self)
  have hcount := h1.freeCount_add
  rw [length_singleton] at hcount
  have hn : 0 < blockCount length := by
    rw [blockCount_natCast]
    omega
  rw [ensures_bind]
  refine ((inodeCreate_returns (freeMapAllocate_spec depth) (freeMapAllocate_refuses depth) h1.ok'
    (fun _ => h1.small hsmall) hstack1 (by rw [h1.size]; exact ht)
    (by rw [h1.size]; exact (h1.fresh s hsmem).1) rfl (by omega)).and_always
    (inodeCreate_took (freeMapAllocate_spec depth) (freeMapAllocate_refuses depth) h1.ok'
      (fun _ _ => h1.small hsmall) rfl)).mono ?_
  rintro created fs2 ⟨-, L, -, hcreated, hsome, -, hgrew⟩
  have hL := hsome hn (by omega)
  have h2 : Grew (unused fs) fs1 fs2 L := hgrew (unused fs)
    (fun _ k i => by rw [hstack1 k]; exact hunused) hfresh fun u hu => by
      rw [h1.tree]
      exact hok.notMem_unused hu
  have h12 : Grew (unused fs) fs fs2 ([s] ++ L) := (h1.mono (Set.empty_subset _)).trans h2
  obtain ⟨hdirOk, hiff⟩ := h12.dir_eq hwf hdir hclient name
  have hrefuse : Ensures diskHandler (dirAdd (freeMapAllocate (depth + 1) 1) dir name s type) fs2
      (fun r fs3 => r = false ∧ Reads fs2 fs3) :=
    dirAdd_refuses hdirOk (not_addable_iff.mp fun hadd' => hadd (hiff.mp hadd'))
  rw [if_pos (hcreated.mpr (.inl hL)), ensures_bind]
  refine hrefuse.mono ?_
  rintro _ fs3 ⟨rfl, hreads⟩
  obtain ⟨hok3, htree3, -⟩ := hreads.mapOk h2.ok'
  rw [if_pos ⟨rfl, hs⟩, ensures_bind]
  refine (freeMapRelease_spec depth hok3 (hreads.mapSmall (h12.small hsmall))
    ((hreads.file.trans h12.file).trans hfile) ?_ ?_ ?_ ∅).mono ?_
  · rw [hreads.store, h12.size]
    exact (h1.fresh s hsmem).1
  · exact (hreads.marked_iff s).mpr ((h12.marked s).mpr (.inr mem_cons_self))
  · rw [htree3, h12.tree]
    exact h1.notMem_tree hsmem
  · intro _ fs4 hrelease
    obtain ⟨u, hu⟩ := exists_mem_of_length_pos hL
    have hufresh := (h2.fresh u hu).2
    rw [ensures_ret]
    refine ⟨rfl, u, fun hm => hufresh ((h1.marked u).mpr (.inl hm)), ?_⟩
    rw [hrelease.marked, hreads.marked_iff, h2.marked, mem_singleton]
    exact ⟨.inr hu, fun heq => hufresh ((h1.marked u).mpr (.inr (heq ▸ hsmem)))⟩

theorem exists_unused (hok : MapOk fs) (hpos : 0 < freeCount fs) :
    ∃ t, t < fs.store.size ∧ t ∈ unused fs := by
  obtain ⟨i, hi, hfree⟩ := (freeCount_pos_iff hok).mp hpos
  rw [hok.bitCnt_eq] at hi
  have htoNat : (UInt32.ofNat i).toNat = i :=
    UInt32.toNat_ofNat_of_lt' (hi.trans fs.store.size.toNat_lt)
  refine ⟨UInt32.ofNat i, UInt32.lt_iff_toNat_lt.mpr (by rw [htoNat]; exact hi), fun hm => ?_⟩
  rw [Marked, htoNat, hfree] at hm
  cases hm

end

end Fs

namespace Kernel

/-- If `filesys_create` returns false, nothing is left behind, whatever the stack holds; for a file
of more than 252 blocks, as long as the stack names no sector that is in use. -/
def LeavesNoTrace (depth : ℕ) (k : Kernel) (inodes : List Sector) (self : Ptr) (name : CString)
    (size : ℤ) (type : Int32) : Prop :=
  ∀ stack : ℕ → Words, (252 < blockCount size → ∀ n i, ¬ Fs.Marked k.1 (stack n i)) →
    Always kernelHandler (filesysCreate depth self name size type) ({ k.1 with stack := stack }, k.2)
      (fun r k' => r = false → Fs.NoTrace inodes k.1 k'.1)

section

variable {k : Kernel} {held : Ptr → ℤ} {self : Ptr} {s : Sector} {depth : ℕ} {name : CString}
  {size : ℤ} {type : Int32} {inodes : List Sector}

/-- What `filesys_create` does to the file system is what it does in the current directory. -/
theorem always_filesysCreate (depth : ℕ) (name : CString) (size : ℤ) (type : Int32)
    (h : Opened k.2 held) (hm : MapOpen k) (hcur : CurrentDir k.2 self s) :
    ∃ dir : Inode, dir.sector = s ∧ (WritesDenied k.2 s ↔ dir.denyWriteCnt ≠ 0) ∧
      ∀ Q : Bool → Fs → Prop, Always kernelHandler (filesysCreate depth self name size type) k
        (fun r k' => Q r k'.1) ↔ Always diskHandler (createIn depth dir name size type) k.1 Q := by
  obtain ⟨_, k1, ⟨d, p, dir, held', rfl, hsec, hfs, hdir, -, h1, -, htwice⟩, hopen⟩ :=
    (dirOpenCurrent_spec h hm hcur).always_iff
  refine ⟨dir, hsec, hsec ▸ h1.writesDenied_iff h hdir.inode, fun Q => ?_⟩
  obtain ⟨_, k1', ⟨rfl, hk1⟩, hget⟩ := Ensures.always_iff (p := handleInode d) (s := k1)
    (R := fun i k' => i = dir ∧ k' = k1) (hdir.ensures_inode.mpr ⟨rfl, rfl⟩)
  rw [filesysCreate, always_bind_iff, hopen]
  simp only [always_bind_iff]
  rw [hget, hk1, always_fs, hfs]
  refine always_congr (always_freeMapFile _ k.1) fun r fs' hfile => ?_
  have hmap : MapOpen (fs', k1.2) :=
    ⟨(hfile.trans (congrArg _ hfs.symm)).trans h1.map.synced, h1.map.live⟩
  obtain ⟨_, k2, hfs2, hclose⟩ := (dirClose_quiet depth h1.opened hmap hdir htwice).always_iff
  rw [hclose, always_ret_iff, hfs2]

section

variable (hwf : Fs.WellFormed k.1 inodes) (hzero : freeMapSector ∈ inodes) (h : Opened k.2 held)
  (hm : MapOpen k)
  (hcur : CurrentDir k.2 self s)
include hwf hzero h hm hcur

theorem leavesNoTrace_of (hs : s ∈ inodes) (hclient : Fs.Client k.1 s)
    (hcond : size ≤ 0 ∨ freeCount k.1 ≤ 1 ∨ ¬ Fs.MapSmall k.1 ∨
      (380 ≤ blockCount size ∧ 256 ≤ freeCount k.1) ∨
      (Fs.ValidName name ∧ ¬ Fs.Listed k.1.store.sectors s name ∧
        (¬ WritesDenied k.2 s ∨ Fs.Endless k.1.store.sectors s))) :
    LeavesNoTrace depth k inodes self name size type := by
  intro stack hstack
  obtain ⟨p, i, -, -, hfile⟩ := hm.file
  obtain ⟨dir, rfl, hdeny, hiff⟩ := always_filesysCreate (k := ({ k.1 with stack := stack }, k.2))
    depth name size type h ⟨hm.synced, hm.live⟩ hcur
  rw [hiff (fun r fs' => r = false → Fs.NoTrace inodes k.1 fs')]
  rw [hdeny, not_not] at hcond
  exact (createIn_noTrace (hwf.pop stack) hzero hfile hs hclient hstack hcond).mono
    fun r fs' hnone hr => ⟨(hnone hr).marked, (hnone hr).files⟩

theorem not_leavesNoTrace_of (hs : s ∈ inodes)
    (hclient : Fs.Client k.1 s) (hsize : 0 < size) (hfree : 2 ≤ freeCount k.1)
    (hsmall : Fs.MapSmall k.1) (hret : blockCount size < 380 ∨ freeCount k.1 < 256)
    (hadd : ¬ (Fs.ValidName name ∧ ¬ Fs.Listed k.1.store.sectors s name ∧
      (¬ WritesDenied k.2 s ∨ Fs.Endless k.1.store.sectors s))) :
    ¬ LeavesNoTrace depth k inodes self name size type := by
  intro htrace
  obtain ⟨p, i, -, -, hfile⟩ := hm.file
  obtain ⟨t, ht, hunused⟩ := exists_unused hwf.map (by omega)
  obtain ⟨length, rfl⟩ := Int.eq_ofNat_of_zero_le hsize.le
  -- the stack names a free sector only
  have hpop := hwf.pop fun _ _ => t
  obtain ⟨dir, rfl, hdeny, hiff⟩ := always_filesysCreate
    (k := ({ k.1 with stack := fun _ _ => t }, k.2)) depth name length type h ⟨hm.synced, hm.live⟩ hcur
  have hall := (hiff (fun r fs' => r = false → Fs.NoTrace inodes k.1 fs')).mp
    (htrace (fun _ _ => t) fun _ _ _ => hunused)
  rw [hdeny, not_not] at hadd
  have hleft : Ensures diskHandler (createIn depth dir name length type)
      { k.1 with stack := fun _ _ => t } (fun r fs' => r = false ∧ ∃ u, ¬ Fs.Marked k.1 u ∧
        Fs.Marked fs' u) :=
    createIn_trace hpop hzero hfile hs hclient (fun _ => rfl) ht (by omega) hfree hsmall hret
      hunused hadd
  obtain ⟨r, fs', hrun, hfalse, u, hu, hu'⟩ := hleft
  exact hu (((hall r fs' hrun hfalse).marked u).mp hu')

end

end

/-- A thread without a working directory. -/
def threadMemory : Memory :=
  { plainMemory with threads := Heap.empty.alloc ⟨3, [], none, none⟩ }

theorem opened_threadMemory : Opened threadMemory (openers []) :=
  { (opened_bootMemory : Opened plainMemory (openers [])) with }

theorem mapOpen_threadMemory : MapOpen (tailFs, threadMemory) := ⟨rfl, mapPtr, _, rfl, rfl⟩

theorem slotCount_tailFs : slotCount tailFs.store.sectors rootDirSector = 0 := by
  decide

end Kernel

end Pintos

import Pintos.GrowthExact

/-! # Growth on a full disk

`add_inode` does not look at what `free_map_allocate` returns, and sets the length of the inode
to the new length in any case.  When a growth needs more sectors than are free, the file that a
returning `inode_write_at` leaves therefore has more sectors in its map than it can own: the
sectors it had and those that were free are too few (`length_le_of_owned`).  So such a write
is never safe (`not_safeGrowth`). -/

namespace Pintos.Fs

open Interaction List Paging

variable {alloc : Prog fsSig (Option Sector)} {fs : Fs}

theorem length_le_of_owned {L A : List Sector} (hnodup : L.Nodup)
    (h : ∀ s ∈ L, s < fs.store.size ∧ (s ∈ A ∨ ¬ Marked fs s)) :
    L.length ≤ A.length + freeCount fs := by
  have hsplit := length_eq_length_filter_add (l := L) (fun s => decide (s ∈ A))
  have hin : (L.filter fun s => decide (s ∈ A)).length ≤ A.length := by
    refine (subperm_of_subset (hnodup.filter _) fun s hs => ?_).length_le
    exact of_decide_eq_true (mem_filter.mp hs).2
  have hout : (L.filter fun s => !decide (s ∈ A)).length ≤ freeCount fs := by
    refine length_le_freeCount (hnodup.filter _) fun s hs => ?_
    obtain ⟨hs, hA⟩ := mem_filter.mp hs
    exact ⟨(h s hs).1, (h s hs).2.resolve_left (by simpa using hA)⟩
  omega

theorem always_addInode_length {di : InodeDisk} {new : ℤ} {c t : ℕ}
    (hcnt : sectorCount di.length.toInt = c) (ht : sectorCount new = t) (hct : c < t) :
    Always diskHandler (addInode alloc di new) fs (fun di' _ => di'.length = Int32.ofInt new) := by
  rw [addInode_eq hcnt ht hct]
  refine always_then fun g1 fs1 => ?_
  refine always_then fun g2 fs2 => ?_
  exact always_then fun g3 fs3 => always_ret rfl

/-- After a write that returns, the map of the file has as many sectors as the new length asks
for. -/
theorem always_inodeWriteAt_tree {inode : Inode} {buffer : Buffer} {size offset : ℕ}
    (hfile : FileOk fs inode.sector) (hdeny : inode.denyWriteCnt = 0) (hmax : offset + size < 2 ^ 31)
    (hct : blocksAt fs.store.sectors inode.sector < blockCount (offset + size : ℕ)) :
    Always diskHandler (inodeWriteAt alloc inode buffer size offset) fs (fun _ fs' =>
      (treeOf fs'.store.sectors inode.sector).length =
        1 + (indexCount (blockCount (offset + size : ℕ)) + blockCount (offset + size : ℕ))) := by
  have hcnt : sectorCount (InodeDisk.decode (fs.store.sectors inode.sector)).length.toInt =
      blocksAt fs.store.sectors inode.sector := sectorCount_eq_blockCount hfile.length_nonneg
  have ht : sectorCount (offset + size : ℕ) = blockCount (offset + size : ℕ) :=
    sectorCount_eq_blockCount (by omega)
  intro r fs' hrun
  have h : Ensures diskHandler (inodeWriteAt alloc inode buffer size offset) fs
      (fun r' fs'' => r' = r ∧ fs'' = fs') := ⟨r, fs', hrun, rfl, rfl⟩
  rw [inodeWriteAt, if_neg (not_not.mpr hdeny), ensures_bind,
    ensures_cacheRead hfile.sector_lt, wrap_add (by omega), ensures_bind] at h
  obtain ⟨di, fs1, -, h, hlen, hsize1⟩ := h.and_always
    ((always_addInode_length hcnt ht hct).and (always_size _ _))
  rw [ensures_bind] at h
  obtain ⟨_, fs2, -, h, hsize2⟩ := h.and_always (always_size _ fs1)
  rw [ensures_bind] at h
  obtain ⟨w, fs3, -, h, hsize3⟩ := h.and_always (always_size _ fs2)
  have hlt : inode.sector < fs3.store.size := by
    rw [hsize3, hsize2, hsize1]
    exact hfile.sector_lt
  rw [ensures_bind, ensures_cacheWrite hlt, ensures_ret] at h
  obtain ⟨-, rfl⟩ := h
  -- the inode that is written last has the new length
  have hblocks : blocksAt (put fs3 inode.sector di.encode).store.sectors inode.sector =
      blockCount (offset + size : ℕ) := by
    rw [blocksAt, inodeAt_put, hlen, Int32.toInt_ofInt_of_le (by omega) (by omega)]
  rw [treeOf, length_cons, length_append, length_indexSectors, length_dataSectors, hblocks]
  omega

/-- `inode_write_at (inode, f, size, offset)` returns the number of bytes that it stored; the
blocks that the length of the file covers, and their index blocks, are sectors of its own, which
it had or which were free and are marked now; and no sector of another inode is one of them or
has changed, the data of the free map's file apart, which the free map itself writes. -/
def SafeGrowth (alloc : Prog fsSig (Option Sector)) (fs : Fs) (inodes : List Sector) (inode : Inode)
    (f : ℕ → UInt8) (size offset : ℕ) : Prop :=
  Ensures diskHandler (inodeWriteAt alloc inode (.bytes f) size offset) fs (fun r fs' =>
    (∃ stored : ℕ, r = stored ∧ stored ≤ size ∧
      ((offset + stored : ℕ) : ℤ) ≤ (inodeAt fs'.store.sectors inode.sector).length.toInt ∧
      ∀ k < stored, flat fs'.store.sectors
        (mapSector fs'.store.sectors (inodeAt fs'.store.sectors inode.sector)) (offset + k) = f k) ∧
    ((treeOf fs'.store.sectors inode.sector).Nodup ∧
      ∀ s ∈ treeOf fs'.store.sectors inode.sector, s < fs.store.size ∧
        (s ∈ treeOf fs.store.sectors inode.sector ∨ (¬ Marked fs s ∧ Marked fs' s))) ∧
    ∀ o ∈ inodes, o ≠ inode.sector → ∀ s ∈ treeOf fs.store.sectors o,
      s ∉ treeOf fs'.store.sectors inode.sector ∧
        (s ∉ mapData fs → fs'.store.sectors s = fs.store.sectors s))

theorem not_safeGrowth_of_needs {inodes : List Sector} {inode : Inode} {f : ℕ → UInt8}
    {size offset : ℕ} (hfile : FileOk fs inode.sector) (hdeny : inode.denyWriteCnt = 0)
    (hmax : offset + size < 2 ^ 31)
    (hneeds : freeCount fs < (blockCount (offset + size : ℕ) - blocksAt fs.store.sectors inode.sector) +
      (indexCount (blockCount (offset + size : ℕ)) -
        indexCount (blocksAt fs.store.sectors inode.sector))) :
    ¬ SafeGrowth alloc fs inodes inode f size offset := by
  have hct : blocksAt fs.store.sectors inode.sector < blockCount (offset + size : ℕ) := by
    by_contra hle
    have hmono' := indexCount_mono (not_lt.mp hle)
    omega
  have hmono := indexCount_mono hct.le
  intro h
  obtain ⟨r, fs', -, ⟨-, ⟨hnodup, hown⟩, -⟩, hlen⟩ :=
    h.and_always (always_inodeWriteAt_tree hfile hdeny hmax hct)
  have hle := length_le_of_owned hnodup fun s hs => ⟨(hown s hs).1, (hown s hs).2.imp_right And.left⟩
  rw [hlen, treeOf, length_cons, length_append, length_indexSectors,
    length_dataSectors] at hle
  omega

/-- **Growth on a full disk** is never safe. -/
theorem not_safeGrowth (depth : ℕ) (fs : Fs) (inodes : List Sector) (inode : Inode)
    (f : ℕ → UInt8) (size offset : ℕ) (hwf : WellFormed fs inodes) (hmem : inode.sector ∈ inodes)
    (hdeny : inode.denyWriteCnt = 0) (hmax : offset + size < 2 ^ 31)
    (hneeds : freeCount fs < (blockCount (offset + size : ℕ) - blocksAt fs.store.sectors inode.sector) +
      (indexCount (blockCount (offset + size : ℕ)) -
        indexCount (blocksAt fs.store.sectors inode.sector))) :
    ¬ SafeGrowth (freeMapAllocate (depth + 1) 1) fs inodes inode f size offset :=
  not_safeGrowth_of_needs (hwf.fileOk hmem) hdeny hmax hneeds

/-- A device of four sectors without a free one: the free map's inode in sector 0 with its data
in sector 2, the root directory's in sector 1 and an inode in sector 3, both without blocks. -/
def fullFs : Fs where
  store :=
    { size := 4
      sectors := fun s =>
        if s = 0 then { emptyInode with direct := fun _ => 2, length := 4 }.encode
        else emptyInode.encode }
  freeMap := { bitCnt := 4, bits := fun _ => 0xf, bitCnt_lt := by decide }
  freeMapFile := some ⟨0, 1, false, 0⟩
  stack := fun _ _ => 0
  addresses := fun _ => physBase
  memory := fun _ => 0
  accesses := []

theorem wellFormed_fullFs : WellFormed fullFs [0, 1, 3] := by
  refine WellFormed.intro rfl (fun file hfile => ?_) ?_ ?_ ?_
  · cases hfile
    decide
  · decide +kernel
  · decide +kernel
  · decide +kernel

theorem freeCount_fullFs : freeCount fullFs = 0 := by decide

theorem blocksAt_fullFs : blocksAt fullFs.store.sectors 3 = 0 := by
  rfl

theorem not_safeGrowth_two_blocks :
    ¬ SafeGrowth (freeMapAllocate 1 1) fullFs [0, 1, 3] ⟨3, 1, false, 0⟩ (fun _ => 7) 513 0 :=
  not_safeGrowth 0 fullFs [0, 1, 3] ⟨3, 1, false, 0⟩ (fun _ => 7) 513 0 wellFormed_fullFs (by decide)
    rfl (by decide) (by rw [freeCount_fullFs, blocksAt_fullFs]; decide)

/-- One byte written to the empty file in sector 3 when no sector is free. -/
theorem not_safeGrowth_one_byte :
    WellFormed fullFs [0, 1, 3] ∧ freeCount fullFs = 0 ∧
      ¬ SafeGrowth (freeMapAllocate 1 1) fullFs [0, 1, 3] ⟨3, 1, false, 0⟩ (fun _ => 7) 1 0 :=
  ⟨wellFormed_fullFs, freeCount_fullFs, not_safeGrowth_of_needs (wellFormed_fullFs.fileOk (by decide))
    rfl (by decide) (by rw [freeCount_fullFs, blocksAt_fullFs]; decide)⟩

end Pintos.Fs

import Pintos.FullDisk

/-! # Removing an inode

The last close of a removed inode releases the sectors of its blocks and then its own.
`free_map_release` asserts that the sector is marked, unmarks it and rewrites the free map's
file (`freeMapRelease_spec`).

Up to 124 blocks exactly the sectors of the inode are released.  From the 125th block on
`deallocate_inode` hands the *address* of the field `indirect` to `cache_read` instead of its
value, and no device has such a sector (`inodeClose_releases_iff`). -/

namespace Pintos.Fs

open Interaction Paging List

variable {fs : Fs}

/-! ### Releases -/

/-- Between `fs` and `fs'` the sectors `L` were released; only sectors of `T` and of the free
map's file were accessed, and only the data of that file written. -/
structure Shrank (T : Set Sector) (fs fs' : Fs) (L : List Sector) : Prop where
  ok : MapOk fs'
  size : fs'.store.size = fs.store.size
  file : fs'.freeMapFile = fs.freeMapFile
  tree : mapTree fs' = mapTree fs
  data : mapData fs' = mapData fs
  marked : ∀ s, Marked fs' s ↔ Marked fs s ∧ s ∉ L
  sectors : ∀ t, t ∉ mapData fs → fs'.store.sectors t = fs.store.sectors t
  log : ∃ xs : List Sector, (∀ t ∈ xs, t ∈ T ∨ t ∈ mapTree fs) ∧ fs'.accesses = xs ++ fs.accesses

variable {s : Sector}

namespace Shrank

variable {T : Set Sector} {fs' fs'' : Fs} {L L' : List Sector}

theorem refl (T : Set Sector) (h : MapOk fs) : Shrank T fs fs [] :=
  ⟨h, rfl, rfl, rfl, rfl, by simp, fun _ _ => rfl, [], by simp, rfl⟩

theorem trans (h : Shrank T fs fs' L) (h' : Shrank T fs' fs'' L') :
    Shrank T fs fs'' (L ++ L') := by
  obtain ⟨xs, hxs, hlog⟩ := h.log
  obtain ⟨ys, hys, hlog'⟩ := h'.log
  refine ⟨h'.ok, h'.size.trans h.size, h'.file.trans h.file, h'.tree.trans h.tree,
    h'.data.trans h.data, fun s => ?_, fun t ht => ?_, ys ++ xs, fun t ht => ?_,
    by rw [hlog', hlog, append_assoc]⟩
  · rw [h'.marked, h.marked, mem_append, not_or, and_assoc]
  · rw [h'.sectors t (by rw [h.data]; exact ht), h.sectors t ht]
  · rcases mem_append.mp ht with ht | ht
    · exact (hys t ht).imp_right fun hm => h.tree ▸ hm
    · exact hxs t ht

theorem mono {T' : Set Sector} (h : Shrank T fs fs' L) (hT : T ⊆ T') : Shrank T' fs fs' L := by
  obtain ⟨xs, hxs, hlog⟩ := h.log
  exact ⟨h.ok, h.size, h.file, h.tree, h.data, h.marked, h.sectors, xs,
    fun t ht => (hxs t ht).imp_left fun hm => hT hm, hlog⟩

theorem write_map (h : Shrank T fs fs' L) (ht : Touches (mapData fs') (mapTree fs') fs' fs'') :
    Shrank T fs fs'' L := by
  have hmark : ∀ s, Marked fs'' s ↔ Marked fs' s := fun s => by rw [Marked, ht.freeMap_eq, Marked]
  obtain ⟨hok, htree, hdata⟩ := h.ok.congr ht.size ht.freeMapFile_eq (by rw [ht.freeMap_eq])
    (fun t _ hd => ht.sectors t hd) (fun t hm => (hmark t).mpr (h.ok.marked hm))
  have h' : Shrank T fs' fs'' [] := by
    obtain ⟨xs, hxs, hlog⟩ := ht.log
    exact ⟨hok, ht.size, ht.freeMapFile_eq, htree, hdata, fun s => by rw [hmark]; simp,
      ht.sectors, xs, fun t hm => .inr (hxs t hm), hlog⟩
  simpa using h.trans h'

theorem touch (h : Shrank T fs fs' L) (hs : s ∈ T) : Shrank T fs (touch fs' s) L := by
  obtain ⟨hok, htree, hdata⟩ : MapOk (Fs.touch fs' s) ∧ mapTree (Fs.touch fs' s) = mapTree fs' ∧
      mapData (Fs.touch fs' s) = mapData fs' :=
    h.ok.congr rfl rfl rfl (fun _ _ _ => rfl) (fun _ ht => h.ok.marked ht)
  obtain ⟨xs, hxs, hlog⟩ := h.log
  refine ⟨hok, h.size, h.file, htree.trans h.tree, hdata.trans h.data, h.marked, h.sectors,
    s :: xs, fun t ht => ?_, by rw [Fs.touch, hlog, cons_append]⟩
  exact (mem_cons.mp ht).elim (fun hts => .inl (hts ▸ hs)) (hxs t)

theorem congr_list (h : Shrank T fs fs' L) (hL : ∀ s, s ∈ L ↔ s ∈ L') : Shrank T fs fs' L' :=
  ⟨h.ok, h.size, h.file, h.tree, h.data, fun s => by rw [h.marked, hL], h.sectors, h.log⟩

theorem small_iff (h : Shrank T fs fs' L) (hok : MapOk fs) : MapSmall fs' ↔ MapSmall fs := by
  unfold MapSmall
  rw [h.file, h.ok.bitCnt_eq, h.size, hok.bitCnt_eq]

end Shrank

theorem unmark_spec (hok : MapOk fs) (hs : s < fs.store.size) (hmark : Marked fs s)
    (htree : s ∉ mapTree fs) : ∃ b, bitmapAll fs.freeMap s.toNat 1 = .ok true ∧
      bitmapSetMultiple fs.freeMap s.toNat 1 false = .ok b ∧
      Shrank ∅ fs { fs with freeMap := b } [s] := by
  have hlt : s.toNat + 1 ≤ fs.freeMap.bitCnt := by
    rw [hok.bitCnt_eq]
    exact UInt32.lt_iff_toNat_lt.mp hs
  obtain ⟨all, hall, hiff⟩ := bitmapAll_ok hlt
  obtain ⟨b, hb, hcnt, hget⟩ := bitmapSetMultiple_ok hlt false
  have hmarked : ∀ t, Marked { fs with freeMap := b } t ↔ Marked fs t ∧ t ∉ [s] := by
    intro t
    have ht : t.toNat = s.toNat ↔ t = s := UInt32.toNat_inj
    simp only [Marked, hget, mem_singleton, ← ht]
    by_cases h : t.toNat = s.toNat
    · simp [h]
    · simp [h]
  obtain ⟨hok', htree', hdata⟩ : MapOk { fs with freeMap := b } ∧
      mapTree { fs with freeMap := b } = mapTree fs ∧
      mapData { fs with freeMap := b } = mapData fs := by
    refine hok.congr rfl rfl hcnt (fun _ _ _ => rfl) fun t ht => (hmarked t).mpr ⟨hok.marked ht, ?_⟩
    rintro hts
    rw [mem_singleton.mp hts] at ht
    exact htree ht
  have hall' : all = true := hiff.mpr fun k hk => by
    obtain rfl : k = 0 := by omega
    exact hmark
  exact ⟨b, by rw [hall, hall'], hb, hok', rfl, rfl, htree', hdata, hmarked, fun _ _ => rfl, [],
    by simp, rfl⟩

variable {file : Inode}

/-- The release of a marked sector unmarks it and writes the free map. -/
theorem freeMapRelease_step (depth : ℕ) (hok : MapOk fs) (hfile : fs.freeMapFile = some file)
    (hs : s < fs.store.size) (hmark : Marked fs s) (htree : s ∉ mapTree fs) :
    ∃ fs1, Shrank ∅ fs fs1 [s] ∧ ∀ Q : Unit → Fs → Prop,
      Ensures diskHandler (freeMapRelease depth s 1) fs Q ↔
        Ensures diskHandler (bitmapWrite (freeMapAllocate depth 1) fs1.freeMap.bitCnt file) fs1
          (fun _ fs' => Q () fs') := by
  obtain ⟨b, hall, hset, h⟩ := unmark_spec hok hs hmark htree
  refine ⟨_, h, fun Q => ?_⟩
  rw [freeMapRelease, ensures_bind, ensures_getFreeMap, hall, lift, ensures_bind, ensures_ret,
    ensures_bind, ensures_assert rfl, hset, lift, ensures_bind, ensures_ret, ensures_bind,
    ensures_setFreeMap, ensures_bind, ensures_getFreeMapFile, h.file, hfile]
  simp only [ensures_bind, ensures_ret]

/-- **`free_map_release`** of one sector. -/
theorem freeMapRelease_spec (depth : ℕ) (hok : MapOk fs) (hsmall : MapSmall fs)
    (hfile : fs.freeMapFile = some file) (hs : s < fs.store.size) (hmark : Marked fs s)
    (htree : s ∉ mapTree fs) (T : Set Sector) :
    Ensures diskHandler (freeMapRelease depth s 1) fs (fun _ fs' => Shrank T fs fs' [s]) := by
  obtain ⟨fs1, h, hstep⟩ := freeMapRelease_step depth hok hfile hs hmark htree
  rw [hstep]
  refine (bitmapWrite_spec _ h.ok ((h.small_iff hok).mpr hsmall) (h.file.trans hfile)).mono ?_
  rintro _ fs2 ⟨-, ht, -⟩
  exact (h.mono (Set.empty_subset T)).write_map ht

/-- A free map that does not fit into the first 252 blocks of its file cannot be written after a
release. -/
theorem not_ensures_freeMapRelease_big (depth : ℕ) (hok : MapOk fs) (hbig : ¬ MapSmall fs)
    (hs : s < fs.store.size) (hmark : Marked fs s) (htree : s ∉ mapTree fs) {Q : Unit → Fs → Prop} :
    ¬ Ensures diskHandler (freeMapRelease depth s 1) fs Q := by
  obtain ⟨file, hfile, hbig⟩ : ∃ file, fs.freeMapFile = some file ∧
      252 * 512 < byteCnt fs.freeMap.bitCnt := by
    simpa [MapSmall] using hbig
  obtain ⟨fs1, h, hstep⟩ := freeMapRelease_step depth hok hfile hs hmark htree
  rw [hstep]
  refine not_ensures_bitmapWrite _ (h.ok.file file (h.file.trans hfile)) ?_
  rw [h.ok.bitCnt_eq, h.size, ← hok.bitCnt_eq]
  exact hbig

/-- Without the free map's file a release dereferences a null pointer. -/
theorem not_ensures_freeMapRelease_none (depth : ℕ) (hfile : fs.freeMapFile = none)
    {Q : Unit → Fs → Prop} : ¬ Ensures diskHandler (freeMapRelease depth s 1) fs Q := by
  intro h
  rw [freeMapRelease, ensures_bind, ensures_getFreeMap, ensures_bind] at h
  obtain ⟨all, fs1, -, h, hfile1⟩ := h.and_always (always_freeMapFile _ fs)
  rw [ensures_bind] at h
  obtain ⟨_, fs2, -, h, hfile2⟩ := h.and_always (always_freeMapFile _ fs1)
  rw [ensures_bind] at h
  obtain ⟨b, fs3, -, h, hfile3⟩ := h.and_always (always_freeMapFile _ fs2)
  rw [ensures_bind, ensures_setFreeMap, ensures_bind, ensures_getFreeMapFile] at h
  simp only [hfile3, hfile2, hfile1, hfile] at h
  exact not_ensures_fault h

/-! ### Removal -/

/-- The last close of a removed inode returns; it unmarked exactly the sectors of the inode, and
accessed no other sector, those of the free map's file apart. -/
def Releases (depth : ℕ) (fs : Fs) (inode : Inode) : Prop :=
  Ensures diskHandler (inodeClose depth inode) fs (fun _ fs' =>
    (∀ s, Marked fs' s ↔ Marked fs s ∧ s ∉ treeOf fs.store.sectors inode.sector) ∧
    ∃ xs : List Sector, fs'.accesses = xs ++ fs.accesses ∧ ∀ s ∈ xs,
      s ∈ treeOf fs.store.sectors inode.sector ∨ s ∈ mapTree fs)

variable {di : InodeDisk} {c : ℕ}

/-- The sectors of the direct blocks are released one after the other. -/
theorem releaseDirect_spec (depth : ℕ) (hok : MapOk fs) (hsmall : MapSmall fs)
    (hfile : fs.freeMapFile = some file) (hc : c ≤ 124) (T : Set Sector)
    (hnodup : (dataSectors fs.store.sectors di c).Nodup)
    (hsec : ∀ s ∈ dataSectors fs.store.sectors di c,
      s < fs.store.size ∧ Marked fs s ∧ s ∉ mapTree fs) :
    Ensures diskHandler (releaseLoop (fun s => freeMapRelease depth s 1) di.direct
        (fun j _ => decide (j < (c : ℤ) ∧ j < 124)) c) fs (fun left fs' =>
      left = 0 ∧ Shrank T fs fs' (dataSectors fs.store.sectors di c)) := by
  rw [releaseLoop, ensures_bind]
  refine (ensures_forLoop (fun j left fs' => ∃ k : ℕ, j = k ∧ k ≤ c ∧ left = (c : ℤ) - k ∧
    Shrank T fs fs' (dataSectors fs.store.sectors di k)) ?_ _ _ _ _ ?_).mono ?_
  · rintro j left fs1 ⟨k, rfl, hk, rfl, h⟩ hcond
    rw [decide_eq_true_iff] at hcond
    have hlt : k < c := by omega
    have hmem : di.direct ⟨k, by omega⟩ ∈ dataSectors fs.store.sectors di c := by
      rw [← mapSector_direct fs.store.sectors di (by omega)]
      exact mapSector_mem_dataSectors _ _ hlt
    have hsucc : dataSectors fs.store.sectors di (k + 1) =
        dataSectors fs.store.sectors di k ++ [di.direct ⟨k, by omega⟩] := by
      rw [dataSectors, range_succ, map_append, map_singleton,
        mapSector_direct _ _ (by omega)]
      rfl
    -- the sector was not released before
    have hnot : di.direct ⟨k, by omega⟩ ∉ dataSectors fs.store.sectors di k := by
      intro hin
      obtain ⟨i, hi, heq⟩ := mem_map.mp hin
      rw [← mapSector_direct fs.store.sectors di (by omega)] at heq
      have hik := inj_on_of_nodup_map hnodup (mem_range.mpr
        (lt_trans (mem_range.mp hi) hlt)) (mem_range.mpr hlt) heq
      exact absurd (mem_range.mp hi) (by omega)
    obtain ⟨hs, hm, ht⟩ := hsec _ hmem
    rw [ensures_bind, ensures_index (by omega) (by omega), ensures_bind]
    refine (freeMapRelease_spec depth h.ok ((h.small_iff hok).mpr hsmall) (h.file.trans hfile)
      (by rw [h.size]; exact hs) ((h.marked _).mpr ⟨hm, hnot⟩) (by rw [h.tree]; exact ht) T).mono ?_
    intro _ fs2 h2
    rw [ensures_ret]
    exact ⟨k + 1, by push_cast; rfl, hlt, by push_cast; ring, hsucc ▸ h.trans h2⟩
  · exact ⟨0, rfl, Nat.zero_le c, by simp, Shrank.refl T hok⟩
  · rintro ⟨j, left⟩ fs' ⟨⟨k, hj, hk, hleft, h⟩, hend⟩
    subst hj hleft
    simp only [decide_eq_false_iff_not] at hend
    obtain rfl : k = c := by omega
    rw [ensures_ret]
    exact ⟨by simp, h⟩

variable {release : Sector → Prog fsSig Unit}

/-- From the 125th block on something is left after the direct blocks. -/
theorem always_releaseDirect (hc : 124 < c) :
    Always diskHandler (releaseLoop release di.direct
      (fun j _ => decide (j < (c : ℤ) ∧ j < 124)) c) fs (fun left _ => 0 < left) := by
  refine always_bind (always_forLoop (fun j left _ => left = (c : ℤ) - j ∧ j ≤ 124) ?_ _ _ _ _ ?_) ?_
  · rintro j left fs1 ⟨rfl, -⟩ hcond
    rw [decide_eq_true_iff] at hcond
    refine always_then fun s fs2 => ?_
    exact always_then fun _ fs3 => always_ret ⟨by ring, by omega⟩
  · exact ⟨by simp, by omega⟩
  · rintro r fs1 ⟨⟨hleft, hj⟩, -⟩
    exact always_ret (by omega)

/-- From the 125th block on the address of the field `indirect` is taken for a sector. -/
theorem not_ensures_deallocateInode
    (hcnt : sectorCount di.length.toInt = c) (hc : 124 < c) (hdev : fs.store.size ≤ 0xc0000000)
    {Q : Unit → Fs → Prop} : ¬ Ensures diskHandler (deallocateInode release di) fs Q := by
  intro h
  simp only [deallocateInode, hcnt] at h
  rw [if_neg (by omega), ensures_bind] at h
  obtain ⟨left, fs1, -, h, hleft, hsize⟩ := h.and_always
    ((always_releaseDirect hc).and (always_size _ fs))
  rw [ensures_bind, deallocateIndirect, if_pos hleft, ensures_bind, ensures_address,
    ensures_bind] at h
  refine not_ensures_cacheRead ?_ h
  refine UInt32.le_trans ?_ (fs1.addresses 0).property
  rw [hsize]
  exact hdev

/-- Up to 124 blocks `deallocate_inode` releases the data sectors. -/
theorem deallocateInode_spec (depth : ℕ) (hok : MapOk fs) (hsmall : MapSmall fs)
    (hfile : fs.freeMapFile = some file) (hcnt : sectorCount di.length.toInt = c) (hc : c ≤ 124)
    (T : Set Sector) (hnodup : (dataSectors fs.store.sectors di c).Nodup)
    (hsec : ∀ s ∈ dataSectors fs.store.sectors di c,
      s < fs.store.size ∧ Marked fs s ∧ s ∉ mapTree fs) :
    Ensures diskHandler (deallocateInode (fun s => freeMapRelease depth s 1) di) fs (fun _ fs' =>
      Shrank T fs fs' (dataSectors fs.store.sectors di c)) := by
  simp only [deallocateInode, hcnt]
  by_cases h0 : (c : ℤ) ≤ 0
  · obtain rfl : c = 0 := by omega
    rw [if_pos h0, ensures_ret]
    exact Shrank.refl T hok
  · rw [if_neg h0, ensures_bind]
    refine (releaseDirect_spec depth hok hsmall hfile hc T hnodup hsec).mono ?_
    rintro left fs1 ⟨rfl, h⟩
    rw [ensures_bind, deallocateIndirect, if_neg (by omega), ensures_ret, deallocateDoubly,
      if_neg (by omega), ensures_ret]
    exact h

theorem not_ensures_deallocateInode_big (depth : ℕ) (hok : MapOk fs) (hbig : ¬ MapSmall fs)
    (hcnt : sectorCount di.length.toInt = c) (hc : 0 < c) (hzero : di.direct 0 = s)
    (hs : s < fs.store.size) (hmark : Marked fs s) (htree : s ∉ mapTree fs) {Q : Unit → Fs → Prop} :
    ¬ Ensures diskHandler (deallocateInode (fun s => freeMapRelease depth s 1) di) fs Q := by
  intro h
  simp only [deallocateInode, hcnt] at h
  rw [if_neg (by omega), ensures_bind, releaseLoop, ensures_bind, forLoop_round (by decide)
    (decide_eq_true (show (0 : ℤ) < c ∧ (0 : ℤ) < 124 by omega)), ensures_bind, ensures_bind,
    ensures_index le_rfl (by decide), ensures_bind] at h
  subst hzero
  exact not_ensures_freeMapRelease_big depth hok hbig hs hmark htree h

section

variable {inodes : List Sector} {inode : Inode} (hwf : WellFormed fs inodes)
  (hmem : inode.sector ∈ inodes)
  (hne : ∀ file, fs.freeMapFile = some file → file.sector ≠ inode.sector)
  (hopen : inode.openCnt = 1) (hremoved : inode.removed = true)

include hwf hmem

theorem sectorCount_inode : sectorCount (inodeAt fs.store.sectors inode.sector).length.toInt =
    blocksAt fs.store.sectors inode.sector :=
  sectorCount_eq_blockCount (hwf.fileOk hmem).length_nonneg

include hopen hremoved

theorem ensures_inodeClose (depth : ℕ) {Q : Option Inode → Fs → Prop} :
    Ensures diskHandler (inodeClose depth inode) fs Q ↔
      Ensures diskHandler (deallocateInode (fun s => freeMapRelease depth s 1)
          (inodeAt fs.store.sectors inode.sector)) (touch fs inode.sector) (fun _ fs1 =>
        Ensures diskHandler (freeMapRelease depth inode.sector 1) fs1 (fun _ fs' => Q none fs')) := by
  rw [inodeClose, if_pos (by rw [hopen]; rfl), if_pos hremoved, ensures_bind,
    ensures_cacheRead (hwf.fileOk hmem).sector_lt, ensures_bind]
  simp only [ensures_bind, ensures_ret]
  rfl

include hne

/-- The last close of a removed inode without index blocks. -/
theorem inodeClose_shrank (depth : ℕ) (hc : blocksAt fs.store.sectors inode.sector ≤ 124)
    (hfile : fs.freeMapFile = some file) (hsmall : MapSmall fs) :
    Ensures diskHandler (inodeClose depth inode) fs (fun r fs' =>
      r = none ∧ Shrank {inode.sector} fs fs' (treeOf fs.store.sectors inode.sector)) := by
  have hok := hwf.fileOk hmem
  have hsec : ∀ t ∈ treeOf fs.store.sectors inode.sector,
      t < fs.store.size ∧ Marked fs t ∧ t ∉ mapTree fs :=
    fun t ht => ⟨hok.valid t ht, hwf.marked hmem ht, hwf.notMem_mapTree hmem hne ht⟩
  have h0 : Shrank {inode.sector} fs (touch fs inode.sector) [] :=
    (Shrank.refl _ hwf.map).touch rfl
  rw [ensures_inodeClose hwf hmem hopen hremoved]
  refine (deallocateInode_spec depth h0.ok ((h0.small_iff hwf.map).mpr hsmall)
    (h0.file.trans hfile) (sectorCount_inode hwf hmem) hc {inode.sector} hok.data_nodup
    fun t ht => ?_).mono ?_
  · obtain ⟨hlt, hm, hn⟩ := hsec t (FileOk.data_subset _ _ ht)
    exact ⟨hlt, hm, h0.tree ▸ hn⟩
  intro _ fs1 h1
  have h01 := h0.trans h1
  obtain ⟨hlt, hm, hn⟩ := hsec inode.sector mem_cons_self
  refine (freeMapRelease_spec depth h1.ok ((h01.small_iff hwf.map).mpr hsmall)
    (h01.file.trans hfile) (by rw [h01.size]; exact hlt)
    ((h01.marked _).mpr ⟨hm, hok.sector_notMem⟩) (by rw [h01.tree]; exact hn)
    {inode.sector}).mono ?_
  intro _ fs' h2
  refine ⟨rfl, (h01.trans h2).congr_list fun t => ?_⟩
  have hindex : indexSectors fs.store.sectors (inodeAt fs.store.sectors inode.sector)
      (blocksAt fs.store.sectors inode.sector) = [] := by
    rw [indexSectors, if_neg (by omega), if_neg (by omega), append_nil]
  rw [treeOf, hindex, nil_append, nil_append, mem_append, mem_singleton,
    mem_cons, or_comm]
  rfl

theorem releases_of_le (depth : ℕ) (hc : blocksAt fs.store.sectors inode.sector ≤ 124)
    (hfile : fs.freeMapFile ≠ none) (hsmall : MapSmall fs) : Releases depth fs inode := by
  obtain ⟨file, hfile⟩ := Option.ne_none_iff_exists'.mp hfile
  refine (inodeClose_shrank hwf hmem hne hopen hremoved depth hc hfile hsmall).mono ?_
  rintro _ fs' ⟨-, h⟩
  obtain ⟨xs, hxs, hlog⟩ := h.log
  refine ⟨h.marked, xs, hlog, fun t ht => (hxs t ht).imp_left fun hts => ?_⟩
  rw [Set.mem_singleton_iff.mp hts]
  exact mem_cons_self

variable {T : Set Sector} {fs' : Fs}

omit hmem hne hopen hremoved in
theorem WellFormed.tree_of_shrank {L : List Sector} (h : Shrank T fs fs' L) : ∀ o ∈ inodes,
    inodeAt fs'.store.sectors o = inodeAt fs.store.sectors o ∧
      treeOf fs'.store.sectors o = treeOf fs.store.sectors o := by
  intro o ho
  have hsec : ∀ t ∈ treeSet fs.store.sectors o, t ∉ dataSet fs.store.sectors o →
      t ∉ mapData fs := by
    rintro t ht hd ⟨file, hfile, hdata⟩
    rcases eq_or_ne file.sector o with rfl | hfo
    · exact hd hdata
    · exact hwf.disjoint ho (hwf.map_mem file hfile) hfo.symm ht (FileOk.data_subset _ _ hdata)
  obtain ⟨hdi, -, htree, -⟩ :=
    (hwf.fileOk ho).congr h.size fun t ht hd => h.sectors t (hsec t ht hd)
  exact ⟨hdi, htree⟩

omit hne hopen hremoved in
theorem WellFormed.of_shrank {rest : List Sector}
    (h : Shrank T fs fs' (treeOf fs.store.sectors inode.sector)) (hsub : rest.Sublist inodes)
    (hnot : inode.sector ∉ rest)
    (hmap : ∀ file, fs.freeMapFile = some file → file.sector ∈ rest) : WellFormed fs' rest := by
  have key := hwf.tree_of_shrank h
  have htrees : rest.flatMap (treeOf fs'.store.sectors) = rest.flatMap (treeOf fs.store.sectors) :=
    flatMap_congr fun o ho => (key o (hsub.subset ho)).2
  refine ⟨h.ok, fun file hfile => hmap file (h.file ▸ hfile), fun o ho => ?_, ?_, fun t ht => ?_⟩
  · rw [(key o (hsub.subset ho)).1]
    exact hwf.length_nonneg o (hsub.subset ho)
  · rw [htrees]
    exact hwf.nodup.sublist (hsub.flatMap _)
  · rw [htrees] at ht
    obtain ⟨o, ho, ht⟩ := mem_flatMap.mp ht
    have hsec := hwf.sectors t (mem_flatMap.mpr ⟨o, hsub.subset ho, ht⟩)
    refine ⟨h.size ▸ hsec.1, (h.marked t).mpr ⟨hsec.2, fun hin => ?_⟩⟩
    have hone : o ≠ inode.sector := fun heq => hnot (heq ▸ ho)
    exact hwf.disjoint (hsub.subset ho) hmem hone ht hin

section

variable {depth : ℕ} {Q : Option Inode → Fs → Prop}
  (h : Ensures diskHandler (inodeClose depth inode) fs Q)

include h

omit hne in
theorem blocksAt_le_of_close (hdev : fs.store.size ≤ 0xc0000000) :
    blocksAt fs.store.sectors inode.sector ≤ 124 := by
  by_contra hc
  rw [ensures_inodeClose hwf hmem hopen hremoved] at h
  exact not_ensures_deallocateInode (sectorCount_inode hwf hmem) (by omega)
    (show (touch fs inode.sector).store.size ≤ _ from hdev) h

omit hne in
theorem freeMapFile_ne_none_of_close : fs.freeMapFile ≠ none := by
  intro hfile
  rw [ensures_inodeClose hwf hmem hopen hremoved] at h
  obtain ⟨_, fs1, -, h, hfile1⟩ := h.and_always (always_freeMapFile _ _)
  exact not_ensures_freeMapRelease_none depth (hfile1.trans hfile) h

theorem mapSmall_of_close : MapSmall fs := by
  by_contra hbig
  have hok := hwf.fileOk hmem
  have hcnt := sectorCount_inode hwf hmem
  have h0 : Shrank {inode.sector} fs (touch fs inode.sector) [] :=
    (Shrank.refl _ hwf.map).touch rfl
  have hbig0 := mt (h0.small_iff hwf.map).mp hbig
  rw [ensures_inodeClose hwf hmem hopen hremoved] at h
  -- the first release is that of block 0, or that of the inode if it has no block
  by_cases hc : blocksAt fs.store.sectors inode.sector = 0
  · simp only [deallocateInode, hcnt, hc] at h
    rw [if_pos (by simp), ensures_ret] at h
    exact not_ensures_freeMapRelease_big depth h0.ok hbig0 hok.sector_lt
      (hwf.marked hmem mem_cons_self)
      (h0.tree ▸ hwf.notMem_mapTree hmem hne mem_cons_self) h
  · have hdata := FileOk.data_subset _ _ (mapSector_mem_dataSectors fs.store.sectors
      (inodeAt fs.store.sectors inode.sector) (Nat.pos_of_ne_zero hc))
    exact not_ensures_deallocateInode_big depth h0.ok hbig0 hcnt (Nat.pos_of_ne_zero hc)
      (mapSector_direct fs.store.sectors _ (by decide)).symm (hok.valid _ hdata)
      (hwf.marked hmem hdata) (h0.tree ▸ hwf.notMem_mapTree hmem hne hdata) h

end

end

/-- **Removal** releases exactly the sectors of the inode if it has no index block, and the free
map's file is open and reaches no doubly indirect block; in no other case. -/
theorem inodeClose_releases_iff (depth : ℕ) (fs : Fs) (inodes : List Sector) (inode : Inode)
    (hwf : WellFormed fs inodes) (hmem : inode.sector ∈ inodes)
    (hne : ∀ file, fs.freeMapFile = some file → file.sector ≠ inode.sector)
    (hopen : inode.openCnt = 1) (hremoved : inode.removed = true)
    (hdev : fs.store.size ≤ 0xc0000000) :
    Releases depth fs inode ↔ blocksAt fs.store.sectors inode.sector ≤ 124 ∧
      fs.freeMapFile ≠ none ∧ MapSmall fs :=
  ⟨fun h => ⟨blocksAt_le_of_close hwf hmem hopen hremoved h hdev,
      freeMapFile_ne_none_of_close hwf hmem hopen hremoved h,
      mapSmall_of_close hwf hmem hne hopen hremoved h⟩,
    fun ⟨hc, hfile, hsmall⟩ => releases_of_le hwf hmem hne hopen hremoved depth hc hfile hsmall⟩

theorem inodeClose_releases_iff_empty :
    Releases 0 fullFs ⟨3, 1, true, 0⟩ ↔ blocksAt fullFs.store.sectors 3 ≤ 124 ∧
      fullFs.freeMapFile ≠ none ∧ MapSmall fullFs :=
  inodeClose_releases_iff 0 fullFs [0, 1, 3] ⟨3, 1, true, 0⟩ wellFormed_fullFs (by decide)
    (fun file hfile => by cases hfile; decide) rfl rfl (by decide)

/-- A device of 256 sectors: the free map's inode in sector 0 with its data in sector 2, the root
directory's in sector 1, and in sector 3 an inode of 125 blocks in sectors 4 to 128, with its
indirect block in sector 129. -/
def indirectFs : Fs where
  store :=
    { size := 256
      sectors := fun s =>
        if s = 0 then { emptyInode with direct := fun _ => 2, length := 32 }.encode
        else if s = 3 then
          { emptyInode with
            direct := fun i => UInt32.ofNat (4 + i)
            indirect := 129
            length := 124 * 512 + 1 }.encode
        else if s = 129 then blockOf (fun _ => 128)
        else emptyInode.encode }
  freeMap := { bitCnt := 256, bits := fun _ => 0xffffffff, bitCnt_lt := by decide }
  freeMapFile := some ⟨0, 1, false, 0⟩
  stack := fun _ _ => 0
  addresses := fun _ => physBase
  memory := fun _ => 0
  accesses := []

theorem blocksAt_indirectFs : blocksAt indirectFs.store.sectors 3 = 125 := by
  rfl

theorem wellFormed_indirectFs : WellFormed indirectFs [0, 1, 3] := by
  refine WellFormed.intro rfl (fun file hfile => ?_) ?_ ?_ ?_
  · cases hfile
    decide
  · decide +kernel
  · decide +kernel
  · decide +kernel

/-- The last close of the removed inode of 125 blocks. -/
theorem not_releases_indirect :
    WellFormed indirectFs [0, 1, 3] ∧ MapSmall indirectFs ∧
      ¬ Releases 0 indirectFs ⟨3, 1, true, 0⟩ := by
  refine ⟨wellFormed_indirectFs, fun _ _ => by decide, fun h => ?_⟩
  have hc := blocksAt_le_of_close wellFormed_indirectFs (by decide) rfl rfl h (by decide)
  exact absurd hc (by decide)

end Pintos.Fs

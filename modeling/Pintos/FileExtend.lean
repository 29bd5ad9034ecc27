import Pintos.InodeGrow

/-! # Files that get longer

A call on one file allocates sectors for it and writes its sectors; what the other files are
made of stays as it was.

* `Extends fs fs' s A L`: the sectors of the inode in sector `s` were `A` and are now `A` and
  the newly allocated `L`, and only they were written.  The file system stays well formed
  (`Extends.wellFormed`), and every other file as it is (`Grew.file_rest`).
* `inodeWriteAt_spec`: a write is such an extension.  The bytes of the file (`fileBytes`) change
  in the interval that is written; blocks that are added in front of it are zero. -/

namespace Pintos.Fs

open Interaction Paging List

variable {alloc : Prog fsSig (Option Sector)} {fs fs' fs'' : Fs} {s : Sector} {A L : List Sector}

/-! ### Extensions -/

/-- From `fs` to `fs'` the inode in sector `s`, whose sectors were `A`, got the sectors `L`. -/
structure Extends (fs fs' : Fs) (s : Sector) (A L : List Sector) : Prop where
  grew : Grew { t | t ∈ A } fs fs' L
  tree : (treeOf fs'.store.sectors s).Perm (A ++ L)
  length_nonneg : 0 ≤ (inodeAt fs'.store.sectors s).length.toInt

/-- The inode in sector `s` is not that of the free map. -/
def Client (fs : Fs) (s : Sector) : Prop := ∀ file, fs.freeMapFile = some file → file.sector ≠ s

theorem Grew.touches {W B T : Set Sector} (h : Grew W fs fs' L) (ht : Touches B T fs' fs'')
    (hB : ∀ t ∈ B, (t ∈ L ∨ t ∈ W) ∧ t ∉ mapTree fs) (hT : ∀ t ∈ T, t ∈ L ∨ t ∈ W) :
    Grew W fs fs'' L := by
  obtain ⟨xs, hxs, hlog⟩ := ht.log
  refine h.step ht.size ht.freeMap_eq ht.freeMapFile_eq (fun t _ hcase => ht.sectors t fun hb => ?_)
    ⟨xs, fun t hm => (hT t (hxs t hm)).imp_right .inl, hlog⟩
  obtain ⟨hin, hmap⟩ := hB t hb
  exact hcase.elim hmap fun hout => hin.elim hout.1 hout.2

namespace WellFormed

variable {inodes : List Sector}

theorem erase (h : WellFormed fs inodes) (hs : s ∈ inodes) (hclient : Client fs s) :
    WellFormed fs (inodes.erase s) ∧
      ∀ t ∈ treeOf fs.store.sectors s, t ∉ (inodes.erase s).flatMap (treeOf fs.store.sectors) := by
  have hperm : (inodes.flatMap (treeOf fs.store.sectors)).Perm
      (treeOf fs.store.sectors s ++ (inodes.erase s).flatMap (treeOf fs.store.sectors)) :=
    (perm_cons_erase hs).flatMap_right _
  have hnodup := hperm.nodup_iff.mp h.nodup
  refine ⟨⟨h.map, fun file hfile => ?_, fun o ho => h.length_nonneg o (mem_of_mem_erase ho),
    (nodup_append.mp hnodup).2.1, fun t ht => ?_⟩, fun t ht hrest => ?_⟩
  · exact (mem_erase_of_ne (hclient file hfile)).mpr (h.map_mem file hfile)
  · exact h.sectors t (hperm.mem_iff.mpr (mem_append_right _ ht))
  · exact disjoint_of_nodup_append hnodup ht hrest

theorem inodeOk (h : WellFormed fs inodes) (hs : s ∈ inodes) (hclient : Client fs s) :
    InodeOk fs (inodeAt fs.store.sectors s) := by
  refine ⟨h.length_nonneg s hs, (nodup_cons.mp (h.fileOk hs).nodup).2, fun t ht => ?_⟩
  have ht' : t ∈ treeSet fs.store.sectors s := mem_cons_of_mem s ht
  exact ⟨(h.fileOk hs).valid t ht', h.marked hs ht', h.notMem_mapTree hs hclient ht'⟩

end WellFormed

/-! ### The other files -/

section

variable {W : Set Sector} {rest : List Sector} {o t : Sector} (h : Grew W fs fs' L)
  (hrest : WellFormed fs rest) (hA : ∀ t ∈ W, t ∉ rest.flatMap (treeOf fs.store.sectors))

include h hrest hA

theorem Grew.sectors_rest (ho : o ∈ rest) (ht : t ∈ treeSet fs.store.sectors o)
    (hd : t ∉ mapData fs) : fs'.store.sectors t = fs.store.sectors t := by
  refine h.sectors t (fun hl => ?_) (fun hw => ?_) hd
  · exact (h.fresh t hl).2 (hrest.marked ho ht)
  · exact hA t hw (WellFormed.mem_sectors ho ht)

theorem Grew.congr_rest (ho : o ∈ rest) :
    inodeAt fs'.store.sectors o = inodeAt fs.store.sectors o ∧
    blocksAt fs'.store.sectors o = blocksAt fs.store.sectors o ∧
    treeOf fs'.store.sectors o = treeOf fs.store.sectors o ∧
    (∀ i < blocksAt fs.store.sectors o,
      mapSector fs'.store.sectors (inodeAt fs'.store.sectors o) i =
        mapSector fs.store.sectors (inodeAt fs.store.sectors o) i) := by
  obtain ⟨hdi, hn, htree, -, hmap, -⟩ := (hrest.fileOk ho).congr h.size fun t ht hd => by
    refine h.sectors_rest hrest hA ho ht ?_
    rintro ⟨file, hfile, hdata⟩
    -- data of the free map's file is data of `o` only if `o` is its inode
    by_cases hfo : file.sector = o
    · exact hd (hfo ▸ hdata)
    · exact hrest.disjoint (hrest.map_mem file hfile) ho hfo (FileOk.data_subset _ _ hdata) ht
  exact ⟨hdi, hn, htree, hmap⟩

/-- **Other files** keep their length and their bytes. -/
theorem Grew.file_rest (ho : o ∈ rest) (hclient : Client fs o) :
    inodeAt fs'.store.sectors o = inodeAt fs.store.sectors o ∧
      fileBytes fs'.store.sectors o = fileBytes fs.store.sectors o := by
  refine (hrest.fileOk ho).file_congr h.size fun t ht => h.sectors_rest hrest hA ho ht fun hd => ?_
  exact hrest.notMem_mapTree ho hclient ht (mapData_subset _ hd)

theorem Grew.wellFormed_rest : WellFormed fs' rest ∧
    rest.flatMap (treeOf fs'.store.sectors) = rest.flatMap (treeOf fs.store.sectors) := by
  have hflat : rest.flatMap (treeOf fs'.store.sectors) = rest.flatMap (treeOf fs.store.sectors) :=
    flatMap_congr fun o ho => (h.congr_rest hrest hA ho).2.2.1
  refine ⟨⟨h.ok', fun file hfile => hrest.map_mem file (h.file ▸ hfile), fun o ho => ?_, ?_,
    fun t ht => ?_⟩, hflat⟩
  · rw [(h.congr_rest hrest hA ho).1]
    exact hrest.length_nonneg o ho
  · rw [hflat]
    exact hrest.nodup
  · rw [hflat] at ht
    rw [h.size, h.marked]
    exact ⟨(hrest.sectors t ht).1, .inl (hrest.sectors t ht).2⟩

end

namespace Extends

variable {rest : List Sector}

/-- **An extension** keeps the file system well formed. -/
theorem wellFormed (h : Extends fs fs' s A L) (hrest : WellFormed fs rest)
    (hA : ∀ t ∈ A, t ∉ rest.flatMap (treeOf fs.store.sectors))
    (hnodup : A.Nodup) (hmark : ∀ t ∈ A, t < fs.store.size ∧ Marked fs t) :
    WellFormed fs' (s :: rest) := by
  obtain ⟨hrest', hflat⟩ := h.grew.wellFormed_rest hrest hA
  have hfresh : ∀ t ∈ L, ¬ Marked fs t := fun t ht => (h.grew.fresh t ht).2
  have hsec : ∀ t ∈ treeOf fs'.store.sectors s, t < fs'.store.size ∧ Marked fs' t := by
    intro t ht
    rw [h.grew.size, h.grew.marked]
    rcases mem_append.mp (h.tree.mem_iff.mp ht) with ha | hl
    · exact ⟨(hmark t ha).1, .inl (hmark t ha).2⟩
    · exact ⟨(h.grew.fresh t hl).1, .inr hl⟩
  refine ⟨hrest'.map, fun file hfile => mem_cons_of_mem _ (hrest'.map_mem file hfile),
    fun o ho => ?_, ?_, fun t ht => ?_⟩
  · rcases mem_cons.mp ho with rfl | ho
    · exact h.length_nonneg
    · exact hrest'.length_nonneg o ho
  · rw [flatMap_cons]
    refine nodup_append'.mpr ⟨h.tree.nodup_iff.mpr (nodup_append'.mpr ⟨hnodup,
      h.grew.nodup, fun t ha hl => hfresh t hl (hmark t ha).2⟩), hrest'.nodup, fun t ht hr => ?_⟩
    rw [hflat] at hr
    rcases mem_append.mp (h.tree.mem_iff.mp ht) with ha | hl
    · exact hA t ha hr
    · exact hfresh t hl (hrest.sectors t hr).2
  · exact (mem_append.mp ht).elim (hsec t) (hrest'.sectors t)

theorem refl (hwf : WellFormed fs rest) (hs : s ∈ rest) :
    Extends fs fs s (treeOf fs.store.sectors s) [] :=
  ⟨Grew.refl _ hwf.map, by rw [append_nil], hwf.length_nonneg s hs⟩

theorem write (h : Extends fs fs' s A L) (hA : ∀ t ∈ A, t ∉ mapTree fs) (hfile : FileOk fs' s)
    (ht : Touches (dataSet fs'.store.sectors s) (treeSet fs'.store.sectors s) fs' fs'') :
    Extends fs fs'' s A L := by
  obtain ⟨hdi, -, htree, -⟩ := hfile.keeps ht
  have hin : ∀ t ∈ treeSet fs'.store.sectors s, t ∈ L ∨ t ∈ A := fun t hmem =>
    (mem_append.mp (h.tree.mem_iff.mp hmem)).symm
  refine ⟨h.grew.touches ht (fun t hd => ?_) hin, by rw [htree]; exact h.tree,
    by rw [hdi]; exact h.length_nonneg⟩
  have hmem := hin t (FileOk.data_subset _ _ hd)
  exact ⟨hmem, hmem.elim h.grew.notMem_tree (hA t)⟩

end Extends

/-! ### Growth -/

section

variable {inodes : List Sector} {fs₁ : Fs} {di' : InodeDisk} {c t : ℕ} (hwf : WellFormed fs inodes)
  (hs : s ∈ inodes) (hclient : Client fs s) (hc : blocksAt fs.store.sectors s = c) (hct : c ≤ t)
  (hgrown : Grown (touch fs s) fs₁ (inodeAt fs.store.sectors s) di' c t)

include hc hct hgrown

theorem perm_of_grown :
    (indexSectors fs₁.store.sectors di' t ++ dataSectors fs₁.store.sectors di' t).Perm
      ((indexSectors fs.store.sectors (inodeAt fs.store.sectors s) (blocksAt fs.store.sectors s) ++
        dataSectors fs.store.sectors (inodeAt fs.store.sectors s) (blocksAt fs.store.sectors s)) ++
          freshSectors fs₁.store.sectors di' c t) := by
  have hdata : dataSectors fs₁.store.sectors di' c =
      dataSectors fs.store.sectors (inodeAt fs.store.sectors s) c :=
    map_congr_left fun i hi => hgrown.map i (mem_range.mp hi)
  have hperm := perm_freshSectors fs₁.store.sectors di' hct
  rw [hgrown.index, hdata] at hperm
  rw [hc]
  exact hperm

include hwf hs

theorem notMem_of_grown {u : Sector} (hu : u ∈ indexSectors fs₁.store.sectors di' t ++
    dataSectors fs₁.store.sectors di' t) : u ≠ s := by
  rintro rfl
  rcases mem_append.mp ((perm_of_grown hc hct hgrown).mem_iff.mp hu) with hold | hnew
  · exact (nodup_cons.mp (hwf.fileOk hs).nodup).1 hold
  · exact (hgrown.grew.fresh _ hnew).2 (hwf.marked hs mem_cons_self)

theorem put_of_grown (hlen : blockCount di'.length.toInt = t) :
    treeOf (put fs₁ s di'.encode).store.sectors s =
      s :: (indexSectors fs₁.store.sectors di' t ++ dataSectors fs₁.store.sectors di' t) ∧
    ∀ i < t, mapSector (put fs₁ s di'.encode).store.sectors di' i =
      mapSector fs₁.store.sectors di' i := by
  have hindex : ∀ u ∈ indexSectors fs₁.store.sectors di' t,
      (put fs₁ s di'.encode).store.sectors u = fs₁.store.sectors u := fun u hu =>
    put_sectors_of_ne _ _ (notMem_of_grown hwf hs hc hct hgrown (mem_append_left _ hu))
  refine ⟨?_, fun i hi => mapSector_congr hindex hi⟩
  rw [treeOf, blocksAt, inodeAt_put, hlen, indexSectors_congr hindex, dataSectors_congr hindex]

include hclient

theorem extends_of_grown (hlen : blockCount di'.length.toInt = t) (hnonneg : 0 ≤ di'.length.toInt) :
    Extends fs (put fs₁ s di'.encode) s (treeOf fs.store.sectors s)
      (freshSectors fs₁.store.sectors di' c t) := by
  obtain ⟨htree, -⟩ := put_of_grown hwf hs hc hct hgrown hlen
  have hself : s ∈ treeOf fs.store.sectors s := mem_cons_self
  have h0 : Grew { u | u ∈ treeOf fs.store.sectors s } fs (touch fs s) [] :=
    (Grew.refl _ hwf.map).touch (.inr hself)
  have h1 := h0.trans (hgrown.grew.mono fun u (hu : u ∈ indexSectors fs.store.sectors
    (inodeAt fs.store.sectors s) c) => FileOk.index_mem _ s (hc.symm ▸ hu))
  refine ⟨h1.put (.inr hself) (hwf.notMem_mapTree hs hclient hself), ?_,
    by rw [inodeAt_put]; exact hnonneg⟩
  rw [htree]
  exact (perm_of_grown hc hct hgrown).cons s

theorem flat_of_grown (hlen : blockCount di'.length.toInt = t) {p : ℕ} (hp : p < 512 * t) :
    flat (put fs₁ s di'.encode).store.sectors
      (mapSector (put fs₁ s di'.encode).store.sectors di') p = fileBytes fs.store.sectors s p := by
  obtain ⟨-, hmap⟩ := put_of_grown hwf hs hc hct hgrown hlen
  have hi : p / 512 < t := by omega
  have hne := notMem_of_grown hwf hs hc hct hgrown
    (mem_append_right _ (mapSector_mem_dataSectors fs₁.store.sectors di' hi))
  have hput : (put fs₁ s di'.encode).store.sectors
      (mapSector (put fs₁ s di'.encode).store.sectors di' (p / 512)) =
        fs₁.store.sectors (mapSector fs₁.store.sectors di' (p / 512)) := by
    rw [hmap _ hi]
    exact put_sectors_of_ne _ _ hne
  unfold fileBytes
  rw [hc]
  by_cases hold : p < 512 * c
  · have hi' : p / 512 < c := by omega
    have hfile := hwf.fileOk hs
    have hdata : mapSector fs.store.sectors (inodeAt fs.store.sectors s) (p / 512) ∈
        dataSet fs.store.sectors s := mapSector_mem_dataSectors _ _ (hc.symm ▸ hi')
    have htree := FileOk.data_subset _ _ hdata
    rw [if_pos hold]
    refine flat_congr (hput.trans ?_)
    rw [hgrown.map _ hi']
    -- the block was not allocated now, is no index block, and none of the free map's file
    refine hgrown.grew.sectors _ (fun hl => ?_) (fun hw => ?_) fun hd => ?_
    · exact (hgrown.grew.fresh _ hl).2 (hwf.marked hs htree)
    · exact hfile.index_notMem (hc.symm ▸ hw) hdata
    · exact hwf.notMem_mapTree hs hclient htree (mapData_subset _ hd)
  · rw [if_neg hold]
    unfold flat
    rw [hput, hgrown.zero _ (by omega) hi]
    rfl

end

/-! ### Writes -/

/-- The sectors that a file of `c` blocks needs to have `t`. -/
def sectorsNeeded (c t : ℕ) : ℕ := (t - c) + (indexCount t - indexCount c)

/-- `n` sectors can be allocated: they are free, and the free map can be written. -/
def Affords (fs : Fs) (n : ℕ) : Prop := n ≤ freeCount fs ∧ (0 < n → MapSmall fs)

/-- The loop and the last write of the inode, after the inode was extended. -/
theorem writeLoop_of_extends {inode : Inode} {f : ℕ → UInt8} {size off : ℕ} {fs2 : Fs} {b : Block}
    (hmax : off + size ≤ 252 * 512) (hext : Extends fs fs2 inode.sector A L)
    (hA : ∀ t ∈ A, t ∉ mapTree fs) (hfile : FileOk fs2 inode.sector)
    (hb : b = fs2.store.sectors inode.sector)
    (hlen : ((off + size : ℕ) : ℤ) ≤ (inodeAt fs2.store.sectors inode.sector).length.toInt) :
    Ensures diskHandler (do
        let written ← writeLoop inode (.bytes f) size size off (0 : ℕ)
        cacheWrite inode.sector b
        pure written) fs2 (fun r fs' =>
      r = size ∧ Extends fs fs' inode.sector A L ∧
      inodeAt fs'.store.sectors inode.sector = inodeAt fs2.store.sectors inode.sector ∧
      fileBytes fs'.store.sectors inode.sector =
        overwrite (fileBytes fs2.store.sectors inode.sector) off size f) := by
  rw [ensures_bind]
  refine (writeLoop_spec inode (.bytes f) size fs2 size off 0 hfile le_rfl hmax hlen).mono ?_
  rintro r fs3 ⟨hr, ht, hflat⟩
  have hsame : b = fs3.store.sectors inode.sector := by
    rw [hb, ht.sectors _ hfile.sector_notMem]
  rw [ensures_bind, ensures_cacheWrite (by rw [ht.size]; exact hfile.sector_lt), ensures_ret]
  have ht' := ht.put (.inr hsame) (mem_cons_self : _ ∈ treeOf fs2.store.sectors inode.sector)
  refine ⟨by rw [hr, Nat.zero_add], hext.write hA hfile ht', (hfile.keeps ht').inode,
    fileBytes_of_write hfile ht' hlen fun p hp => ?_⟩
  rw [put_store_of_eq hsame, hflat p hp]
  simp only [Nat.zero_add, Buffer.value]

section

variable {inodes : List Sector} {inode : Inode} {f : ℕ → UInt8} {size off : ℕ}
  (hwf : WellFormed fs inodes) (hs : inode.sector ∈ inodes) (hclient : Client fs inode.sector)
  (hdeny : inode.denyWriteCnt = 0) (hmax : off + size ≤ 252 * 512)

include hwf hs hclient hdeny hmax

theorem inodeWriteAt_within
    (hlen : ((off + size : ℕ) : ℤ) ≤ (inodeAt fs.store.sectors inode.sector).length.toInt) :
    Ensures diskHandler (inodeWriteAt alloc inode (.bytes f) size off) fs (fun r fs' =>
      r = size ∧ (∃ L, Extends fs fs' inode.sector (treeOf fs.store.sectors inode.sector) L) ∧
      inodeAt fs'.store.sectors inode.sector = inodeAt fs.store.sectors inode.sector ∧
      fileBytes fs'.store.sectors inode.sector =
        overwrite (fileBytes fs.store.sectors inode.sector) off size f) := by
  have hfile := hwf.fileOk hs
  refine (inodeWriteAt_inside alloc (.bytes f) hfile hdeny hlen hmax).mono ?_
  rintro r fs' ⟨hr, ht, hbytes⟩
  exact ⟨hr, ⟨[], (Extends.refl hwf hs).write (fun t hm => hwf.notMem_mapTree hs hclient hm) hfile ht⟩,
    (hfile.keeps ht).inode, hbytes⟩

section

variable (halloc : Allocates alloc)
  (hlen : (inodeAt fs.store.sectors inode.sector).length.toInt < ((off + size : ℕ) : ℤ))
  (hafford : Affords fs (sectorsNeeded (blocksAt fs.store.sectors inode.sector)
    (blockCount (off + size : ℕ))))
include halloc hlen hafford

omit hdeny in
/-- `add_inode` for a write beyond the end of the file: it changes the length only, or it
allocates as well. -/
theorem addInode_beyond : blocksAt fs.store.sectors inode.sector ≤ blockCount (off + size : ℕ) ∧
    Ensures diskHandler (addInode alloc (inodeAt fs.store.sectors inode.sector) (off + size : ℕ))
      (touch fs inode.sector) (fun di' fs' => di'.length.toInt = (off + size : ℕ) ∧
        Grown (touch fs inode.sector) fs' (inodeAt fs.store.sectors inode.sector) di'
          (blocksAt fs.store.sectors inode.sector) (blockCount (off + size : ℕ))) := by
  have hok := hwf.inodeOk hs hclient
  have hnew : (Int32.ofInt (off + size : ℕ)).toInt = (off + size : ℕ) :=
    Int32.toInt_ofInt_of_le (by omega) (by omega)
  have hcnt : sectorCount (inodeAt fs.store.sectors inode.sector).length.toInt =
      blocksAt fs.store.sectors inode.sector := sectorCount_eq_blockCount hok.length_nonneg
  have ht : sectorCount (off + size : ℕ) = blockCount (off + size : ℕ) :=
    sectorCount_eq_blockCount (by omega)
  have hct := sectorCount_le hok.length_nonneg hlen.le
  have h0 : Grew {inode.sector} fs (touch fs inode.sector) [] :=
    (Grew.refl _ hwf.map).touch (.inr rfl)
  refine ⟨by omega, Ensures.mono (Q := fun di' fs' => di'.length = Int32.ofInt (off + size : ℕ) ∧
    Grown (touch fs inode.sector) fs' (inodeAt fs.store.sectors inode.sector) di'
      (blocksAt fs.store.sectors inode.sector) (blockCount (off + size : ℕ))) ?_
    fun di' _ h => ⟨by rw [h.1, hnew], h.2⟩⟩
  by_cases hsame : blocksAt fs.store.sectors inode.sector = blockCount (off + size : ℕ)
  · rw [← hsame]
    exact addInode_same h0.ok' hlen (by rw [ht, hcnt, hsame]) _
  · exact addInode_small halloc h0.ok' (h0.small (hafford.2 (by unfold sectorsNeeded; omega)))
      ⟨hok.length_nonneg, hok.nodup, hok.sectors⟩ rfl ht (by omega)
      (by rw [blockCount_natCast]; omega) hafford.1

theorem inodeWriteAt_beyond :
    Ensures diskHandler (inodeWriteAt alloc inode (.bytes f) size off) fs (fun r fs' =>
      r = size ∧ (∃ L, Extends fs fs' inode.sector (treeOf fs.store.sectors inode.sector) L) ∧
      (inodeAt fs'.store.sectors inode.sector).length.toInt = (off + size : ℕ) ∧
      fileBytes fs'.store.sectors inode.sector =
        overwrite (fileBytes fs.store.sectors inode.sector) off size f) := by
  have hfile := hwf.fileOk hs
  have htree : ∀ t ∈ treeOf fs.store.sectors inode.sector, t ∉ mapTree fs :=
    fun t ht => hwf.notMem_mapTree hs hclient ht
  obtain ⟨hct, hadd⟩ := addInode_beyond hwf hs hclient hmax halloc hlen hafford
  rw [inodeWriteAt, if_neg (not_not.mpr hdeny), ensures_bind, ensures_cacheRead hfile.sector_lt,
    wrap_add (by omega), ensures_bind]
  refine hadd.mono ?_
  rintro di' fs₁ ⟨hlen', hgrown⟩
  have hblocks : blockCount di'.length.toInt = blockCount (off + size : ℕ) := by rw [hlen']
  have hext := extends_of_grown hwf hs hclient rfl hct hgrown hblocks (by omega)
  have hbytes : fileBytes (put fs₁ inode.sector di'.encode).store.sectors inode.sector =
      fileBytes fs.store.sectors inode.sector := by
    funext p
    rw [fileBytes, blocksAt, inodeAt_put, hblocks]
    by_cases hp : p < 512 * blockCount (off + size : ℕ)
    · rw [if_pos hp, flat_of_grown hwf hs hclient rfl hct hgrown hblocks hp]
    · rw [if_neg hp, fileBytes, if_neg (by omega)]
  obtain ⟨hrest, hout⟩ := hwf.erase hs hclient
  have hfile2 := (hext.wellFormed hrest hout hfile.nodup fun t ht =>
    ⟨hfile.valid t ht, hwf.marked hs ht⟩).fileOk mem_cons_self
  rw [ensures_bind, ensures_cacheWrite (by rw [hgrown.grew.size]; exact hfile.sector_lt)]
  refine (writeLoop_of_extends hmax hext htree hfile2 (put_sectors_self ..).symm
    (by rw [inodeAt_put, hlen'])).mono ?_
  rintro r fs' ⟨hr, hext', hinode', hbytes'⟩
  exact ⟨hr, ⟨_, hext'⟩, by rw [hinode', inodeAt_put, hlen'], by rw [hbytes', hbytes]⟩

end

/-- **`inode_write_at`** in the first 252 blocks returns `size`, and overwrites an interval of the
file, which it makes longer if need be. -/
theorem inodeWriteAt_spec (halloc : Allocates alloc)
    (hafford : Affords fs (sectorsNeeded (blocksAt fs.store.sectors inode.sector)
      (blockCount (off + size : ℕ)))) :
    Ensures diskHandler (inodeWriteAt alloc inode (.bytes f) size off) fs (fun r fs' =>
      r = size ∧ (∃ L, Extends fs fs' inode.sector (treeOf fs.store.sectors inode.sector) L) ∧
      (inodeAt fs'.store.sectors inode.sector).length.toInt =
        max (inodeAt fs.store.sectors inode.sector).length.toInt (off + size : ℕ) ∧
      fileBytes fs'.store.sectors inode.sector =
        overwrite (fileBytes fs.store.sectors inode.sector) off size f) := by
  by_cases hlen : ((off + size : ℕ) : ℤ) ≤ (inodeAt fs.store.sectors inode.sector).length.toInt
  · refine (inodeWriteAt_within hwf hs hclient hdeny hmax hlen).mono ?_
    rintro r fs' ⟨hr, hext, hinode, hbytes⟩
    exact ⟨hr, hext, by rw [hinode, max_eq_left hlen], hbytes⟩
  · refine (inodeWriteAt_beyond hwf hs hclient hdeny hmax halloc (not_le.mp hlen) hafford).mono ?_
    rintro r fs' ⟨hr, hext, hlen', hbytes⟩
    exact ⟨hr, hext, by rw [hlen', max_eq_right (not_le.mp hlen).le], hbytes⟩

end

end Pintos.Fs

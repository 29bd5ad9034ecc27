import Pintos.FileWrite

/-! # The free map and its file

The free map has a bit for every sector (`Marked`), and is kept in a file which
`free_map_allocate` and `free_map_release` rewrite as a whole.  If that file is well formed
and its sectors are marked (`MapOk`), and the map fits into its first 252 blocks
(`MapSmall`), then `free_map_allocate` marks a free sector and changes no sector but those of
the free map's file, or there is no free sector (`freeMapAllocate_spec`).  A larger map cannot
be written (`not_ensures_freeMapAllocate`).

* `Grew W fs fs' L`: between the two states exactly the sectors `L` were allocated; only they,
  the sectors `W` and the free map's file may have been written.  It composes (`Grew.trans`),
  and is all that creation and growth of files need to know about the free map.
* `freeCount`: the number of free sectors, which decreases accordingly (`Grew.freeCount_add`). -/

namespace Pintos.Fs

open Interaction List Paging UInt32

/-! ### Marked sectors and the free map's file -/

/-- Sector `s` is marked in the free map. -/
def Marked (fs : Fs) (s : Sector) : Prop := fs.freeMap.get s.toNat = true

instance (fs : Fs) (s : Sector) : Decidable (Marked fs s) :=
  inferInstanceAs (Decidable (_ = _))

/-- The number of free sectors. -/
def freeCount (fs : Fs) : ℕ :=
  ((Finset.range fs.store.size.toNat).filter (fun i => fs.freeMap.get i = false)).card

/-- `file` is a well-formed file with room for the free map, in marked sectors. -/
structure MapFile (fs : Fs) (file : Inode) : Prop where
  deny : file.denyWriteCnt = 0
  ok : FileOk fs file.sector
  length_ge : (byteCnt fs.freeMap.bitCnt : ℤ) ≤
    (inodeAt fs.store.sectors file.sector).length.toInt
  marked : ∀ t ∈ treeOf fs.store.sectors file.sector, Marked fs t

/-- The free map covers the device, and its file is well formed if it is open. -/
structure MapOk (fs : Fs) : Prop where
  bitCnt_eq : fs.freeMap.bitCnt = fs.store.size.toNat
  file : ∀ file, fs.freeMapFile = some file → MapFile fs file

/-- The free map does not reach the doubly indirect blocks of its file. -/
def MapSmall (fs : Fs) : Prop :=
  ∀ file, fs.freeMapFile = some file → byteCnt fs.freeMap.bitCnt ≤ 252 * 512

/-- The free map's file holds the free map. -/
def MapSynced (fs : Fs) : Prop :=
  ∀ file, fs.freeMapFile = some file → ∀ p < byteCnt fs.freeMap.bitCnt,
    fileBytes fs.store.sectors file.sector p = fs.freeMap.fileBytes p

/-- The sectors of the free map's file, and those of its blocks. -/
def mapTree (fs : Fs) : Set Sector :=
  { t | ∃ file, fs.freeMapFile = some file ∧ t ∈ treeSet fs.store.sectors file.sector }

def mapData (fs : Fs) : Set Sector :=
  { t | ∃ file, fs.freeMapFile = some file ∧ t ∈ dataSet fs.store.sectors file.sector }

section

variable {fs fs' : Fs}

theorem mapData_subset (fs : Fs) : mapData fs ⊆ mapTree fs :=
  fun _ ⟨file, hfile, ht⟩ => ⟨file, hfile, FileOk.data_subset _ _ ht⟩

theorem MapOk.marked (h : MapOk fs) {t : Sector} (ht : t ∈ mapTree fs) : Marked fs t := by
  obtain ⟨file, hfile, ht⟩ := ht
  exact (h.file file hfile).marked t ht

/-- The free map's file stays as it is while only its data sectors are written and its
sectors are marked. -/
theorem MapOk.congr (h : MapOk fs) (hsize : fs'.store.size = fs.store.size)
    (hfile : fs'.freeMapFile = fs.freeMapFile) (hcnt : fs'.freeMap.bitCnt = fs.freeMap.bitCnt)
    (hsec : ∀ t ∈ mapTree fs, t ∉ mapData fs → fs'.store.sectors t = fs.store.sectors t)
    (hmark : ∀ t ∈ mapTree fs, Marked fs' t) :
    MapOk fs' ∧ mapTree fs' = mapTree fs ∧ mapData fs' = mapData fs := by
  have key : ∀ file, fs.freeMapFile = some file →
      inodeAt fs'.store.sectors file.sector = inodeAt fs.store.sectors file.sector ∧
      treeOf fs'.store.sectors file.sector = treeOf fs.store.sectors file.sector ∧
      dataSet fs'.store.sectors file.sector = dataSet fs.store.sectors file.sector ∧
      FileOk fs' file.sector := by
    intro file hf
    obtain ⟨hdi, -, htree, hdata, -, hok⟩ := (h.file file hf).ok.congr hsize (fun t ht hd => by
      refine hsec t ⟨file, hf, ht⟩ ?_
      rintro ⟨file', hf', hd'⟩
      obtain rfl : file = file' := Option.some.inj (hf.symm.trans hf')
      exact hd hd')
    exact ⟨hdi, htree, hdata, hok⟩
  refine ⟨⟨by rw [hcnt, hsize]; exact h.bitCnt_eq, fun file hf => ?_⟩, Set.ext fun t => ?_,
    Set.ext fun t => ?_⟩
  · rw [hfile] at hf
    obtain ⟨hdi, htree, -, hok⟩ := key file hf
    refine ⟨(h.file file hf).deny, hok, ?_, fun t ht => ?_⟩
    · rw [hcnt, hdi]; exact (h.file file hf).length_ge
    · rw [htree] at ht
      exact hmark t ⟨file, hf, ht⟩
  · unfold mapTree treeSet
    rw [hfile]
    refine exists_congr fun file => and_congr_right fun hf => ?_
    rw [(key file hf).2.1]
  · unfold mapData
    rw [hfile]
    refine exists_congr fun file => and_congr_right fun hf => ?_
    rw [(key file hf).2.2.1]

theorem freeCount_pos_iff (h : MapOk fs) :
    0 < freeCount fs ↔ ∃ i < fs.freeMap.bitCnt, fs.freeMap.get i = false := by
  unfold freeCount
  rw [Finset.card_pos, h.bitCnt_eq]
  constructor
  · rintro ⟨i, hi⟩
    obtain ⟨hlt, hget⟩ := Finset.mem_filter.mp hi
    exact ⟨i, Finset.mem_range.mp hlt, hget⟩
  · rintro ⟨i, hi, hget⟩
    exact ⟨i, Finset.mem_filter.mpr ⟨Finset.mem_range.mpr hi, hget⟩⟩

theorem length_le_freeCount {L : List Sector} (hnodup : L.Nodup)
    (h : ∀ s ∈ L, s < fs.store.size ∧ ¬ Marked fs s) : L.length ≤ freeCount fs := by
  have hinj : Function.Injective UInt32.toNat := fun _ _ => UInt32.toNat_inj.mp
  rw [← length_map (f := UInt32.toNat), ← toFinset_card_of_nodup (hnodup.map hinj),
    freeCount]
  refine Finset.card_le_card fun i hi => ?_
  obtain ⟨s, hs, rfl⟩ := mem_map.mp (mem_toFinset.mp hi)
  obtain ⟨hlt, hfree⟩ := h s hs
  refine Finset.mem_filter.mpr ⟨Finset.mem_range.mpr (lt_iff_toNat_lt.mp hlt), ?_⟩
  rwa [Marked, Bool.not_eq_true] at hfree

end

/-! ### Well-formed file systems -/

/-- `inodes` are the sectors of the inodes of the file system: they, their index blocks and
their data sectors are all different, on the device and marked. -/
structure WellFormed (fs : Fs) (inodes : List Sector) : Prop where
  map : MapOk fs
  map_mem : ∀ file, fs.freeMapFile = some file → file.sector ∈ inodes
  length_nonneg : ∀ s ∈ inodes, 0 ≤ (inodeAt fs.store.sectors s).length.toInt
  nodup : (inodes.flatMap (treeOf fs.store.sectors)).Nodup
  sectors : ∀ t ∈ inodes.flatMap (treeOf fs.store.sectors), t < fs.store.size ∧ Marked fs t

namespace WellFormed

variable {fs : Fs} {inodes : List Sector} {s s' t : Sector}

theorem mem_sectors (hs : s ∈ inodes) (ht : t ∈ treeSet fs.store.sectors s) :
    t ∈ inodes.flatMap (treeOf fs.store.sectors) :=
  mem_flatMap.mpr ⟨s, hs, ht⟩

theorem fileOk (h : WellFormed fs inodes) (hs : s ∈ inodes) : FileOk fs s :=
  ⟨h.length_nonneg s hs, (nodup_flatMap.mp h.nodup).1 s hs,
    fun t ht => (h.sectors t (mem_sectors hs ht)).1⟩

theorem marked (h : WellFormed fs inodes) (hs : s ∈ inodes) (ht : t ∈ treeSet fs.store.sectors s) :
    Marked fs t := (h.sectors t (mem_sectors hs ht)).2

theorem disjoint (h : WellFormed fs inodes) (hs : s ∈ inodes) (hs' : s' ∈ inodes) (hne : s ≠ s')
    (ht : t ∈ treeSet fs.store.sectors s) : t ∉ treeSet fs.store.sectors s' := by
  have hsymm : Std.Symm (Function.onFun List.Disjoint (treeOf fs.store.sectors)) :=
    ⟨fun _ _ hd => List.Disjoint.symm hd⟩
  exact (nodup_flatMap.mp h.nodup).2.forall hs hs' hne ht

/-- If the free map's inode is one of the inodes, its file is well formed as they are. -/
theorem intro (hcnt : fs.freeMap.bitCnt = fs.store.size.toNat)
    (hmap : ∀ file, fs.freeMapFile = some file → file.sector ∈ inodes ∧ file.denyWriteCnt = 0 ∧
      (byteCnt fs.freeMap.bitCnt : ℤ) ≤ (inodeAt fs.store.sectors file.sector).length.toInt)
    (hlens : inodes.all (fun s => decide (0 ≤ (inodeAt fs.store.sectors s).length.toInt)) = true)
    (hnodup : (inodes.flatMap (treeOf fs.store.sectors)).Nodup)
    (hall : (inodes.flatMap (treeOf fs.store.sectors)).all
      (fun t => decide (t < fs.store.size ∧ Marked fs t)) = true) :
    WellFormed fs inodes := by
  have hlen s hs := of_decide_eq_true (all_eq_true.mp hlens s hs)
  have hsec t ht := of_decide_eq_true (all_eq_true.mp hall t ht)
  refine ⟨⟨hcnt, fun file hfile => ?_⟩, fun file hfile => (hmap file hfile).1, hlen, hnodup, hsec⟩
  obtain ⟨hmem, hdeny, hlen'⟩ := hmap file hfile
  exact ⟨hdeny, ⟨hlen _ hmem, (nodup_flatMap.mp hnodup).1 _ hmem,
    fun t ht => (hsec t (mem_sectors hmem ht)).1⟩, hlen', fun t ht => (hsec t (mem_sectors hmem ht)).2⟩

theorem notMem_mapTree (h : WellFormed fs inodes) (hs : s ∈ inodes)
    (hne : ∀ file, fs.freeMapFile = some file → file.sector ≠ s)
    (ht : t ∈ treeSet fs.store.sectors s) : t ∉ mapTree fs := by
  rintro ⟨file, hfile, hmap⟩
  exact h.disjoint hs (h.map_mem file hfile) (hne file hfile).symm ht hmap

end WellFormed

/-! ### Allocations -/

/-- Between `fs` and `fs'` the sectors `L` were allocated; apart from them, from `W` and from
the free map's file no sector was accessed. -/
structure Grew (W : Set Sector) (fs fs' : Fs) (L : List Sector) : Prop where
  ok : MapOk fs
  ok' : MapOk fs'
  size : fs'.store.size = fs.store.size
  file : fs'.freeMapFile = fs.freeMapFile
  tree : mapTree fs' = mapTree fs
  data : mapData fs' = mapData fs
  nodup : L.Nodup
  fresh : ∀ s ∈ L, s < fs.store.size ∧ ¬ Marked fs s
  marked : ∀ s, Marked fs' s ↔ Marked fs s ∨ s ∈ L
  sectors : ∀ t, t ∉ L → t ∉ W → t ∉ mapData fs → fs'.store.sectors t = fs.store.sectors t
  log : ∃ xs : List Sector, (∀ t ∈ xs, t ∈ L ∨ t ∈ W ∨ t ∈ mapTree fs) ∧
    fs'.accesses = xs ++ fs.accesses

namespace Grew

variable {W : Set Sector} {fs fs' fs'' : Fs} {L L' : List Sector}

theorem refl (W : Set Sector) (h : MapOk fs) : Grew W fs fs [] :=
  ⟨h, h, rfl, rfl, rfl, rfl, nodup_nil, by simp, by simp, fun _ _ _ _ => rfl, [], by simp, rfl⟩

theorem bitCnt_eq (h : Grew W fs fs' L) : fs'.freeMap.bitCnt = fs.freeMap.bitCnt := by
  rw [h.ok'.bitCnt_eq, h.size, h.ok.bitCnt_eq]

theorem small_iff (h : Grew W fs fs' L) : MapSmall fs' ↔ MapSmall fs := by
  unfold MapSmall
  rw [h.file, h.bitCnt_eq]

theorem small (h : Grew W fs fs' L) (hs : MapSmall fs) : MapSmall fs' := h.small_iff.mpr hs

variable {s : Sector} {W' : Set Sector}

theorem notMem_tree (h : Grew W fs fs' L) (hs : s ∈ L) : s ∉ mapTree fs :=
  fun ht => (h.fresh s hs).2 (h.ok.marked ht)

theorem trans (h : Grew W fs fs' L) (h' : Grew W fs' fs'' L') : Grew W fs fs'' (L ++ L') := by
  obtain ⟨xs, hxs, hlog⟩ := h.log
  obtain ⟨ys, hys, hlog'⟩ := h'.log
  refine ⟨h.ok, h'.ok', h'.size.trans h.size, h'.file.trans h.file, h'.tree.trans h.tree,
    h'.data.trans h.data, ?_, fun s hs => ?_, fun s => ?_, fun t ht hw hd => ?_, ys ++ xs,
    fun t ht => ?_, by rw [hlog', hlog, append_assoc]⟩
  · refine nodup_append.mpr ⟨h.nodup, h'.nodup, fun a ha b hb hab => ?_⟩
    subst hab
    exact (h'.fresh a hb).2 ((h.marked a).mpr (.inr ha))
  · rcases mem_append.mp hs with hs | hs
    · exact h.fresh s hs
    · obtain ⟨hlt, hfree⟩ := h'.fresh s hs
      exact ⟨h.size ▸ hlt, fun hm => hfree ((h.marked s).mpr (.inl hm))⟩
  · rw [h'.marked, h.marked, mem_append, or_assoc]
  · have ht' := not_or.mp (mt mem_append.mpr ht)
    rw [h'.sectors t ht'.2 hw (by rw [h.data]; exact hd), h.sectors t ht'.1 hw hd]
  · rcases mem_append.mp ht with ht | ht
    · rcases hys t ht with hl | hw | hm
      · exact .inl (mem_append_right _ hl)
      · exact .inr (.inl hw)
      · exact .inr (.inr (h.tree ▸ hm))
    · rcases hxs t ht with hl | hr
      · exact .inl (mem_append_left _ hl)
      · exact .inr hr

theorem mono (h : Grew W fs fs' L) (hW : W ⊆ W') : Grew W' fs fs' L := by
  obtain ⟨xs, hxs, hlog⟩ := h.log
  exact ⟨h.ok, h.ok', h.size, h.file, h.tree, h.data, h.nodup, h.fresh, h.marked,
    fun t ht hw hd => h.sectors t ht (fun hw' => hw (hW hw')) hd, xs,
    fun t ht => (hxs t ht).imp_right (Or.imp_left fun hw => hW hw), hlog⟩

theorem perm (h : Grew W fs fs' L) (hp : L.Perm L') : Grew W fs fs' L' := by
  obtain ⟨xs, hxs, hlog⟩ := h.log
  exact ⟨h.ok, h.ok', h.size, h.file, h.tree, h.data, hp.nodup_iff.mp h.nodup,
    fun s hs => h.fresh s (hp.mem_iff.mpr hs), fun s => by rw [h.marked, hp.mem_iff],
    fun t ht => h.sectors t (fun hl => ht (hp.mem_iff.mp hl)), xs,
    fun t ht => (hxs t ht).imp_left fun hl => hp.mem_iff.mp hl, hlog⟩

/-- A step that leaves the free map alone and writes no sector but those of `L`, of `W` and
the data of the free map's file. -/
theorem step (h : Grew W fs fs' L) (hsize : fs''.store.size = fs'.store.size)
    (hmap : fs''.freeMap = fs'.freeMap) (hfile : fs''.freeMapFile = fs'.freeMapFile)
    (hsec : ∀ t, t ∉ mapData fs → t ∈ mapTree fs ∨ (t ∉ L ∧ t ∉ W) →
      fs''.store.sectors t = fs'.store.sectors t)
    (hlog : ∃ xs : List Sector, (∀ t ∈ xs, t ∈ L ∨ t ∈ W ∨ t ∈ mapTree fs) ∧
      fs''.accesses = xs ++ fs'.accesses) :
    Grew W fs fs'' L := by
  have hmark : ∀ s, Marked fs'' s ↔ Marked fs' s := fun s => by rw [Marked, hmap, Marked]
  obtain ⟨hok, htree, hdata⟩ := h.ok'.congr hsize hfile (by rw [hmap])
    (fun t ht hd => hsec t (h.data ▸ hd) (.inl (h.tree ▸ ht)))
    (fun t ht => (hmark t).mpr (h.ok'.marked ht))
  obtain ⟨xs, hxs, hlog'⟩ := h.log
  obtain ⟨ys, hys, hlog''⟩ := hlog
  refine ⟨h.ok, hok, hsize.trans h.size, hfile.trans h.file, htree.trans h.tree,
    hdata.trans h.data, h.nodup, h.fresh, fun s => by rw [hmark, h.marked], fun t hl hw hd => ?_,
    ys ++ xs, fun t ht => (mem_append.mp ht).elim (hys t) (hxs t),
    by rw [hlog'', hlog', append_assoc]⟩
  rw [hsec t hd (.inr ⟨hl, hw⟩), h.sectors t hl hw hd]

theorem put {b : Block} (h : Grew W fs fs' L) (hs : s ∈ L ∨ s ∈ W)
    (htree : s ∉ mapTree fs) : Grew W fs (put fs' s b) L := by
  refine h.step rfl rfl rfl (fun t _ ht => ?_)
    ⟨[s], fun t ht => by rw [mem_singleton.mp ht]; exact hs.imp_right .inl, rfl⟩
  have hne : t ≠ s := by
    rintro rfl
    exact ht.elim htree fun hout => hs.elim hout.1 hout.2
  exact put_sectors_of_ne _ _ hne

theorem touch (h : Grew W fs fs' L) (hs : s ∈ L ∨ s ∈ W) :
    Grew W fs (touch fs' s) L :=
  h.step rfl rfl rfl (fun _ _ _ => rfl)
    ⟨[s], fun t ht => by rw [mem_singleton.mp ht]; exact hs.imp_right .inl, rfl⟩

theorem pop (h : Grew W fs fs' L) (stack : ℕ → Words) : Grew W fs { fs' with stack := stack } L :=
  h.step rfl rfl rfl (fun _ _ _ => rfl) ⟨[], by simp, rfl⟩

/-- The free map's file is written after an allocation. -/
theorem write_map (h : Grew W fs fs' L) (ht : Touches (mapData fs') (mapTree fs') fs' fs'') :
    Grew W fs fs'' L := by
  obtain ⟨xs, hxs, hlog⟩ := ht.log
  exact h.step ht.size ht.freeMap_eq ht.freeMapFile_eq
    (fun t hd _ => ht.sectors t (by rw [h.data]; exact hd))
    ⟨xs, fun t hm => .inr (.inr (h.tree ▸ hxs t hm)), hlog⟩

theorem keeps (h : Grew W fs fs' L) (h' : Grew W' fs' fs'' L')
    (hs : s ∈ L) (hW : s ∉ W') : fs''.store.sectors s = fs'.store.sectors s := by
  refine h'.sectors s (fun hl => (h'.fresh s hl).2 ((h.marked s).mpr (.inr hs))) hW fun hd => ?_
  exact h.notMem_tree hs (h.tree ▸ mapData_subset _ hd)

/-- **Free sectors** are used up one by one. -/
theorem freeCount_add (h : Grew W fs fs' L) : freeCount fs' + L.length = freeCount fs := by
  have hinj : ∀ s ∈ L, ∀ t ∈ L, s.toNat = t.toNat → s = t := fun s _ t _ => UInt32.toNat_inj.mp
  have hcard : (L.map UInt32.toNat).toFinset.card = L.length := by
    rw [toFinset_card_of_nodup ((nodup_map_iff_inj_on h.nodup).mpr hinj), length_map]
  have hmem : ∀ i, i < fs.store.size.toNat → (i ∈ (L.map toNat).toFinset ↔
      ofNat i ∈ L) := by
    intro i hi
    have hround : (ofNat i).toNat = i :=
      toNat_ofNat_of_lt' (lt_trans hi fs.store.size.toNat_lt)
    rw [mem_toFinset, mem_map]
    constructor
    · rintro ⟨s, hs, rfl⟩
      rwa [UInt32.ofNat_toNat]
    · exact fun hs => ⟨_, hs, hround⟩
  rw [← hcard, freeCount, freeCount, h.size, ← Finset.card_union_of_disjoint]
  · congr 1
    ext i
    simp only [Finset.mem_union, Finset.mem_filter, Finset.mem_range]
    by_cases hi : i < fs.store.size.toNat
    · have hround : (ofNat i).toNat = i :=
        toNat_ofNat_of_lt' (lt_trans hi fs.store.size.toNat_lt)
      have hmark := h.marked (ofNat i)
      have hfresh := h.fresh (ofNat i)
      simp only [Marked, hround] at hmark hfresh
      cases hg : fs.freeMap.get i <;> cases hg' : fs'.freeMap.get i <;> simp_all
    · refine iff_of_false ?_ (fun hc => hi hc.1)
      rintro (hc | hc)
      · exact hi hc.1
      · obtain ⟨s, hs, rfl⟩ := mem_map.mp (mem_toFinset.mp hc)
        exact hi (h.fresh s hs).1
  · rw [Finset.disjoint_left]
    intro i hi hL
    obtain ⟨hlt, hget⟩ := Finset.mem_filter.mp hi
    obtain ⟨s, hs, rfl⟩ := mem_map.mp (mem_toFinset.mp hL)
    have hm : Marked fs' s := (h.marked s).mpr (.inr hs)
    rw [Marked, hget] at hm
    cases hm

end Grew

/-! ### Writing the free map to its file -/

/-- The free map fits into its file, as far as that can be written. -/
structure MapStored (fs : Fs) (file : Inode) : Prop where
  deny : file.denyWriteCnt = 0
  ok : FileOk fs file.sector
  length_ge : (byteCnt fs.freeMap.bitCnt : ℤ) ≤
    (inodeAt fs.store.sectors file.sector).length.toInt
  small : byteCnt fs.freeMap.bitCnt ≤ 252 * 512

variable {file : Inode}

/-- **`bitmap_write`** of the free map writes it to the data of its file. -/
theorem bitmapWrite_stored (alloc : Prog fsSig (Option Sector)) {fs : Fs}
    (hmap : MapStored fs file) (hfile : fs.freeMapFile = some file) :
    Ensures diskHandler (bitmapWrite alloc fs.freeMap.bitCnt file) fs (fun r fs' =>
      r = true ∧ Touches (mapData fs) (mapTree fs) fs fs' ∧ MapSynced fs') := by
  have hlen := hmap.length_ge
  have hmax := hmap.small
  rw [← Nat.zero_add (byteCnt _)] at hlen hmax
  rw [bitmapWrite, ensures_bind]
  refine (inodeWriteAt_inside alloc .freeMapBits hmap.ok hmap.deny hlen hmax).mono ?_
  rintro r fs' ⟨rfl, ht, hbytes⟩
  rw [ensures_ret]
  refine ⟨by simp, ht.mono (fun t hd => ⟨file, hfile, hd⟩) (fun t hd => ⟨file, hfile, hd⟩),
    fun file' hfile' p hp => ?_⟩
  rw [ht.freeMapFile_eq, hfile, Option.some.injEq] at hfile'
  rw [ht.freeMap_eq] at hp ⊢
  rw [← hfile', hbytes, overwrite, if_pos (by omega)]
  rfl

theorem bitmapWrite_spec (alloc : Prog fsSig (Option Sector)) {fs : Fs} (hok : MapOk fs)
    (hsmall : MapSmall fs) (hfile : fs.freeMapFile = some file) :
    Ensures diskHandler (bitmapWrite alloc fs.freeMap.bitCnt file) fs (fun r fs' =>
      r = true ∧ Touches (mapData fs) (mapTree fs) fs fs' ∧ MapSynced fs') := by
  have hmap := hok.file file hfile
  exact bitmapWrite_stored alloc ⟨hmap.deny, hmap.ok, hmap.length_ge, hsmall file hfile⟩ hfile

theorem not_ensures_bitmapWrite (alloc : Prog fsSig (Option Sector)) {fs : Fs}
    (hmap : MapFile fs file) (hbig : 252 * 512 < byteCnt fs.freeMap.bitCnt) {Q : Bool → Fs → Prop} :
    ¬ Ensures diskHandler (bitmapWrite alloc fs.freeMap.bitCnt file) fs Q := by
  have hlen := hmap.length_ge
  rw [← Nat.zero_add (byteCnt _)] at hlen hbig
  rw [bitmapWrite, ensures_bind]
  exact not_ensures_inodeWriteAt alloc .freeMapBits hmap.ok hmap.deny hlen (Nat.zero_le _) hbig

/-! ### `free_map_allocate` -/

/-- A program that allocates a sector as long as there are free ones. -/
def Allocates (alloc : Prog fsSig (Option Sector)) : Prop :=
  ∀ fs, MapOk fs → MapSmall fs → 0 < freeCount fs →
    Ensures diskHandler alloc fs (fun r fs' => ∃ s, r = some s ∧ Grew ∅ fs fs' [s])

/-- A program that faults when the free map does not fit into the blocks of its file that can
be written. -/
def Overflows (alloc : Prog fsSig (Option Sector)) : Prop :=
  ∀ fs, MapOk fs → ¬ MapSmall fs → 0 < freeCount fs → ∀ Q, ¬ Ensures diskHandler alloc fs Q

section

variable {fs : Fs} {i : ℕ} {b : Bitmap}

theorem grew_mark (hok : MapOk fs) (hi : i < fs.freeMap.bitCnt) (hfree : fs.freeMap.get i = false)
    (hcnt : b.bitCnt = fs.freeMap.bitCnt)
    (hget : ∀ j, b.get j = if j = i then true else fs.freeMap.get j) :
    Grew ∅ fs { fs with freeMap := b } [ofNat i] := by
  have hlt : i < fs.store.size.toNat := hok.bitCnt_eq ▸ hi
  have hround : (ofNat i).toNat = i :=
    toNat_ofNat_of_lt' (lt_trans hlt fs.store.size.toNat_lt)
  have hmark : ∀ s, Marked { fs with freeMap := b } s ↔ Marked fs s ∨ s ∈ [ofNat i] := by
    intro s
    have hs : s.toNat = i ↔ s = UInt32.ofNat i := by
      rw [← UInt32.toNat_inj, hround]
    simp only [Marked, hget, mem_singleton, ← hs]
    by_cases h : s.toNat = i
    · simp [h]
    · simp [h]
  obtain ⟨hok', htree, hdata⟩ : MapOk { fs with freeMap := b } ∧
      mapTree { fs with freeMap := b } = mapTree fs ∧
      mapData { fs with freeMap := b } = mapData fs :=
    hok.congr rfl rfl hcnt (fun _ _ _ => rfl) fun t ht => (hmark t).mpr (.inl (hok.marked ht))
  refine ⟨hok, hok', rfl, rfl, htree, hdata, nodup_singleton _, ?_, hmark,
    fun _ _ _ _ => rfl, [], by simp, rfl⟩
  intro s hs
  rw [mem_singleton] at hs
  subst hs
  refine ⟨lt_iff_toNat_lt.mpr (hround.symm ▸ hlt), ?_⟩
  rw [Marked, hround, hfree]
  simp

/-- The search for one sector finds it as long as there is a free one. -/
theorem grew_scan (hok : MapOk fs) (hpos : 0 < freeCount fs) :
    ∃ i b, bitmapScanAndFlip fs.freeMap 0 1 false = .ok (some i, b) ∧
      Grew ∅ fs { fs with freeMap := b } [ofNat i] := by
  rcases bitmapScanAndFlip_one fs.freeMap false with ⟨i, b, hscan, hi, hfree, hcnt, hget⟩ | ⟨-, hnone⟩
  · exact ⟨i, b, hscan, grew_mark hok hi hfree hcnt (by simpa using hget)⟩
  · obtain ⟨i, hi, hget⟩ := (freeCount_pos_iff hok).mp hpos
    exact absurd hget (hnone i hi)

/-- `free_map_allocate` for one sector marks it, on the disk as well. -/
theorem freeMapAllocate_synced (depth : ℕ) (hok : MapOk fs) (hsmall : MapSmall fs)
    (hpos : 0 < freeCount fs) :
    Ensures diskHandler (freeMapAllocate (depth + 1) 1) fs (fun r fs' =>
      ∃ s, r = some s ∧ Grew ∅ fs fs' [s] ∧ MapSynced fs') := by
  obtain ⟨i, b, hscan, hgrew⟩ := grew_scan hok hpos
  rw [freeMapAllocate, ensures_bind, ensures_getFreeMap, ensures_bind, hscan, lift, ensures_ret]
  simp only [ensures_bind, ensures_setFreeMap]
  have hb : b = ({ fs with freeMap := b } : Fs).freeMap := rfl
  generalize ({ fs with freeMap := b } : Fs) = fs1 at hgrew hb ⊢
  subst hb
  rw [ensures_getFreeMapFile]
  cases hfile : fs1.freeMapFile with
  | none =>
    rw [ensures_ret]
    exact ⟨_, rfl, hgrew, fun file hf => by rw [hfile] at hf; cases hf⟩
  | some file =>
    simp only [ensures_bind]
    refine (bitmapWrite_spec _ hgrew.ok' (hgrew.small hsmall) hfile).mono ?_
    rintro r fs' ⟨rfl, ht, hsynced⟩
    rw [if_pos rfl, ensures_ret]
    exact ⟨_, rfl, hgrew.write_map ht, hsynced⟩

/-- **`free_map_allocate`** for one sector. -/
theorem freeMapAllocate_spec (depth : ℕ) : Allocates (freeMapAllocate (depth + 1) 1) := by
  intro fs hok hsmall hpos
  refine (freeMapAllocate_synced depth hok hsmall hpos).mono ?_
  rintro r fs' ⟨s, hr, hgrew, -⟩
  exact ⟨s, hr, hgrew⟩

/-- When the free map does not fit into the first 252 blocks of its file, no sector is
allocated: writing it faults. -/
theorem not_ensures_freeMapAllocate (depth : ℕ) : Overflows (freeMapAllocate (depth + 1) 1) := by
  intro fs hok hbig hpos Q
  obtain ⟨file, hfile, hbig⟩ : ∃ file, fs.freeMapFile = some file ∧
      252 * 512 < byteCnt fs.freeMap.bitCnt := by
    simpa [MapSmall] using hbig
  obtain ⟨i, b, hscan, hgrew⟩ := grew_scan hok hpos
  rw [freeMapAllocate, ensures_bind, ensures_getFreeMap, ensures_bind, hscan, lift, ensures_ret]
  simp only [ensures_bind, ensures_setFreeMap]
  have hb : b = ({ fs with freeMap := b } : Fs).freeMap := rfl
  generalize ({ fs with freeMap := b } : Fs) = fs1 at hgrew hb ⊢
  subst hb
  rw [← hgrew.file] at hfile
  rw [ensures_getFreeMapFile, hfile, ensures_bind]
  exact not_ensures_bitmapWrite _ (hgrew.ok'.file file hfile) (by rw [hgrew.bitCnt_eq]; exact hbig)

end

end Pintos.Fs

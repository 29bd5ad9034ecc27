import Pintos.BlockMap

/-! # Writing inside a file

`inode_write_at` without growth on a file whose sectors are all different.  In the first 252
blocks it overwrites an interval of the file's bytes and touches nothing but the file's
sectors (`inodeWriteAt_inside`); a write that reaches block 252 faults, since
`byte_to_sector` does (`not_ensures_inodeWriteAt`). -/

namespace Pintos.Fs

open Interaction Paging List

/-! ### Well-formed files -/

/-- The sectors of the blocks of the inode in sector `s`. -/
def dataSet (d : Sector → Block) (s : Sector) : Set Sector :=
  { t | t ∈ dataSectors d (inodeAt d s) (blocksAt d s) }

/-- All sectors of the inode in sector `s`. -/
def treeSet (d : Sector → Block) (s : Sector) : Set Sector := { t | t ∈ treeOf d s }

/-- What the inode in sector `s` stores at position `p`: the bytes of its blocks, and 0 behind
them. -/
def fileBytes (d : Sector → Block) (s : Sector) (p : ℕ) : UInt8 :=
  if p < 512 * blocksAt d s then flat d (mapSector d (inodeAt d s)) p else 0

/-- The inode in sector `s` is well formed: its sectors are on the device and different from
each other. -/
structure FileOk (fs : Fs) (s : Sector) : Prop where
  length_nonneg : 0 ≤ (inodeAt fs.store.sectors s).length.toInt
  nodup : (treeOf fs.store.sectors s).Nodup
  valid : ∀ t ∈ treeOf fs.store.sectors s, t < fs.store.size

variable {T : Set Sector} {new : ℤ} {n : ℕ}

namespace FileOk

variable {fs fs' : Fs} {s : Sector}

theorem intro (hlen : 0 ≤ (inodeAt fs.store.sectors s).length.toInt)
    (hnodup : (treeOf fs.store.sectors s).Nodup)
    (hall : (treeOf fs.store.sectors s).all (fun t => decide (t < fs.store.size)) = true) :
    FileOk fs s :=
  ⟨hlen, hnodup, fun t ht => of_decide_eq_true (all_eq_true.mp hall t ht)⟩

theorem sector_lt (h : FileOk fs s) : s < fs.store.size := h.valid s mem_cons_self

theorem data_subset (d : Sector → Block) (s : Sector) : dataSet d s ⊆ treeSet d s :=
  fun _ ht => mem_cons_of_mem _ (mem_append_right _ ht)

theorem sector_notMem (h : FileOk fs s) : s ∉ dataSet fs.store.sectors s :=
  fun hs => (nodup_cons.mp h.nodup).1 (mem_append_right _ hs)

variable {i : ℕ} {t : Sector}

theorem index_notMem (h : FileOk fs s)
    (ht : t ∈ indexSectors fs.store.sectors (inodeAt fs.store.sectors s)
      (blocksAt fs.store.sectors s)) : t ∉ dataSet fs.store.sectors s :=
  fun hd => disjoint_of_nodup_append (nodup_cons.mp h.nodup).2 ht hd

theorem data_nodup (h : FileOk fs s) :
    (dataSectors fs.store.sectors (inodeAt fs.store.sectors s)
      (blocksAt fs.store.sectors s)).Nodup :=
  (nodup_append.mp (nodup_cons.mp h.nodup).2).2.1

theorem map_inj (h : FileOk fs s) : ∀ a < blocksAt fs.store.sectors s,
    ∀ b < blocksAt fs.store.sectors s,
      mapSector fs.store.sectors (inodeAt fs.store.sectors s) a =
        mapSector fs.store.sectors (inodeAt fs.store.sectors s) b → a = b :=
  fun _ ha _ hb heq => inj_on_of_nodup_map h.data_nodup (mem_range.mpr ha)
    (mem_range.mpr hb) heq

theorem map_lt (h : FileOk fs s) (hi : i < blocksAt fs.store.sectors s) :
    mapSector fs.store.sectors (inodeAt fs.store.sectors s) i < fs.store.size :=
  h.valid _ (data_subset _ _ (mapSector_mem_dataSectors _ _ hi))

theorem map_lt_touch (h : FileOk fs s) (hi : i < blocksAt fs.store.sectors s)
    (hst : fs'.store = fs.store) (t : Sector) :
    mapSector fs.store.sectors (inodeAt fs.store.sectors s) i < (touch fs' t).store.size := by
  change _ < fs'.store.size
  rw [hst]
  exact h.map_lt hi

theorem index_mem (d : Sector → Block) (s : Sector)
    (ht : t ∈ indexSectors d (inodeAt d s) (blocksAt d s)) : t ∈ treeSet d s :=
  mem_cons_of_mem _ (mem_append_left _ ht)

theorem indirect_lt (h : FileOk fs s) (hi : i < blocksAt fs.store.sectors s)
    (h1 : 124 ≤ i) : (inodeAt fs.store.sectors s).indirect < fs.store.size ∧
      (inodeAt fs.store.sectors s).indirect ∈ treeSet fs.store.sectors s := by
  have hmem := index_mem _ s (indirect_mem_indexSectors fs.store.sectors
    (inodeAt fs.store.sectors s) (lt_of_le_of_lt h1 hi))
  exact ⟨h.valid _ hmem, hmem⟩

/-- The same sectors hold the file in both states. -/
structure SameMap (fs fs' : Fs) (s : Sector) : Prop where
  inode : inodeAt fs'.store.sectors s = inodeAt fs.store.sectors s
  blocks : blocksAt fs'.store.sectors s = blocksAt fs.store.sectors s
  tree : treeOf fs'.store.sectors s = treeOf fs.store.sectors s
  data : dataSet fs'.store.sectors s = dataSet fs.store.sectors s
  map : ∀ i < blocksAt fs.store.sectors s,
    mapSector fs'.store.sectors (inodeAt fs'.store.sectors s) i =
      mapSector fs.store.sectors (inodeAt fs.store.sectors s) i
  ok : FileOk fs' s

theorem congr (h : FileOk fs s) (hsize : fs'.store.size = fs.store.size)
    (hsec : ∀ t ∈ treeSet fs.store.sectors s, t ∉ dataSet fs.store.sectors s →
      fs'.store.sectors t = fs.store.sectors t) : SameMap fs fs' s := by
  have hindex : ∀ t ∈ indexSectors fs.store.sectors (inodeAt fs.store.sectors s)
      (blocksAt fs.store.sectors s), fs'.store.sectors t = fs.store.sectors t :=
    fun t hmem => hsec t (index_mem _ _ hmem) (h.index_notMem hmem)
  obtain ⟨hdi, hn, htree⟩ := treeOf_congr (hsec s mem_cons_self h.sector_notMem) hindex
  refine ⟨hdi, hn, htree, ?_, fun i hi => ?_, ?_, ?_, ?_⟩
  · unfold dataSet
    rw [hdi, hn, dataSectors_congr hindex]
  · rw [hdi]; exact mapSector_congr hindex hi
  · rw [hdi]; exact h.length_nonneg
  · rw [htree]; exact h.nodup
  · rw [htree, hsize]; exact h.valid

theorem file_congr (h : FileOk fs s) (hsize : fs'.store.size = fs.store.size)
    (hsec : ∀ t ∈ treeSet fs.store.sectors s, fs'.store.sectors t = fs.store.sectors t) :
    inodeAt fs'.store.sectors s = inodeAt fs.store.sectors s ∧
      fileBytes fs'.store.sectors s = fileBytes fs.store.sectors s := by
  obtain ⟨hdi, hn, -, -, hmap, -⟩ := h.congr hsize fun t ht _ => hsec t ht
  refine ⟨hdi, funext fun p => ?_⟩
  unfold fileBytes
  rw [hn]
  by_cases hp : p < 512 * blocksAt fs.store.sectors s
  · rw [if_pos hp, if_pos hp]
    have hi : p / 512 < blocksAt fs.store.sectors s := by omega
    refine flat_congr ?_
    rw [hmap _ hi]
    exact hsec _ (data_subset _ _ (mapSector_mem_dataSectors fs.store.sectors
      (inodeAt fs.store.sectors s) hi))
  · rw [if_neg hp, if_neg hp]

theorem keeps (h : FileOk fs s)
    (ht : Touches (dataSet fs.store.sectors s) T fs fs') : SameMap fs fs' s :=
  h.congr ht.size fun t _ => ht.sectors t

end FileOk

/-! ### One chunk -/

theorem tmod_512 (off : ℕ) : (off : ℤ).tmod 512 = ((off % 512 : ℕ) : ℤ) := by
  rfl

/-- The bytes a buffer holds in a state. -/
def Buffer.value (buffer : Buffer) (fs : Fs) : ℕ → UInt8 :=
  match buffer with
  | .bytes f => f
  | .freeMapBits => fs.freeMap.fileBytes

theorem ensures_bufferGet {fs : Fs} {buffer : Buffer} {Q : (ℕ → UInt8) → Fs → Prop} :
    Ensures diskHandler buffer.get fs Q ↔ Q (buffer.value fs) fs := by
  cases buffer with
  | bytes f => rw [Buffer.get, ensures_ret, Buffer.value]
  | freeMapBits => rw [Buffer.get, ensures_bind, ensures_getFreeMap, ensures_ret, Buffer.value]

theorem Buffer.value_congr {buffer : Buffer} {fs fs' : Fs} (h : fs'.freeMap = fs.freeMap) :
    buffer.value fs' = buffer.value fs := by
  cases buffer with
  | bytes f => rfl
  | freeMapBits => rw [Buffer.value, h, Buffer.value]

variable {Q : ℤ → Fs → Prop}

theorem ensures_inodeLength {fs : Fs} {inode : Inode} (hs : inode.sector < fs.store.size) :
    Ensures diskHandler (inodeLength inode) fs Q ↔
      Q (inodeAt fs.store.sectors inode.sector).length.toInt (touch fs inode.sector) := by
  rw [inodeLength, ensures_bind, ensures_cacheRead hs, ensures_ret]
  rfl

theorem writeChunk_spec {fs : Fs} {s : Sector} (hs : s < fs.store.size) (ofs chunk : ℕ)
    (hchunk : ofs + chunk ≤ 512) (bytes : ℕ → UInt8) :
    Ensures diskHandler (writeChunk s bytes ofs chunk (512 - ofs)) fs (fun _ fs' =>
      fs'.store = fs.store.write s (splice (fs.store.sectors s) ofs chunk bytes) ∧
        Touches {s} {s} fs fs') := by
  have hs' : s ∈ ({s} : Set Sector) := rfl
  rw [writeChunk]
  by_cases hfull : (ofs : ℤ) = 0 ∧ (chunk : ℤ) = 512
  · obtain ⟨rfl, rfl⟩ : ofs = 0 ∧ chunk = 512 := by omega
    rw [if_pos hfull, ensures_cacheWrite hs, splice_full]
    exact ⟨rfl, (Touches.refl _ _ fs).put (.inl hs') hs'⟩
  · have hpart : (0 : ℤ) < ofs ∨ (chunk : ℤ) < 512 - ofs := by omega
    have hin : (0 : ℤ) ≤ ofs ∧ (ofs : ℤ) + chunk ≤ 512 := by omega
    rw [if_neg hfull, cacheWriteBytes, writeBounce, if_pos hpart, ensures_bind,
      ensures_cacheRead hs]
    simp only [if_pos hin, Int.toNat_natCast]
    refine (ensures_cacheWrite ?_).mpr ⟨rfl, ?_⟩
    · exact hs
    · exact ((Touches.refl _ _ fs).touch hs').put (.inl hs') hs'

/-! ### The loop -/

theorem chunkSize_eq_min (size left sectorLeft : ℤ) :
    chunkSize size left sectorLeft = min size (min left sectorLeft) := by
  simp only [chunkSize]
  split_ifs <;> omega

theorem chunkSize_eq {size left sectorLeft : ℤ} (h : size ≤ left) :
    chunkSize size left sectorLeft = min size sectorLeft := by
  rw [chunkSize_eq_min]
  omega

variable {off size : ℕ}

/-- One round below block 252: it replaces the part of a sector that the write covers, and
the loop goes on behind it. -/
theorem writeLoop_step (inode : Inode) (buffer : Buffer) {fs : Fs} {w chunk : ℕ} (fuel : ℕ)
    (hfile : FileOk fs inode.sector) (hsize : 0 < size) (hoff : off / 512 < 252)
    (hlen : ((off + size : ℕ) : ℤ) ≤ (inodeAt fs.store.sectors inode.sector).length.toInt)
    (hchunk : chunk = min size (512 - off % 512)) :
    ∃ fs2, Touches (dataSet fs.store.sectors inode.sector)
        (treeSet fs.store.sectors inode.sector) fs fs2 ∧
      fs2.store.sectors = Function.update fs.store.sectors
        (mapSector fs.store.sectors (inodeAt fs.store.sectors inode.sector) (off / 512))
        (splice (fs.store.sectors
          (mapSector fs.store.sectors (inodeAt fs.store.sectors inode.sector) (off / 512)))
          (off % 512) chunk (fun k => buffer.value fs (w + k))) ∧
      ∀ Q : ℤ → Fs → Prop,
        Ensures diskHandler (writeLoop inode buffer (fuel + 1) size off w) fs Q ↔
          Ensures diskHandler (writeLoop inode buffer fuel ((size - chunk : ℕ) : ℤ)
            ((off + chunk : ℕ) : ℤ) ((w + chunk : ℕ) : ℤ)) fs2 Q := by
  have hpos : (0 : ℤ) < size := by omega
  have hn : off / 512 < blocksAt fs.store.sectors inode.sector := div_lt_blockCount (by omega)
  have hsec : mapSector fs.store.sectors (inodeAt fs.store.sectors inode.sector)
      (off / 512) ∈ dataSet fs.store.sectors inode.sector := mapSector_mem_dataSectors _ _ hn
  have hchunk' : chunkSize size ((inodeAt fs.store.sectors inode.sector).length.toInt - off)
      (512 - (off % 512 : ℕ)) = (chunk : ℤ) := by
    rw [chunkSize_eq (by omega), hchunk]
    omega
  obtain ⟨sec, fs1, ⟨rfl, h1⟩, hmap⟩ := (byteToSector_spec
    (T := treeSet fs.store.sectors inode.sector) hfile.sector_lt mem_cons_self (by omega)
    hoff (hfile.indirect_lt hn)).bind_iff
  have hst := h1.store_eq
  have hlt := hfile.map_lt_touch hn hst inode.sector
  obtain ⟨_, fs2, ⟨hst2, h2⟩, hput⟩ := (writeChunk_spec hlt (off % 512) chunk (by omega)
    (fun k => buffer.value (touch fs1 inode.sector) (w + k))).bind_iff
  have h01 : Touches (dataSet fs.store.sectors inode.sector)
      (treeSet fs.store.sectors inode.sector) fs (touch fs1 inode.sector) :=
    (h1.mono (Set.empty_subset _) subset_rfl).touch mem_cons_self
  refine ⟨fs2, h01.trans (h2.mono (Set.singleton_subset_iff.mpr hsec)
    (Set.singleton_subset_iff.mpr (FileOk.data_subset _ _ hsec))), ?_, fun Q => ?_⟩
  · rw [hst2, Buffer.value_congr h01.freeMap_eq]
    simp only [Disk.write_sectors, touch, hst]
  · rw [writeLoop, if_pos hpos, hmap, ensures_bind, ensures_inodeLength (by rw [hst]; exact
      hfile.sector_lt), hst]
    simp only [tmod_512, hchunk']
    rw [if_neg (by omega), ensures_bind, ensures_bufferGet, Int.toNat_natCast, hput,
      show (size : ℤ) - chunk = ((size - chunk : ℕ) : ℤ) by omega, Nat.cast_add, Nat.cast_add]

/-- **The loop of `inode_write_at`** inside the first 252 blocks of the file: it overwrites
`size` bytes from `off` on, and touches no sector but the file's. -/
theorem writeLoop_spec (inode : Inode) (buffer : Buffer) : ∀ (fuel : ℕ) (fs : Fs)
    (size off w : ℕ), FileOk fs inode.sector → size ≤ fuel → off + size ≤ 252 * 512 →
    ((off + size : ℕ) : ℤ) ≤ (inodeAt fs.store.sectors inode.sector).length.toInt →
    Ensures diskHandler (writeLoop inode buffer fuel size off w) fs (fun r fs' =>
      r = ((w + size : ℕ) : ℤ) ∧
      Touches (dataSet fs.store.sectors inode.sector) (treeSet fs.store.sectors inode.sector)
        fs fs' ∧
      ∀ p < 512 * blocksAt fs.store.sectors inode.sector,
        flat fs'.store.sectors
            (mapSector fs.store.sectors (inodeAt fs.store.sectors inode.sector)) p =
          overwrite (flat fs.store.sectors
            (mapSector fs.store.sectors (inodeAt fs.store.sectors inode.sector)))
            off size (fun k => buffer.value fs (w + k)) p) := by
  intro fuel
  induction fuel with
  | zero =>
    intro fs size off w hfile hfuel hmax hlen
    obtain rfl : size = 0 := by omega
    simp only [writeLoop, ensures_ret, overwrite_zero]
    exact ⟨rfl, Touches.refl _ _ fs, fun _ _ => trivial⟩
  | succ fuel ih =>
    intro fs size off w hfile hfuel hmax hlen
    by_cases hsize : size = 0
    · subst hsize
      simp only [writeLoop, Nat.cast_zero, lt_irrefl, if_false, ensures_ret, overwrite_zero]
      exact ⟨rfl, Touches.refl _ _ fs, fun _ _ => trivial⟩
    · -- the chunk ends at the end of the write or of the sector
      obtain ⟨chunk, hchunk⟩ : ∃ chunk, chunk = min size (512 - off % 512) := ⟨_, rfl⟩
      have hn : off / 512 < blocksAt fs.store.sectors inode.sector :=
        div_lt_blockCount (by omega)
      obtain ⟨fs2, h2, hsec2, hstep⟩ := writeLoop_step inode buffer fuel hfile
        (Nat.pos_of_ne_zero hsize) (by omega) hlen hchunk
      obtain ⟨hdi, hn2, htree, hdata, hmap, hfile2⟩ := hfile.keeps h2
      rw [hstep]
      refine (ih fs2 (size - chunk) (off + chunk) (w + chunk) hfile2 (by omega) (by omega)
        (by rw [hdi]; omega)).mono ?_
      rintro r fs3 ⟨hr, h3, hflat⟩
      have htreeSet : treeSet fs2.store.sectors inode.sector =
          treeSet fs.store.sectors inode.sector := by rw [treeSet, htree, treeSet]
      rw [hdata, htreeSet] at h3
      refine ⟨by rw [hr]; omega, h2.trans h3, fun p hp => ?_⟩
      -- the rest of the write goes on where the chunk ends
      have hp' : p / 512 < blocksAt fs.store.sectors inode.sector := by omega
      have hrest := hflat p (by rw [hn2]; exact hp)
      have happ := congrFun (overwrite_append (flat fs.store.sectors
        (mapSector fs.store.sectors (inodeAt fs.store.sectors inode.sector))) off chunk
        (size - chunk) (fun k => buffer.value fs (w + k))) p
      rw [show chunk + (size - chunk) = size by omega] at happ
      rw [flat_congr (by rw [hmap _ hp']), Buffer.value_congr h2.freeMap_eq] at hrest
      rw [hrest, ← happ]
      simp only [Nat.add_assoc]
      apply overwrite_congr
      rw [flat_congr (by rw [hmap _ hp'])]
      have hsplice := flat_splice fs.store.sectors (fun k => buffer.value fs (w + k))
        hfile.map_inj hn (show off % 512 + chunk ≤ 512 by omega) hp'
      rw [Nat.div_add_mod] at hsplice
      rw [← hsplice, hsec2]

/-- A write that reaches block 252 of the file faults there. -/
theorem not_ensures_writeLoop (inode : Inode) (buffer : Buffer) :
    ∀ (fuel : ℕ) (fs : Fs) (size off w : ℕ), FileOk fs inode.sector → size ≤ fuel →
    off ≤ 252 * 512 → 252 * 512 < off + size →
    ((off + size : ℕ) : ℤ) ≤ (inodeAt fs.store.sectors inode.sector).length.toInt →
    ¬ Ensures diskHandler (writeLoop inode buffer fuel size off w) fs Q := by
  intro fuel
  induction fuel with
  | zero => intro fs size off w hfile hfuel hoff hmax hlen; omega
  | succ fuel ih =>
    intro fs size off w hfile hfuel hoff hmax hlen
    by_cases hend : off = 252 * 512
    · rw [writeLoop, if_pos (by omega), ensures_bind]
      exact not_ensures_byteToSector (by omega) (by omega)
    · obtain ⟨chunk, hchunk⟩ : ∃ chunk, chunk = min size (512 - off % 512) := ⟨_, rfl⟩
      obtain ⟨fs2, h2, -, hstep⟩ := writeLoop_step inode buffer fuel hfile
        (by omega) (by omega) hlen hchunk
      obtain ⟨hdi, -, -, -, -, hfile2⟩ := hfile.keeps h2
      rw [hstep]
      exact ih fs2 (size - chunk) (off + chunk) (w + chunk) hfile2 (by omega) (by omega)
        (by omega) (by rw [hdi]; omega)

/-! ### Writing without growth -/

theorem sectorCount_le {a b : ℤ} (h0 : 0 ≤ a) (h : a ≤ b) : sectorCount a ≤ sectorCount b := by
  obtain ⟨m, rfl⟩ := Int.eq_ofNat_of_zero_le h0
  obtain ⟨n, rfl⟩ := Int.eq_ofNat_of_zero_le (h0.trans h)
  rw [sectorCount_natCast, sectorCount_natCast]
  omega

/-- `add_inode` leaves an inode that is long enough as it is. -/
theorem addInode_inside (alloc : Prog fsSig (Option Sector)) {d : Sector → Block} {s : Sector}
    (h0 : 0 ≤ new) (h : new ≤ (inodeAt d s).length.toInt) :
    addInode alloc (InodeDisk.decode (d s)) new = pure (InodeDisk.decode (d s)) := by
  rw [inodeAt] at h
  have hcount := sectorCount_le h0 h
  have hlen := not_lt.mpr h
  simp only [addInode, if_neg hlen, Int32.ofInt_toInt]
  rw [if_pos (by omega)]

theorem wrap_eq {x : ℤ} (h0 : -2 ^ 31 ≤ x) (h : x < 2 ^ 31) : wrap x = x := by
  unfold wrap
  rw [Int.bmod_def]
  split_ifs <;> omega

theorem wrap_add {m : ℕ} (h : n + m < 2 ^ 31) : wrap ((m : ℤ) + n) = ((n + m : ℕ) : ℤ) := by
  rw [wrap_eq (by omega) (by omega), add_comm, Nat.cast_add]

theorem toInt_lt (x : Int32) : x.toInt < 2 ^ 31 := Int32.toInt_lt x

theorem put_store_of_eq {fs : Fs} {s : Sector} {b : Block} (h : b = fs.store.sectors s) :
    (put fs s b).store = fs.store := by
  subst h
  simp only [put, Disk.write, Function.update_eq_self]

theorem FileOk.le_blocks {fs : Fs} {s : Sector} (hfile : FileOk fs s)
    (hn : (n : ℤ) ≤ (inodeAt fs.store.sectors s).length.toInt) :
    n ≤ 512 * blocksAt fs.store.sectors s := by
  have hcount := sectorCount_le (Int.natCast_nonneg n) hn
  rw [sectorCount_eq_blockCount hfile.length_nonneg, sectorCount_natCast] at hcount
  change ((_ : ℕ) : ℤ) ≤ (blocksAt fs.store.sectors s : ℤ) at hcount
  omega

theorem fileBytes_of_write {fs fs' : Fs} {s : Sector} {f : ℕ → UInt8} (hfile : FileOk fs s)
    (ht : Touches (dataSet fs.store.sectors s) T fs fs')
    (hlen : ((off + size : ℕ) : ℤ) ≤ (inodeAt fs.store.sectors s).length.toInt)
    (hflat : ∀ p < 512 * blocksAt fs.store.sectors s,
      flat fs'.store.sectors (mapSector fs.store.sectors (inodeAt fs.store.sectors s)) p =
        overwrite (flat fs.store.sectors (mapSector fs.store.sectors (inodeAt fs.store.sectors s)))
          off size f p) :
    fileBytes fs'.store.sectors s = overwrite (fileBytes fs.store.sectors s) off size f := by
  obtain ⟨hdi, hn, -, -, hmap, -⟩ := hfile.keeps ht
  funext p
  by_cases hp : p < 512 * blocksAt fs.store.sectors s
  · have hi : p / 512 < blocksAt fs.store.sectors s := by omega
    have hold : fileBytes fs.store.sectors s p = flat fs.store.sectors
      (mapSector fs.store.sectors (inodeAt fs.store.sectors s)) p := if_pos hp
    rw [overwrite_congr hold, ← hflat p hp, fileBytes, hn, if_pos hp]
    exact flat_congr (by rw [hmap _ hi])
  · have hend := hfile.le_blocks hlen
    rw [overwrite, if_neg (by omega), fileBytes, hn, if_neg hp, fileBytes, if_neg hp]

section

variable (alloc : Prog fsSig (Option Sector)) {fs : Fs} {inode : Inode} (buffer : Buffer)
  (hfile : FileOk fs inode.sector) (hdeny : inode.denyWriteCnt = 0)
  (hlen : ((off + size : ℕ) : ℤ) ≤ (inodeAt fs.store.sectors inode.sector).length.toInt)
include hfile hdeny hlen

/-- `inode_write_at` inside the file writes the inode back as it is and runs the loop. -/
theorem inodeWriteAt_step :
    ∃ fs1, fs1.store = fs.store ∧
      Touches (dataSet fs.store.sectors inode.sector) (treeSet fs.store.sectors inode.sector)
        fs fs1 ∧
      ∀ Q : ℤ → Fs → Prop,
        Ensures diskHandler (inodeWriteAt alloc inode buffer size off) fs Q ↔
          Ensures diskHandler (writeLoop inode buffer size size off (0 : ℕ)) fs1 (fun r fs2 =>
            Ensures diskHandler (cacheWrite inode.sector (fs.store.sectors inode.sector)) fs2
              (fun _ fs' => Q r fs')) := by
  have hs : inode.sector ∈ treeSet fs.store.sectors inode.sector := mem_cons_self
  have hmax := toInt_lt (inodeAt fs.store.sectors inode.sector).length
  refine ⟨put (touch fs inode.sector) inode.sector (fs.store.sectors inode.sector),
    put_store_of_eq rfl, ((Touches.refl _ _ fs).touch hs).put (.inr rfl) hs, fun Q => ?_⟩
  rw [inodeWriteAt, if_neg (not_not.mpr hdeny), ensures_bind, ensures_cacheRead hfile.sector_lt,
    wrap_add (by omega), ensures_bind, addInode_inside alloc (Int.natCast_nonneg _) hlen,
    ensures_ret, InodeDisk.encode_decode, ensures_bind]
  have hlt : inode.sector < (touch fs inode.sector).store.size := hfile.sector_lt
  rw [ensures_cacheWrite hlt]
  simp only [ensures_bind, ensures_ret, Int.toNat_natCast, Nat.cast_zero]

/-- **`inode_write_at`** inside the file. -/
theorem inodeWriteAt_inside (hmax : off + size ≤ 252 * 512) :
    Ensures diskHandler (inodeWriteAt alloc inode buffer size off) fs (fun r fs' =>
      r = (size : ℤ) ∧
      Touches (dataSet fs.store.sectors inode.sector) (treeSet fs.store.sectors inode.sector)
        fs fs' ∧
      fileBytes fs'.store.sectors inode.sector =
        overwrite (fileBytes fs.store.sectors inode.sector) off size (buffer.value fs)) := by
  have hs : inode.sector ∈ treeSet fs.store.sectors inode.sector := mem_cons_self
  obtain ⟨fs1, hst1, h1, hstep⟩ := inodeWriteAt_step alloc buffer hfile hdeny hlen
  have hfile1 : FileOk fs1 inode.sector := (hfile.keeps h1).ok
  rw [hstep]
  refine (writeLoop_spec inode buffer size fs1 size off 0 hfile1 le_rfl hmax ?_).mono ?_
  · rw [hst1]; exact hlen
  rintro r fs2 ⟨hr, h2, hflat⟩
  rw [hst1] at h2 hflat
  have h02 := h1.trans h2
  have hsame : fs.store.sectors inode.sector = fs2.store.sectors inode.sector :=
    (h02.sectors _ hfile.sector_notMem).symm
  rw [ensures_cacheWrite (by rw [h02.size]; exact hfile.sector_lt)]
  have h03 := h02.put (.inr hsame) hs
  refine ⟨by rw [hr, Nat.zero_add], h03, fileBytes_of_write hfile h03 hlen fun p hp => ?_⟩
  rw [put_store_of_eq hsame, hflat p hp]
  simp only [Nat.zero_add, Buffer.value_congr h1.freeMap_eq]

/-- A write inside the file that reaches block 252 faults. -/
theorem not_ensures_inodeWriteAt (hoff : off ≤ 252 * 512) (hmax : 252 * 512 < off + size) :
    ¬ Ensures diskHandler (inodeWriteAt alloc inode buffer size off) fs Q := by
  obtain ⟨fs1, hst1, h1, hstep⟩ := inodeWriteAt_step alloc buffer hfile hdeny hlen
  rw [hstep]
  exact not_ensures_writeLoop inode buffer size fs1 size off 0 (hfile.keeps h1).ok le_rfl
    hoff hmax (by rw [hst1]; exact hlen)

end

/-! ### A write that is not denied stores a byte -/

section

variable {alloc : Prog fsSig (Option Sector)} {fs : Fs} {inode : Inode} {buffer : Buffer}

theorem always_addInode_le {di : InodeDisk} (h0 : -2 ^ 31 ≤ new) (h : new < 2 ^ 31) :
    Always diskHandler (addInode alloc di new) fs (fun di' _ => new ≤ di'.length.toInt) := by
  have hnew : (Int32.ofInt new).toInt = new := Int32.toInt_ofInt_of_le (by omega) (by omega)
  simp only [addInode]
  split_ifs with hcount hlen
  · exact always_ret hnew.ge
  · refine always_ret ?_
    rw [Int32.ofInt_toInt]
    exact not_lt.mp hlen
  · refine always_then fun g1 fs1 => ?_
    refine always_then fun g2 fs2 => ?_
    exact always_then fun g3 fs3 => always_ret hnew.ge

theorem always_readSector {s : Sector} {i : ℤ} :
    Always diskHandler (readSector s i) fs (fun _ fs' => fs'.store = fs.store) := by
  refine always_bind (always_cacheRead (Q := fun _ fs' => fs'.store = fs.store) rfl) fun b fs1 h1 => ?_
  refine always_index.mono fun _ fs' h => ?_
  rw [h, h1]

theorem always_byteToSector {pos : ℤ} :
    Always diskHandler (byteToSector inode pos) fs (fun _ fs' => fs'.store = fs.store) := by
  refine always_bind (always_cacheRead (Q := fun _ fs' => fs'.store = fs.store) rfl) fun b fs1 h1 => ?_
  rw [← h1]
  dsimp only
  split_ifs
  · exact always_index.mono fun _ fs' h => congrArg FsState.store h
  · exact always_readSector
  · refine always_bind always_readSector fun s fs2 h2 => ?_
    rw [← h2]
    exact always_readSector
  · exact always_ret rfl

theorem always_writeLoop : ∀ (fuel : ℕ) (fs : Fs) (size offset written : ℤ), 0 ≤ size →
    Always diskHandler (writeLoop inode buffer fuel size offset written) fs
      (fun r _ => written ≤ r ∧ r ≤ written + size) := by
  intro fuel
  induction fuel with
  | zero =>
    intro fs size offset written hsize
    exact always_ret (by omega)
  | succ fuel ih =>
    intro fs size offset written hsize
    rw [writeLoop]
    split_ifs
    · refine always_then fun s fs1 => ?_
      refine always_then fun length fs2 => ?_
      dsimp only
      rw [chunkSize_eq_min]
      split_ifs with hchunk
      · exact always_ret (by omega)
      · refine always_then fun bytes fs3 => ?_
        refine always_then fun _ fs4 => ?_
        exact (ih fs4 _ _ _ (by omega)).mono fun r _ hr => by omega
    · exact always_ret (by omega)

variable {offset : ℤ}

theorem always_inodeWriteAt_chunk {size : ℤ} (hdeny : inode.denyWriteCnt = 0)
    (hsize : 1 ≤ size) (hoffset : 0 ≤ offset) (hmax : size + offset < 2 ^ 31) :
    Always diskHandler (inodeWriteAt alloc inode buffer size offset) fs
      (fun r _ => min size (512 - offset.tmod 512) ≤ r ∧ r ≤ size) := by
  rw [inodeWriteAt, if_neg (not_not.mpr hdeny), wrap_eq (by omega) hmax]
  refine always_then fun b fs1 => ?_
  refine always_bind (always_addInode_le (by omega) hmax) fun di fs2 hlen => ?_
  refine always_bind (always_cacheWrite (Q := fun _ fs' =>
    InodeDisk.decode (fs'.store.sectors inode.sector) = di) ?_) fun _ fs3 hdi => ?_
  · rw [put_sectors_self, InodeDisk.decode_encode]
  have hloop : Always diskHandler (writeLoop inode buffer size.toNat size offset 0) fs3
      (fun r _ => min size (512 - offset.tmod 512) ≤ r ∧ r ≤ size) := by
    obtain ⟨n, hn⟩ : ∃ n, size.toNat = n + 1 := Nat.exists_eq_add_one_of_ne_zero (by omega)
    rw [hn, writeLoop, if_pos (by omega)]
    refine always_bind always_byteToSector fun s fs4 h4 => ?_
    refine always_bind (R := fun length _ => length = di.length.toInt) ?_ fun length fs5 hlength => ?_
    · refine always_bind (always_cacheRead (Q := fun b _ => InodeDisk.decode b = di) ?_)
        fun b fs5 hb => ?_
      · rw [h4, hdi]
      · exact always_ret (by rw [hb])
    have hmod : offset.tmod 512 < 512 := Int.tmod_lt_of_pos _ (by omega)
    have hchunk : chunkSize size (length - offset) (512 - offset.tmod 512) =
        min size (512 - offset.tmod 512) := by
      exact chunkSize_eq (by omega)
    dsimp only
    rw [hchunk, if_neg (by omega)]
    refine always_then fun bytes fs6 => ?_
    refine always_then fun _ fs7 => ?_
    exact (always_writeLoop n fs7 _ _ _ (by omega)).mono fun r _ hr => by omega
  refine always_bind hloop fun r fs4 hr => ?_
  exact always_then fun _ _ => always_ret hr

theorem always_inodeWriteAt_pos {size : ℤ} (hdeny : inode.denyWriteCnt = 0) (hsize : 1 ≤ size)
    (hoffset : 0 ≤ offset) (hmax : size + offset < 2 ^ 31) :
    Always diskHandler (inodeWriteAt alloc inode buffer size offset) fs (fun r _ => 1 ≤ r) := by
  have hmod : offset.tmod 512 < 512 := Int.tmod_lt_of_pos _ (by omega)
  exact (always_inodeWriteAt_chunk hdeny hsize hoffset hmax).mono fun r _ hr => by omega

end

end Pintos.Fs

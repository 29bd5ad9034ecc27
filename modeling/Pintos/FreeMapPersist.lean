import Pintos.FileVectors
import Pintos.FreeMapRuns

/-! # The free map over a shutdown

`free_map_open` reads the free map from its file, every allocation and release writes it back,
`filesys_done` closes the file and writes the cache to the device, and `filesys_init` starts from
the device again.

* `Stored fs`: the device has a free map's file, and the file has the bits of the free map.
* Opening the file ensures this (`freeMapOpen_stored`), the calls keep it (`mapCall_stored`), and
  it is all that the next `free_map_open` depends on, so that the free map is read back as it was
  (`freeMap_persists`).
* So is everything else that was written (`filesys_survives`).

The calls run on the cache; what they do is taken from the array of sectors by `run_on_cache`. -/

namespace Pintos.Fs

open Interaction

/-! ### Start and shutdown -/

/-- `bitmap_read (free_map, file)`. -/
def bitmapRead (file : Inode) : Prog fsSig Bool := do
  let b ← getFreeMap
  if 0 < b.bitCnt then do
    let r ← inodeReadAt file b.fileBytes (byteCnt b.bitCnt) 0
    setFreeMap (b.ofBytes r.2).maskLast
    pure (decide (r.1 = byteCnt b.bitCnt))
  else pure true

/-- `inode_open (FREE_MAP_SECTOR)` while no other inode is open. -/
def freeMapInode : Inode := ⟨freeMapSector, 1, false, 0⟩

/-- `free_map_open`; the `PANIC` is a fault. -/
def freeMapOpen (fc : FsState CacheState) : Except Fault (FsState CacheState) := do
  let r ← run (fsHandler cacheHandler) (bitmapRead freeMapInode)
    { fc with freeMapFile := some freeMapInode }
  if r.1 then .ok r.2 else .error .assertion

def freeMapClose (depth : ℕ) (fc : FsState CacheState) : Except Fault (FsState CacheState) :=
  match fc.freeMapFile with
  | none => .ok fc
  | some file => do
    let r ← run (fsHandler cacheHandler) (inodeClose depth file) fc
    .ok r.2

def filesysDone (depth : ℕ) (fc : FsState CacheState) : Except Fault (FsState CacheState) := do
  let fc ← freeMapClose depth fc
  let store ← cacheSync fc.store
  .ok { fc with store := store }

/-- `filesys_init (false)` on the device of `boot`, with anything in memory. -/
def filesysInit (memory : ℕ → BitVec elemBits) (boot : FsState CacheState) :
    Except Fault (FsState CacheState) :=
  -- `inode_init` empties the cache
  let store : CacheState := ⟨boot.store.cache.init, boot.store.disk⟩
  match freeMapInit memory store.disk.size with
  | none => .error .assertion
  | some b => freeMapOpen { boot with store := store, freeMap := b }

/-! ### The free map's file on the device -/

/-- The device has a free map's file within 252 sectors, and the free map has its size. -/
structure HoldsMap (fs : Fs) : Prop where
  bitCnt_eq : fs.freeMap.bitCnt = fs.store.size.toNat
  small : fs.store.size.toNat ≤ 252 * 512 * 8
  ok : FileOk fs freeMapSector
  length_ge : (byteCnt fs.store.size.toNat : ℤ) ≤
    (inodeAt fs.store.sectors freeMapSector).length.toInt

/-- Bit `i` of the free map's file. -/
def fileBit (d : Sector → Block) (i : ℕ) : Bool :=
  (fileBytes d freeMapSector (i / 8)).toNat.testBit (i % 8)

/-- The free map's file is open and has the bits of the free map. -/
structure Stored (fs : Fs) : Prop where
  holds : HoldsMap fs
  file : fs.freeMapFile = some freeMapInode
  agrees : ∀ i < fs.freeMap.bitCnt, fileBit fs.store.sectors i = fs.freeMap.get i

namespace HoldsMap

variable {fs fs' : Fs}

theorem pos (h : HoldsMap fs) : 0 < fs.store.size.toNat := by
  have := UInt32.lt_iff_toNat_lt.mp (h.ok.valid freeMapSector List.mem_cons_self)
  omega

theorem elemCnt_pos (h : HoldsMap fs) : 0 < elemCnt fs.store.size.toNat := by
  have hpos := h.pos
  have hsmall := h.small
  unfold elemCnt elemBits
  omega

theorem byteCnt_le (h : HoldsMap fs) : byteCnt fs.store.size.toNat ≤ 252 * 512 := by
  have hsmall := h.small
  unfold byteCnt elemCnt elemBits
  omega

theorem byte_lt (h : HoldsMap fs) {i : ℕ} (hi : i < fs.store.size.toNat) :
    i / 8 < byteCnt fs.store.size.toNat := by
  have hsmall := h.small
  unfold byteCnt elemCnt elemBits
  omega

theorem mapStored (h : HoldsMap fs) : MapStored fs freeMapInode :=
  ⟨rfl, h.ok, by rw [h.bitCnt_eq]; exact h.length_ge, by rw [h.bitCnt_eq]; exact h.byteCnt_le⟩

theorem congr (h : HoldsMap fs) (hstore : fs'.store = fs.store)
    (hcnt : fs'.freeMap.bitCnt = fs.freeMap.bitCnt) : HoldsMap fs' := by
  refine ⟨by rw [hcnt, hstore]; exact h.bitCnt_eq, by rw [hstore]; exact h.small, ?_,
    by rw [hstore]; exact h.length_ge⟩
  exact ⟨by rw [hstore]; exact h.ok.length_nonneg, by rw [hstore]; exact h.ok.nodup,
    by rw [hstore]; exact h.ok.valid⟩

end HoldsMap

/-- **`bitmap_read`** reads the bits of the file. -/
theorem bitmapRead_spec {fs : Fs} (h : HoldsMap fs) :
    Ensures diskHandler (bitmapRead freeMapInode) fs (fun r fs' =>
      r = true ∧ fs'.store = fs.store ∧ fs'.freeMap.bitCnt = fs.freeMap.bitCnt ∧
      ∀ i < fs.freeMap.bitCnt, fs'.freeMap.get i = fileBit fs.store.sectors i) := by
  have hread : Ensures diskHandler
      (inodeReadAt freeMapInode fs.freeMap.fileBytes (byteCnt fs.freeMap.bitCnt) (0 : ℕ)) fs _ :=
    inodeReadAt_spec (n := byteCnt fs.freeMap.bitCnt) fs.freeMap.fileBytes h.ok
      (by decide) (fun _ => by rw [h.bitCnt_eq, Nat.zero_add]; exact h.byteCnt_le)
      (by
        have hlen := h.length_ge
        rw [h.bitCnt_eq]
        change _ = min _ ((inodeAt fs.store.sectors freeMapSector).length.toInt.toNat - 0)
        omega)
  rw [bitmapRead, ensures_bind, ensures_getFreeMap, if_pos (by rw [h.bitCnt_eq]; exact h.pos),
    ensures_bind]
  refine hread.mono ?_
  rintro ⟨n, bytes⟩ fs' ⟨hn, hbytes, ht⟩
  dsimp only at hbytes
  rw [ensures_bind, ensures_setFreeMap, ensures_ret]
  refine ⟨decide_eq_true hn, ht.store_eq, rfl, fun i hi => ?_⟩
  have hbyte : i / 8 < byteCnt fs.freeMap.bitCnt := by
    rw [h.bitCnt_eq] at hi ⊢
    exact h.byte_lt hi
  have helem : 0 < elemCnt (fs.freeMap.ofBytes bytes).bitCnt := by
    change 0 < elemCnt fs.freeMap.bitCnt
    rw [h.bitCnt_eq]
    exact h.elemCnt_pos
  have hinside : i / 8 < 512 * blocksAt fs.store.sectors freeMapSector :=
    lt_of_lt_of_le (by rw [h.bitCnt_eq] at hbyte; exact hbyte) (h.ok.le_blocks h.length_ge)
  rw [Bitmap.get_maskLast _ helem hi, Bitmap.get_eq_testBit, Bitmap.fileBytes_ofBytes, fileBit,
    fileBytes, if_pos hinside, hbytes (i / 8) hbyte, Nat.zero_add]
  rfl

/-! ### The calls -/

section

variable {fs : Fs}

/-- After `bitmap_write` the file has the bits of the free map. -/
theorem bitmapWrite_stores (alloc : Prog fsSig (Option Sector)) (h : HoldsMap fs)
    (hfile : fs.freeMapFile = some freeMapInode) :
    Ensures diskHandler (bitmapWrite alloc fs.freeMap.bitCnt freeMapInode) fs (fun r fs' =>
      r = true ∧ Stored fs' ∧ fs'.freeMap = fs.freeMap) := by
  refine (bitmapWrite_stored alloc h.mapStored hfile).mono ?_
  rintro r fs' ⟨hr, ht, hsynced⟩
  have hmap : fs'.freeMap = fs.freeMap := ht.freeMap_eq
  have hfile' : fs'.freeMapFile = some freeMapInode := ht.freeMapFile_eq.trans hfile
  have hdata : mapData fs = dataSet fs.store.sectors freeMapSector := by
    ext t
    refine ⟨?_, fun hd => ⟨freeMapInode, hfile, hd⟩⟩
    rintro ⟨file, hf, hd⟩
    rw [hfile, Option.some.injEq] at hf
    rw [← hf] at hd
    exact hd
  rw [hdata] at ht
  obtain ⟨hdi, -, -, -, -, hok⟩ := h.ok.keeps ht
  have hholds : HoldsMap fs' := by
    refine ⟨by rw [hmap, ht.size]; exact h.bitCnt_eq, by rw [ht.size]; exact h.small, hok, ?_⟩
    rw [ht.size, hdi]
    exact h.length_ge
  refine ⟨hr, ⟨hholds, hfile', fun i hi => ?_⟩, hmap⟩
  have hbyte : i / 8 < byteCnt fs'.freeMap.bitCnt := by
    rw [hholds.bitCnt_eq] at hi ⊢
    exact hholds.byte_lt hi
  rw [fileBit, Bitmap.get_eq_testBit]
  exact congrArg (fun x : UInt8 => x.toNat.testBit (i % 8)) (hsynced _ hfile' _ hbyte)

/-- What every call asks of the writing of the free map. -/
theorem Stored.writes (h : Stored fs) (alloc : Prog fsSig (Option Sector)) (b : Bitmap)
    (hcnt : b.bitCnt = fs.freeMap.bitCnt) :
    Ensures diskHandler (bitmapWrite alloc b.bitCnt freeMapInode) { fs with freeMap := b }
      (fun r fs' => r = true ∧ Stored fs') := by
  have hholds : HoldsMap { fs with freeMap := b } := h.holds.congr rfl hcnt
  refine (bitmapWrite_stores alloc hholds h.file).mono ?_
  rintro r fs' ⟨hr, hstored, -⟩
  exact ⟨hr, hstored⟩

theorem all_of_release {σ : Type} {h : Handler callSig σ Fault} {depth cnt : ℕ} {s : Sector}
    {fs fs' : FsState σ} {u : Unit}
    (hrun : run (fsHandler h) (freeMapRelease depth s cnt) fs = .ok (u, fs')) :
    bitmapAll fs.freeMap s.toNat cnt = .ok true := by
  have hmap : run (fsHandler h) getFreeMap fs = .ok (fs.freeMap, fs) := rfl
  rw [freeMapRelease, run_bind, hmap] at hrun
  simp only [run_bind] at hrun
  cases hall : bitmapAll fs.freeMap s.toNat cnt with
  | error f => rw [hall] at hrun; cases hrun
  | ok all =>
    cases all with
    | false => rw [hall] at hrun; cases hrun
    | true => rfl

theorem mapCall_allocate (h : Stored fs) (depth cnt : ℕ) :
    Ensures diskHandler ((MapCall.allocate cnt).prog depth) fs (fun _ fs' => Stored fs') := by
  refine (freeMapAllocate_run (P := fun _ fs' => Stored fs') (fun file hfile b hcnt => ?_)
    (fun hnone => ?_) cnt).mono ?_
  · rw [h.file, Option.some.injEq] at hfile
    rw [← hfile]
    exact h.writes _ b hcnt
  · rw [h.file] at hnone
    cases hnone
  · rintro _ fs' (⟨_, _, -, hstored, -⟩ | ⟨-, rfl, -⟩)
    · exact hstored
    · exact h

theorem mapCall_release (h : Stored fs) (depth : ℕ) {r : SectorRun}
    (hall : bitmapAll fs.freeMap r.first.toNat r.cnt = .ok true) :
    Ensures diskHandler ((MapCall.release r).prog depth) fs (fun _ fs' => Stored fs') := by
  obtain ⟨hin, hmark⟩ := bitmapAll_true hall
  rw [MapCall.prog, ensures_bind]
  refine (freeMapRelease_run (P := fun _ fs' => Stored fs') h.file
    (fun b hcnt => h.writes _ b hcnt) hin hmark).mono ?_
  rintro _ fs' ⟨_, hstored, -⟩
  rw [ensures_ret]
  exact hstored

/-- **A step**: a call that returns leaves the file with the bits of the free map. -/
theorem mapCall_stored {depth : ℕ} {c : MapCall} {r : Option Sector} {fc fc' : FsState CacheState}
    (hrep : SameFs Represents fc fs) (h : Stored fs)
    (hrun : run (fsHandler cacheHandler) (c.prog depth) fc = .ok (r, fc')) :
    ∃ fs', SameFs Represents fc' fs' ∧ Stored fs' ∧ fs'.store.size = fs.store.size := by
  have hmap : fc.freeMap = fs.freeMap := by rw [hrep.rest]
  -- on the array of sectors the call returns as well
  have hstep : Ensures diskHandler (c.prog depth) fs (fun _ fs' => Stored fs') := by
    cases c with
    | allocate cnt => exact mapCall_allocate h depth cnt
    | release r =>
      rw [MapCall.prog, run_bind] at hrun
      cases hrel : run (fsHandler cacheHandler) (freeMapRelease depth r.first r.cnt) fc with
      | error f => rw [hrel] at hrun; cases hrun
      | ok q => exact mapCall_release h depth (hmap ▸ all_of_release hrel)
  obtain ⟨r', fs', hrun', hstored, hsize⟩ := hstep.and_always (always_size _ fs)
  obtain ⟨fc'', hrun'', hrep'⟩ := run_on_cache _ hrep hrun'
  rw [hrun] at hrun''
  obtain ⟨-, rfl⟩ := Prod.mk.inj (Except.ok.inj hrun'')
  exact ⟨fs', hrep', hstored, hsize⟩

end

/-! ### Shutdown and start -/

section

variable {fc : FsState CacheState} {fs : Fs}

/-- **`free_map_open`** succeeds and reads the bits of the file. -/
theorem freeMapOpen_spec (hrep : SameFs Represents fc fs) (h : HoldsMap fs) :
    ∃ fc' fs', freeMapOpen fc = .ok fc' ∧ SameFs Represents fc' fs' ∧ Stored fs' ∧
      fs'.store = fs.store := by
  have hrep1 : SameFs Represents { fc with freeMapFile := some freeMapInode }
      { fs with freeMapFile := some freeMapInode } := ⟨hrep.store, by rw [hrep.rest]⟩
  have h1 : HoldsMap { fs with freeMapFile := some freeMapInode } := h.congr rfl rfl
  obtain ⟨r, fs', hrun, ⟨rfl, hstore, hcnt, hget⟩, hfile⟩ :=
    (bitmapRead_spec h1).and_always (always_freeMapFile _ _)
  obtain ⟨fc', hrun', hrep'⟩ := run_on_cache _ hrep1 hrun
  refine ⟨fc', fs', ?_, hrep', ⟨h1.congr hstore hcnt, hfile, fun i hi => ?_⟩, hstore⟩
  · rw [freeMapOpen, hrun']
    rfl
  · rw [hstore, hget i (hcnt ▸ hi)]

/-- **`filesys_done`** leaves the sectors on the device. -/
theorem filesysDone_spec (depth : ℕ) (hrep : SameFs Represents fc fs)
    (hfile : fs.freeMapFile = some freeMapInode) :
    ∃ fc', filesysDone depth fc = .ok fc' ∧ fc'.store.disk = fs.store := by
  have hclose : freeMapClose depth fc = .ok fc := by
    have hfile' : fc.freeMapFile = some freeMapInode := by rw [hrep.rest]; exact hfile
    rw [freeMapClose, hfile']
    rfl
  obtain ⟨st, hsync, -, hsize, -, hdisk⟩ := coherent_cacheSync hrep.store.coherent
  refine ⟨{ fc with store := st }, ?_, ?_⟩
  · rw [filesysDone, hclose]
    change Except.bind (cacheSync fc.store) _ = _
    rw [hsync]
    rfl
  · exact Disk.ext (hsize.trans hrep.store.size) (hdisk.trans hrep.store.view)

section

variable (memory : ℕ → BitVec elemBits) (boot : FsState CacheState) (h : HoldsMap fs)
  (hdisk : boot.store.disk = fs.store)

include h hdisk

/-- **`filesys_init`** starts with a cache that represents the device. -/
theorem filesysInit_represents : ∃ fc' fs', filesysInit memory boot = .ok fc' ∧
    SameFs Represents fc' fs' ∧ Stored fs' ∧ fs'.store = fs.store := by
  obtain ⟨b, hb⟩ : ∃ b, freeMapInit memory boot.store.disk.size = some b :=
    freeMapInit_ok memory (by rw [hdisk]; exact h.elemCnt_pos)
  have hcnt : b.bitCnt = fs.freeMap.bitCnt := by
    rw [(freeMapInit_spec hb).1, hdisk, h.bitCnt_eq]
  -- the state in which `free_map_open` is called, on the cache and on the array of sectors
  let fc0 : FsState CacheState :=
    { boot with store := ⟨boot.store.cache.init, boot.store.disk⟩, freeMap := b }
  let fs0 : Fs := { boot with store := fs.store, freeMap := b }
  have hrep : SameFs Represents fc0 fs0 := ⟨hdisk ▸ represents_init _ _, rfl⟩
  obtain ⟨fc', fs', hopen, hrest⟩ := freeMapOpen_spec hrep (h.congr rfl hcnt)
  exact ⟨fc', fs', by simp only [filesysInit, hb]; exact hopen, hrest⟩

/-- It reads the bits of the free map's file. -/
theorem filesysInit_spec : ∃ fc', filesysInit memory boot = .ok fc' ∧
    fc'.freeMap.bitCnt = fs.freeMap.bitCnt ∧
      ∀ i < fs.freeMap.bitCnt, fc'.freeMap.get i = fileBit fs.store.sectors i := by
  obtain ⟨fc', fs', hinit, hrep', hstored, hstore⟩ := filesysInit_represents memory boot h hdisk
  have hmap : fc'.freeMap = fs'.freeMap := by rw [hrep'.rest]
  have hcnt' : fs'.freeMap.bitCnt = fs.freeMap.bitCnt := by
    rw [hstored.holds.bitCnt_eq, hstore, h.bitCnt_eq]
  refine ⟨fc', hinit, by rw [hmap, hcnt'], fun i hi => ?_⟩
  rw [hmap, ← hstored.agrees i (hcnt' ▸ hi), hstore]

end

/-- **The file system survives a restart**: what its functions do on the array of sectors they do on
the cache, and from the device that `filesys_done` leaves `filesys_init` starts with a cache of the
same sectors, if they still hold a free map's file. -/
theorem filesys_survives {α : Type} {a : α} {fs' : Fs} (depth : ℕ) (p : Prog fsSig α)
    (hrep : SameFs Represents fc fs) (hfile : fs.freeMapFile = some freeMapInode)
    (hrun : run diskHandler p fs = .ok (a, fs')) (hmap : HoldsMap fs') :
    ∃ fc₁ fc₂, run (fsHandler cacheHandler) p fc = .ok (a, fc₁) ∧
      filesysDone depth fc₁ = .ok fc₂ ∧ ∀ memory boot, boot.store.disk = fc₂.store.disk →
        ∃ fc₃ fs₃, filesysInit memory boot = .ok fc₃ ∧ SameFs Represents fc₃ fs₃ ∧
          Stored fs₃ ∧ fs₃.store = fs'.store := by
  obtain ⟨fc₁, hrun1, hrep1⟩ := run_on_cache p hrep hrun
  obtain ⟨fc₂, hdone, hdisk⟩ :=
    filesysDone_spec depth hrep1 ((always_freeMapFile p fs _ _ hrun).trans hfile)
  exact ⟨fc₁, fc₂, hrun1, hdone, fun memory boot hboot =>
    filesysInit_represents memory boot hmap (hboot.trans hdisk)⟩

end

/-- **The free map persists**: on every device with a free map's file within 252 sectors, after
`free_map_open` and every sequence of calls that return, `filesys_done` succeeds, and
`filesys_init` on the device it leaves reads back every bit of the free map. -/
theorem freeMap_persists (depth : ℕ) (fs : Fs) (fc fc₀ fc₁ : FsState CacheState)
    (past : List (MapCall × Option Sector)) (hrep : SameFs Represents fc fs) (hmap : HoldsMap fs)
    (hopen : freeMapOpen fc = .ok fc₀)
    (hcalls : Interaction.Reaches (fsHandler cacheHandler) (MapCall.prog depth) (fun _ _ _ => True)
      fc₀ past fc₁) :
    ∃ fc₂, filesysDone depth fc₁ = .ok fc₂ ∧
      ∀ memory boot, boot.store.disk = fc₂.store.disk →
        ∃ fc₃, filesysInit memory boot = .ok fc₃ ∧
          ∀ i < fs.store.size.toNat, fc₃.freeMap.get i = fc₁.freeMap.get i := by
  obtain ⟨fc', fs0, hopen', hrep0, hstored0, hstore0⟩ := freeMapOpen_spec hrep hmap
  rw [hopen] at hopen'
  obtain rfl := Except.ok.inj hopen'
  obtain ⟨fs1, hrep1, hstored1, hsize⟩ :
      ∃ fs1, SameFs Represents fc₁ fs1 ∧ Stored fs1 ∧ fs1.store.size = fs.store.size := by
    refine hcalls.invariant (I := fun _ fc => ∃ fs1, SameFs Represents fc fs1 ∧ Stored fs1 ∧
      fs1.store.size = fs.store.size) ⟨fs0, hrep0, hstored0, by rw [hstore0]⟩ ?_
    rintro _ _ c ⟨fs1, hrep1, hstored1, hsize⟩ - r fc₂ hrun
    obtain ⟨fs2, hrep2, hstored2, hsize2⟩ := mapCall_stored hrep1 hstored1 hrun
    exact ⟨fs2, hrep2, hstored2, hsize2.trans hsize⟩
  obtain ⟨fc₂, hdone, hdisk⟩ := filesysDone_spec depth hrep1 hstored1.file
  refine ⟨fc₂, hdone, fun memory boot hboot => ?_⟩
  obtain ⟨fc₃, hinit, -, hget⟩ := filesysInit_spec memory boot hstored1.holds (hboot.trans hdisk)
  have hmap1 : fc₁.freeMap = fs1.freeMap := by rw [hrep1.rest]
  refine ⟨fc₃, hinit, fun i hi => ?_⟩
  have hi' : i < fs1.freeMap.bitCnt := by
    rw [hstored1.holds.bitCnt_eq, hsize]
    exact hi
  rw [hget i hi', hstored1.agrees i hi', hmap1]

theorem holdsMap_tailFs : HoldsMap tailFs :=
  ⟨rfl, by decide, wellFormed_tailFs.fileOk (by decide), by
    change _ ≤ (inodeAt tailFs.store.sectors 0).length.toInt
    rw [inodeAt_tailFs_map]
    decide⟩

theorem filesys_survives_read : ∃ fc fc₁ fc₂, run (fsHandler cacheHandler) (cacheRead 3) fc =
    .ok (tailFs.store.sectors 3, fc₁) ∧ filesysDone 0 fc₁ = .ok fc₂ := by
  have hrep : SameFs Represents { tailFs with store := ⟨BlockCache.zeroed.init, tailFs.store⟩ }
      tailFs := ⟨represents_init _ _, rfl⟩
  obtain ⟨fc₁, fc₂, hread, hdone, -⟩ :=
    filesys_survives 0 (cacheRead 3) hrep rfl rfl (holdsMap_tailFs.congr rfl rfl)
  exact ⟨_, fc₁, fc₂, hread, hdone⟩

/-- On a device of eight sectors, of which not all bits of the one element count, with an
allocation. -/
theorem freeMap_persists_eight : ∃ fc₀ fc₁ fc₂ r,
    freeMapOpen { tailFs with store := ⟨BlockCache.zeroed.init, tailFs.store⟩ } = .ok fc₀ ∧
    run (fsHandler cacheHandler) ((MapCall.allocate 1).prog 0) fc₀ = .ok (r, fc₁) ∧
    filesysDone 0 fc₁ = .ok fc₂ ∧ ∀ memory boot, boot.store.disk = fc₂.store.disk →
      ∃ fc₃, filesysInit memory boot = .ok fc₃ ∧
        ∀ i < 8, fc₃.freeMap.get i = fc₁.freeMap.get i := by
  have hrep : SameFs Represents { tailFs with store := ⟨BlockCache.zeroed.init, tailFs.store⟩ }
      tailFs := ⟨represents_init _ _, rfl⟩
  obtain ⟨fc₀, fs0, hopen, hrep0, hstored0, -⟩ := freeMapOpen_spec hrep holdsMap_tailFs
  obtain ⟨r, fs1, hrun, -⟩ := mapCall_allocate hstored0 0 1
  obtain ⟨fc₁, hrun1, -⟩ := run_on_cache _ hrep0 hrun
  obtain ⟨fc₂, hdone, hinit⟩ := freeMap_persists 0 tailFs _ fc₀ fc₁ [(.allocate 1, r)] hrep
    holdsMap_tailFs hopen (.call .start trivial hrun1)
  exact ⟨fc₀, fc₁, fc₂, r, hopen, hrun1, hdone, hinit⟩

end Pintos.Fs

import Pintos.FileVectors
import Pintos.InodeRemove
import Pintos.Interference

/-! # Two writers of one file

Two calls of `inode_write_at` for one inode, which take turns at every access to the cache and to
the free map.

* A write inside the file reads the inode and its indirect block, and writes its own blocks and the
  inode as it is (`within_inodeWriteAt`).  Two such writes without a common block can be
  interleaved in every way.
* A write that makes the file longer writes back a copy of the inode, and a write to a block that
  another one writes to writes back a copy of the block.  Such writes lose nothing if one is made
  after the other (`writers_lose_nothing`); they do if they are interleaved
  (`writers_lose_length`). -/

namespace Pintos.Fs

open Interaction Interleaving List Paging

/-! ### What a write inside the file accesses -/

/-- The write of `size` bytes at `off` goes to block `n`. -/
def Covers (off size n : ℕ) : Prop := off / 512 ≤ n ∧ n * 512 < off + size

/-- Only sectors in `W` have changed. -/
structure SameOff (W : Set Sector) (fs fs' : Fs) : Prop where
  size : fs'.store.size = fs.store.size
  sectors : ∀ t, t ∉ W → fs'.store.sectors t = fs.store.sectors t

/-- The calls of a thread that writes to sectors in `W`, when others write to `V`. -/
def footprint (W V : Set Sector) : FsOp → Fs → Prop
  | .cacheRead t, _ => t ∉ V
  | .cacheWrite t b, fs => t ∉ V ∧ (t ∈ W ∨ b = fs.store.sectors t)
  | .fault _, _ => True
  | _, _ => False

variable {fs' : Fs} {s : Sector} {n off size : ℕ}

section

variable {W V : Set Sector} {fs : Fs} {inode : Inode}

theorem within_index {a : Fin n → UInt32} {i : ℤ} :
    Within diskHandler (footprint W V) (index a i) fs := by
  unfold index
  split_ifs
  · exact .ret _ _
  · exact .op trivial fun r => r.elim

theorem within_cacheRead (hs : s ∉ V) :
    Within diskHandler (footprint W V) (cacheRead s) fs := within_call hs

theorem within_cacheWrite {b : Block} (hs : s ∉ V) (hb : s ∈ W ∨ b = fs.store.sectors s) :
    Within diskHandler (footprint W V) (cacheWrite s b) fs := within_call ⟨hs, hb⟩

theorem within_readSector {i : ℤ} (hs : s ∉ V) :
    Within diskHandler (footprint W V) (readSector s i) fs :=
  within_bind (within_cacheRead hs) (always_cacheRead within_index)

theorem within_byteToSector {pos : ℕ} (hs : inode.sector ∉ V) (hpos : pos / 512 < 252)
    (hindex : 124 ≤ pos / 512 → (inodeAt fs.store.sectors inode.sector).indirect ∉ V) :
    Within diskHandler (footprint W V) (byteToSector inode pos) fs := by
  refine within_bind (within_cacheRead hs) (always_cacheRead ?_)
  have hp2 : (pos : ℤ) < (124 + 128) * 512 := by omega
  dsimp only
  split_ifs with hlen h1
  · exact within_index
  · exact within_readSector (hindex (by omega))
  · exact .ret _ _

theorem within_writeChunk {bytes : ℕ → UInt8} {ofs chunk left : ℤ} (hs : s ∉ V) (hW : s ∈ W) :
    Within diskHandler (footprint W V) (writeChunk s bytes ofs chunk left) fs := by
  have hwrite : ∀ (b : Block) (fs : Fs),
      Within diskHandler (footprint W V) (cacheWrite s b) fs :=
    fun b fs => within_cacheWrite hs (.inl hW)
  unfold writeChunk cacheWriteBytes
  split_ifs
  · exact hwrite _ _
  · refine within_bind ?_ fun bounce fs' _ => hwrite _ _
    unfold writeBounce
    split_ifs
    · exact within_cacheRead hs
    · exact .ret _ _
  · refine within_bind ?_ fun bounce fs' _ => .op trivial fun r => r.elim
    unfold writeBounce
    split_ifs
    · exact within_cacheRead hs
    · exact .ret _ _

theorem within_inodeLength (hs : inode.sector ∉ V) :
    Within diskHandler (footprint W V) (inodeLength inode) fs :=
  within_bind (within_cacheRead hs) fun _ _ _ => .ret _ _

/-- The thread that writes `size` bytes at `off` of the inode writes to sectors in `W` only, and
others write to none of the sectors that it accesses. -/
structure Owns (W V : Set Sector) (fs : Fs) (s : Sector) (off size : ℕ) : Prop where
  sector : s ∉ V
  index : ∀ t ∈ indexSectors fs.store.sectors (inodeAt fs.store.sectors s)
    (blocksAt fs.store.sectors s), t ∉ V
  blocks : ∀ n, Covers off size n →
    mapSector fs.store.sectors (inodeAt fs.store.sectors s) n ∈ W ∧
      mapSector fs.store.sectors (inodeAt fs.store.sectors s) n ∉ V

theorem Covers.lt (hn : Covers off size n) (hfile : FileOk fs inode.sector)
    (hlen : ((off + size : ℕ) : ℤ) ≤ (inodeAt fs.store.sectors inode.sector).length.toInt) :
    n < blocksAt fs.store.sectors inode.sector := by
  have := hfile.le_blocks hlen
  have := hn.2
  omega

theorem Owns.keeps {T : Set Sector} (h : Owns W V fs inode.sector off size)
    (hfile : FileOk fs inode.sector)
    (hlen : ((off + size : ℕ) : ℤ) ≤ (inodeAt fs.store.sectors inode.sector).length.toInt)
    (ht : Touches (dataSet fs.store.sectors inode.sector) T fs fs') :
    Owns W V fs' inode.sector off size := by
  obtain ⟨hdi, hn, -, -, hmap, -⟩ := hfile.keeps ht
  have hindex : indexSectors fs'.store.sectors (inodeAt fs.store.sectors inode.sector)
        (blocksAt fs.store.sectors inode.sector) =
      indexSectors fs.store.sectors (inodeAt fs.store.sectors inode.sector)
        (blocksAt fs.store.sectors inode.sector) :=
    indexSectors_congr fun t hmem => ht.sectors t (hfile.index_notMem hmem)
  refine ⟨h.sector, ?_, fun n hcov => ?_⟩
  · rw [hdi, hn, hindex]
    exact h.index
  · rw [hmap n (hcov.lt hfile hlen)]
    exact h.blocks n hcov

theorem within_writeLoop (f : ℕ → UInt8) : ∀ (fuel : ℕ) (fs : Fs) (size off w : ℕ),
    FileOk fs inode.sector → size ≤ fuel → off + size ≤ 252 * 512 →
    ((off + size : ℕ) : ℤ) ≤ (inodeAt fs.store.sectors inode.sector).length.toInt →
    Owns W V fs inode.sector off size →
    Within diskHandler (footprint W V) (writeLoop inode (.bytes f) fuel size off w) fs := by
  intro fuel
  induction fuel with
  | zero =>
    intro fs size off w _ _ _ _ _
    exact .ret _ _
  | succ fuel ih =>
    intro fs size off w hfile hfuel hmax hlen hown
    rw [writeLoop]
    by_cases hsize : size = 0
    · rw [hsize, if_neg (by simp)]
      exact .ret _ _
    obtain ⟨chunk, hchunk⟩ : ∃ chunk, chunk = min size (512 - off % 512) := ⟨_, rfl⟩
    have hn : off / 512 < blocksAt fs.store.sectors inode.sector := div_lt_blockCount (by omega)
    obtain ⟨hW, hV⟩ := hown.blocks (off / 512) ⟨le_rfl, by omega⟩
    have hsec : mapSector fs.store.sectors (inodeAt fs.store.sectors inode.sector) (off / 512) ∈
        dataSet fs.store.sectors inode.sector := mapSector_mem_dataSectors _ _ hn
    have hindex : 124 ≤ off / 512 → (inodeAt fs.store.sectors inode.sector).indirect ∉ V :=
      fun h1 => hown.index _ (indirect_mem_indexSectors _ _ (by omega))
    rw [if_pos (by omega)]
    -- the sector of the block, and the length of the file
    refine within_bind (within_byteToSector hown.sector (by omega) hindex)
      ((byteToSector_spec (T := treeSet fs.store.sectors inode.sector) hfile.sector_lt
        mem_cons_self (by omega) (by omega) (hfile.indirect_lt hn)).always.mono ?_)
    rintro _ fs1 ⟨rfl, h1⟩
    have hst := h1.store_eq
    have hlt : inode.sector < fs1.store.size := by
      rw [hst]
      exact hfile.sector_lt
    have hlength : Ensures diskHandler (inodeLength inode) fs1 (fun length fs2 =>
        length = (inodeAt fs.store.sectors inode.sector).length.toInt ∧
          fs2 = touch fs1 inode.sector) :=
      (ensures_inodeLength hlt).mpr ⟨by rw [hst], rfl⟩
    refine within_bind (within_inodeLength hown.sector) (hlength.always.mono ?_)
    rintro _ _ ⟨rfl, rfl⟩
    have hchunk' : chunkSize size ((inodeAt fs.store.sectors inode.sector).length.toInt - off)
        (512 - (off % 512 : ℕ)) = (chunk : ℤ) := by
      rw [chunkSize_eq (by omega), hchunk]
      omega
    simp only [tmod_512, hchunk']
    rw [if_neg (by omega)]
    refine within_bind (.ret f _) (always_ret ?_)
    -- the part of the block
    have hlt := hfile.map_lt_touch hn hst inode.sector
    refine within_bind (within_writeChunk hV hW)
      ((writeChunk_spec hlt (off % 512) chunk (by omega) _).always.mono ?_)
    rintro _ fs2 ⟨-, h2⟩
    have h02 : Touches (dataSet fs.store.sectors inode.sector)
        (treeSet fs.store.sectors inode.sector) fs fs2 :=
      ((h1.mono (Set.empty_subset _) subset_rfl).touch mem_cons_self).trans
        (h2.mono (Set.singleton_subset_iff.mpr hsec)
          (Set.singleton_subset_iff.mpr (FileOk.data_subset _ _ hsec)))
    obtain ⟨hdi, -, -, -, -, hfile2⟩ := hfile.keeps h02
    rw [show (size : ℤ) - chunk = ((size - chunk : ℕ) : ℤ) by omega, ← Nat.cast_add,
      ← Nat.cast_add]
    refine ih fs2 (size - chunk) (off + chunk) (w + chunk) hfile2 (by omega) (by omega)
      (by rw [hdi]; omega) ?_
    have hown2 := hown.keeps hfile hlen h02
    exact ⟨hown2.sector, hown2.index, fun n hcov => hown2.blocks n
      ⟨le_trans (Nat.div_le_div_right (by omega)) hcov.1, by have := hcov.2; omega⟩⟩

/-- **A write inside the file** accesses its inode, its index blocks and its own blocks. -/
theorem within_inodeWriteAt (alloc : Prog fsSig (Option Sector)) (f : ℕ → UInt8)
    (hfile : FileOk fs inode.sector) (hdeny : inode.denyWriteCnt = 0)
    (hmax : off + size ≤ 252 * 512)
    (hlen : ((off + size : ℕ) : ℤ) ≤ (inodeAt fs.store.sectors inode.sector).length.toInt)
    (hown : Owns W V fs inode.sector off size) :
    Within diskHandler (footprint W V) (inodeWriteAt alloc inode (.bytes f) size off) fs := by
  have hs : inode.sector ∈ treeSet fs.store.sectors inode.sector := mem_cons_self
  have h1 : Touches (dataSet fs.store.sectors inode.sector)
      (treeSet fs.store.sectors inode.sector) fs
      (put (touch fs inode.sector) inode.sector (fs.store.sectors inode.sector)) :=
    ((Touches.refl _ _ fs).touch hs).put (.inr rfl) hs
  obtain ⟨hdi, -, -, hdata, -, hfile1⟩ := hfile.keeps h1
  rw [inodeWriteAt, if_neg (not_not.mpr hdeny), wrap_add (by omega)]
  refine within_bind (within_cacheRead hown.sector) (always_cacheRead ?_)
  rw [addInode_inside alloc (Int.natCast_nonneg _) hlen]
  refine within_bind (.ret _ _) (always_ret ?_)
  rw [InodeDisk.encode_decode]
  refine within_bind (within_cacheWrite hown.sector (.inr rfl)) (always_cacheWrite ?_)
  have hlen1 := hdi ▸ hlen
  have hloop := writeLoop_spec inode (.bytes f) size _ size off 0 hfile1 le_rfl hmax hlen1
  have hwithin := within_writeLoop f size _ size off 0 hfile1 le_rfl hmax hlen1
    (hown.keeps hfile hlen h1)
  refine within_bind hwithin (hloop.always.mono ?_)
  rintro r fs2 ⟨-, h2, -⟩
  have hsame : fs.store.sectors inode.sector = fs2.store.sectors inode.sector := by
    rw [h2.sectors _ (by rw [hdata]; exact hfile.sector_notMem)]
    exact (h1.sectors _ hfile.sector_notMem).symm
  exact within_bind (within_cacheWrite hown.sector (.inr hsame)) fun _ _ _ => .ret _ _

end

/-- The calls of two threads that write to different sectors do not disturb each other. -/
theorem local_footprint (W : Bool → Set Sector) :
    Local diskHandler (fun i => footprint (W i) (W !i)) (fun i => SameOff (W !i)) := by
  intro i e fs ft r fs' hA hR he
  cases e with
  | cacheRead t =>
    have hlt : t < fs.store.size := by
      by_contra hge
      rw [diskHandler_read_error (UInt32.not_lt.mp hge)] at he
      cases he
    rw [diskHandler_read hlt] at he
    cases he
    refine ⟨touch ft t, ?_, ⟨hR.size, hR.sectors⟩, fun j _ u hu => ⟨hu.size, hu.sectors⟩⟩
    rw [diskHandler_read (by rw [hR.size]; exact hlt), hR.sectors t hA]
  | cacheWrite t b =>
    have hlt : t < fs.store.size := by
      by_contra hge
      rw [diskHandler_write_error (UInt32.not_lt.mp hge)] at he
      cases he
    rw [diskHandler_write hlt] at he
    cases he
    refine ⟨put ft t b, diskHandler_write (by rw [hR.size]; exact hlt) b, ⟨hR.size, fun x hx => ?_⟩,
      fun j hj u hu => ⟨hu.size, fun x hx => ?_⟩⟩
    · rcases eq_or_ne x t with rfl | hne
      · rw [put_sectors_self, put_sectors_self]
      · rw [put_sectors_of_ne _ _ hne, put_sectors_of_ne _ _ hne]
        exact hR.sectors x hx
    · obtain rfl : i = !j := Bool.eq_not_of_ne hj.symm
      rcases eq_or_ne x t with rfl | hne
      · -- a sector of the other thread is written as it is
        rw [put_sectors_self, (hA.2.resolve_left hx), ← hR.sectors x hA.1]
        exact hu.sectors x hx
      · rw [put_sectors_of_ne _ _ hne]
        exact hu.sectors x hx
  | fault f => cases he
  | freeMap | setFreeMap b | freeMapFile | uninit | address | pastZeros => exact hA.elim

/-! ### The two calls -/

structure WriteArgs where
  bytes : ℕ → UInt8
  size : ℕ
  offset : ℕ

/-- Where the write ends. -/
def WriteArgs.stop (a : WriteArgs) : ℕ := a.offset + a.size

def writer (depth : ℕ) (inode : Inode) (a : WriteArgs) : Prog fsSig ℤ :=
  inodeWriteAt (freeMapAllocate (depth + 1) 1) inode (.bytes a.bytes) a.size a.offset

/-- The inode in sector `s` of `fs'`, after the two writes that started on `fs`. -/
structure NothingLost (fs fs' : Fs) (s : Sector) (a : Bool → WriteArgs) : Prop where
  length : (inodeAt fs'.store.sectors s).length.toInt =
    max (inodeAt fs.store.sectors s).length.toInt (max (a true).stop (a false).stop : ℕ)
  bytes : ∀ i k, k < (a i).size →
    ¬ ((a !i).offset ≤ (a i).offset + k ∧ (a i).offset + k < (a !i).stop) →
    fileBytes fs'.store.sectors s ((a i).offset + k) = (a i).bytes k
  map_inj : ∀ m < blocksAt fs'.store.sectors s, ∀ n < blocksAt fs'.store.sectors s,
    mapSector fs'.store.sectors (inodeAt fs'.store.sectors s) m =
      mapSector fs'.store.sectors (inodeAt fs'.store.sectors s) n → m = n

/-- Both writes end inside the file, and go to different blocks of it. -/
structure Apart (fs : Fs) (s : Sector) (a : Bool → WriteArgs) : Prop where
  inside : ∀ i, ((a i).stop : ℤ) ≤ (inodeAt fs.store.sectors s).length.toInt
  blocks : ∀ n, ¬ (Covers (a true).offset (a true).size n ∧ Covers (a false).offset (a false).size n)

section

variable {depth : ℕ} {fs : Fs} {inode : Inode} {a : Bool → WriteArgs}

/-- The sectors that a write goes to. -/
def targets (fs : Fs) (s : Sector) (a : WriteArgs) : Set Sector :=
  { t | ∃ n, Covers a.offset a.size n ∧
    mapSector fs.store.sectors (inodeAt fs.store.sectors s) n = t }

theorem Apart.not_both (h : Apart fs inode.sector a) (i : Bool)
    (hi : Covers (a i).offset (a i).size n) : ¬ Covers (a !i).offset (a !i).size n := by
  intro hj
  cases i with
  | true => exact h.blocks n ⟨hi, hj⟩
  | false => exact h.blocks n ⟨hj, hi⟩

theorem Apart.notMem_targets (h : Apart fs inode.sector a) (hfile : FileOk fs inode.sector)
    (i : Bool) (hi : Covers (a i).offset (a i).size n) :
    mapSector fs.store.sectors (inodeAt fs.store.sectors inode.sector) n ∉
      targets fs inode.sector (a !i) := by
  rintro ⟨m, hm, heq⟩
  obtain rfl := hfile.map_inj m (hm.lt hfile (h.inside !i)) n (hi.lt hfile (h.inside i)) heq
  exact h.not_both i hi hm

theorem targets_subset (hfile : FileOk fs inode.sector) {a : WriteArgs}
    (hlen : (a.stop : ℤ) ≤ (inodeAt fs.store.sectors inode.sector).length.toInt) :
    targets fs inode.sector a ⊆ dataSet fs.store.sectors inode.sector := by
  rintro _ ⟨n, hn, rfl⟩
  exact mapSector_mem_dataSectors _ _ (hn.lt hfile hlen)

theorem Apart.owns (h : Apart fs inode.sector a) (hfile : FileOk fs inode.sector) (i : Bool) :
    Owns (targets fs inode.sector (a i)) (targets fs inode.sector (a !i)) fs inode.sector
      (a i).offset (a i).size := by
  have hsub := targets_subset hfile (h.inside !i)
  exact ⟨fun hs => hfile.sector_notMem (hsub hs), fun t ht hs => hfile.index_notMem ht (hsub hs),
    fun n hn => ⟨⟨n, hn, rfl⟩, h.notMem_targets hfile i hn⟩⟩

theorem Apart.nothingLost (h : Apart fs inode.sector a) (hfile : FileOk fs inode.sector)
    (hends : ∀ i, ∃ u T, Touches (dataSet fs.store.sectors inode.sector) T fs u ∧
      fileBytes u.store.sectors inode.sector =
        overwrite (fileBytes fs.store.sectors inode.sector) (a i).offset (a i).size (a i).bytes ∧
      SameOff (targets fs inode.sector (a !i)) u fs') : NothingLost fs fs' inode.sector a := by
  obtain ⟨u, T, ht, -, hsame⟩ := hends true
  have hsub := targets_subset hfile (h.inside false)
  -- neither write changes the inode or an index block
  have hsize : fs'.store.size = fs.store.size := hsame.size.trans ht.size
  obtain ⟨hdi, hn, -, -, hmap, hfile'⟩ := hfile.congr hsize
    fun t _ hd => (hsame.sectors t fun hin => hd (hsub hin)).trans (ht.sectors t hd)
  refine ⟨?_, fun i k hk _ => ?_, hfile'.map_inj⟩
  · rw [hdi, max_eq_left]
    have h1 := h.inside true
    have h2 := h.inside false
    omega
  · obtain ⟨v, T', ht', hbytes, hsame'⟩ := hends i
    obtain ⟨hdi', hn', -, -, hmap', -⟩ := hfile.keeps ht'
    have hcov : Covers (a i).offset (a i).size (((a i).offset + k) / 512) :=
      ⟨Nat.div_le_div_right (by omega), by omega⟩
    have hlt := hcov.lt hfile (h.inside i)
    have hp : (a i).offset + k < 512 * blocksAt fs.store.sectors inode.sector := by omega
    have hv := congrFun hbytes ((a i).offset + k)
    rw [fileBytes, hn', if_pos hp, flat, hmap' _ hlt, overwrite, if_pos (by omega),
      Nat.add_sub_cancel_left] at hv
    rw [fileBytes, hn, if_pos hp, flat, hmap _ hlt, hsame'.sectors _ (h.notMem_targets hfile i hcov),
      hv]

/-! ### One write after the other -/

theorem Affords.mono {m : ℕ} (h : Affords fs n) (hmn : m ≤ n) : Affords fs m :=
  ⟨hmn.trans h.1, fun hm => h.2 (by omega)⟩

theorem blockCount_max (m n : ℕ) : blockCount (max m n : ℕ) = max (blockCount m) (blockCount n) := by
  simp only [blockCount_natCast]
  omega

theorem sectorsNeeded_max (c t1 t2 : ℕ) :
    sectorsNeeded c (max c t1) + sectorsNeeded (max c t1) t2 ≤ sectorsNeeded c (max t1 t2) := by
  have h1 : indexCount c ≤ indexCount (max c t1) := indexCount_mono (le_max_left _ _)
  unfold sectorsNeeded
  rcases le_total t2 (max c t1) with h2 | h2
  · have h3 := indexCount_mono h2
    have h4 : indexCount (max c t1) - indexCount c ≤ indexCount (max t1 t2) - indexCount c := by
      rcases le_total c t1 with hc | hc
      · rw [max_eq_right hc]
        exact Nat.sub_le_sub_right (indexCount_mono (le_max_left _ _)) _
      · rw [max_eq_left hc]
        omega
    omega
  · have h3 := indexCount_mono h2
    have h4 : max t1 t2 = t2 := by omega
    rw [h4]
    omega

theorem Extends.length_eq {L : List Sector} (h : Extends fs fs' s (treeOf fs.store.sectors s) L)
    (hle : blocksAt fs.store.sectors s ≤ blocksAt fs'.store.sectors s) :
    L.length = sectorsNeeded (blocksAt fs.store.sectors s) (blocksAt fs'.store.sectors s) := by
  have hlen := h.tree.length_eq
  have hmono := indexCount_mono hle
  simp only [treeOf, length_cons, length_append, length_indexSectors,
    length_dataSectors] at hlen
  unfold sectorsNeeded
  omega

theorem writers_in_sequence (depth : ℕ) {inodes : List Sector} (hwf : WellFormed fs inodes)
    (hs : inode.sector ∈ inodes) (hclient : Client fs inode.sector) (hdeny : inode.denyWriteCnt = 0)
    (hmax : ∀ i, (a i).stop ≤ 252 * 512)
    (hafford : Affords fs (sectorsNeeded (blocksAt fs.store.sectors inode.sector)
      (blockCount (max (a true).stop (a false).stop : ℕ)))) (i : Bool) :
    Ensures diskHandler (writer depth inode (a i)) fs (fun _ fs1 =>
      Ensures diskHandler (writer depth inode (a !i)) fs1 (fun _ fs2 =>
        NothingLost fs fs2 inode.sector a)) := by
  have hfile := hwf.fileOk hs
  have hstops : max (a true).stop (a false).stop = max (a i).stop (a !i).stop := by
    cases i with
    | true => rfl
    | false => exact max_comm _ _
  rw [hstops, blockCount_max] at hafford
  have hneeded := sectorsNeeded_max (blocksAt fs.store.sectors inode.sector)
    (blockCount (a i).stop) (blockCount (a !i).stop)
  have hfirst : sectorsNeeded (blocksAt fs.store.sectors inode.sector) (blockCount (a i).stop) ≤
      sectorsNeeded (blocksAt fs.store.sectors inode.sector)
        (max (blocksAt fs.store.sectors inode.sector) (blockCount (a i).stop)) := by
    have := indexCount_mono (le_max_right (blocksAt fs.store.sectors inode.sector)
      (blockCount (a i).stop))
    unfold sectorsNeeded
    omega
  refine (inodeWriteAt_spec hwf hs hclient hdeny (hmax i) (freeMapAllocate_spec depth)
    (hafford.mono (hfirst.trans (by omega)))).mono ?_
  rintro _ fs1 ⟨-, ⟨L, hext⟩, hlen1, hbytes1⟩
  obtain ⟨hrest, hout⟩ := hwf.erase hs hclient
  have hwf1 := hext.wellFormed hrest hout hfile.nodup fun t ht =>
    ⟨hfile.valid t ht, hwf.marked hs ht⟩
  have hblocks : blocksAt fs1.store.sectors inode.sector =
      max (blocksAt fs.store.sectors inode.sector) (blockCount (a i).stop) := by
    obtain ⟨n, hn⟩ := Int.eq_ofNat_of_zero_le hfile.length_nonneg
    rw [blocksAt, hlen1, blocksAt, hn, ← blockCount_max, Nat.cast_max]
    rfl
  have hclient1 : Client fs1 inode.sector := by
    unfold Client
    rw [hext.grew.file]
    exact hclient
  have hafford1 : Affords fs1 (sectorsNeeded (blocksAt fs1.store.sectors inode.sector)
      (blockCount (a !i).stop)) := by
    have hfree := hext.grew.freeCount_add
    have hlength := hext.length_eq (by omega)
    rw [hblocks] at hlength ⊢
    refine ⟨?_, fun hpos => hext.grew.small (hafford.2 (by omega))⟩
    have := hafford.1
    omega
  refine (inodeWriteAt_spec hwf1 mem_cons_self hclient1 hdeny (hmax !i)
    (freeMapAllocate_spec depth) hafford1).mono ?_
  rintro _ fs2 ⟨-, ⟨L2, hext2⟩, hlen2, hbytes2⟩
  have hfile1 := hwf1.fileOk mem_cons_self
  obtain ⟨hrest1, hout1⟩ := hwf1.erase mem_cons_self hclient1
  have hfile2 := (hext2.wellFormed hrest1 hout1 hfile1.nodup fun t ht =>
    ⟨hfile1.valid t ht, hwf1.marked mem_cons_self ht⟩).fileOk mem_cons_self
  refine ⟨?_, fun j k hk hnot => ?_, hfile2.map_inj⟩
  · rw [hstops, hlen2, hlen1]
    change max (max _ ((a i).stop : ℤ)) ((a !i).stop : ℤ) = _
    omega
  · rw [hbytes2, hbytes1]
    rcases eq_or_ne j i with rfl | hne
    · rw [WriteArgs.stop] at hnot
      rw [overwrite, if_neg hnot, overwrite, if_pos (by omega), Nat.add_sub_cancel_left]
    · obtain rfl : j = !i := Bool.eq_not_of_ne hne
      rw [overwrite, if_pos (by omega), Nat.add_sub_cancel_left]

end

/-- **Two writers of one file** lose nothing in any interleaving if they stay inside the file and
write to different blocks, nor if each takes its turns only while the other has not started or has
returned. -/
theorem writers_lose_nothing (depth : ℕ) (fs : Fs) (inodes : List Sector) (inode : Inode)
    (a : Bool → WriteArgs) (hwf : WellFormed fs inodes) (hs : inode.sector ∈ inodes)
    (hclient : Client fs inode.sector) (hdeny : inode.denyWriteCnt = 0)
    (hmax : ∀ i, (a i).stop ≤ 252 * 512)
    (hafford : Affords fs (sectorsNeeded (blocksAt fs.store.sectors inode.sector)
      (blockCount (max (a true).stop (a false).stop : ℕ))))
    (evs : List (Bool × Unit)) (c : Conf Bool (Task fsSig ℤ) Fs)
    (hmeet : StepsMeet (turn diskHandler) (fun c ev => Apart fs inode.sector a ∨ Alone c ev)
      (spawn fs fun i => writer depth inode (a i)) evs)
    (hexec : exec (turn diskHandler) (spawn fs fun i => writer depth inode (a i)) evs = some c) :
    (∀ ev, Apart fs inode.sector a ∨ Alone c ev → Proceeds diskHandler c ev) ∧
      ∀ out, Returned c out → NothingLost fs c.shared inode.sector a := by
  have hfile := hwf.fileOk hs
  by_cases hapart : Apart fs inode.sector a
  · have hinside := fun i => inodeWriteAt_inside (freeMapAllocate (depth + 1) 1)
      (.bytes (a i).bytes) hfile hdeny (hapart.inside i) (hmax i)
    have hsees : ∀ i, ∃ r u, run diskHandler (writer depth inode (a i)) fs = .ok (r, u) := by
      intro i
      obtain ⟨r, u, hrun, -⟩ := hinside i
      exact ⟨r, u, hrun⟩
    have hghosts := ghosts_of_within (local_footprint fun i => targets fs inode.sector (a i))
      (fun i => ⟨rfl, fun _ _ => rfl⟩) (fun i => within_inodeWriteAt (freeMapAllocate (depth + 1) 1)
        (a i).bytes hfile hdeny (hmax i) (hapart.inside i) (hapart.owns hfile i)) hsees hexec
    refine ⟨fun ev _ => hghosts.progress (local_footprint _) hsees ev, fun out hout => ?_⟩
    refine hapart.nothingLost hfile fun i => ?_
    obtain ⟨u, hrun, hsame⟩ := hghosts.returned hout i
    obtain ⟨-, ht, hbytes⟩ := (hinside i).of_run hrun
    exact ⟨u, _, ht, hbytes, hsame⟩
  · have hseq := writers_in_sequence depth hwf hs hclient hdeny hmax hafford
    have hserial := serial_of_alone (stepsMeet_mono (fun c ev h => h.resolve_left hapart) evs hmeet)
      hexec
    refine ⟨fun ev hok => hserial.progress (fun i => ?_) (hok.resolve_left hapart),
      fun out hout => ?_⟩
    · obtain ⟨r, fs1, hrun, q, fs2, hnext, -⟩ := hseq i
      exact ⟨r, fs1, (q, fs2), hrun, hnext⟩
    · obtain ⟨i, fs1, hrun, hnext⟩ := hserial.returned hout
      exact ((hseq i).of_run hrun).of_run hnext

/-- What the writers have returned, and the length of the inode in sector 3. -/
def outcome (c : Conf Bool (Task fsSig ℤ) Fs) : Option ℤ × Option ℤ × Int32 :=
  ((c.pc true).rest.result, (c.pc false).rest.result, (inodeAt c.shared.store.sectors 3).length)

theorem returned_of_outcome {c : Conf Bool (Task fsSig ℤ) Fs} {m n : ℤ} {x : Int32}
    (h : outcome c = (some m, some n, x)) : Returned c (fun i => if i then m else n) := by
  obtain ⟨htrue, hrest⟩ := Prod.mk.inj h
  obtain ⟨hfalse, -⟩ := Prod.mk.inj hrest
  intro i
  cases i with
  | true => exact Prog.eq_ret htrue
  | false => exact Prog.eq_ret hfalse

/-- One byte each, in blocks 0 and 1. -/
def blockWriters : Bool → WriteArgs
  | true => ⟨fun _ => 1, 1, 0⟩
  | false => ⟨fun _ => 2, 1, 512⟩

def alternateTurns : List (Bool × Unit) := (replicate 7 [(true, ()), (false, ())]).flatten

theorem writers_lose_nothing_blocks :
    ∃ c, exec (turn diskHandler) (spawn indirectFs fun i => writer 0 ⟨3, 1, false, 0⟩ (blockWriters i))
      alternateTurns = some c ∧ NothingLost indirectFs c.shared 3 blockWriters := by
  have hrun : (exec (turn diskHandler)
      (spawn indirectFs fun i => writer 0 ⟨3, 1, false, 0⟩ (blockWriters i)) alternateTurns).map
        outcome = some (some 1, some 1, 124 * 512 + 1) := by decide +kernel
  obtain ⟨c, hc, hout⟩ := Option.map_eq_some_iff.mp hrun
  have hapart : Apart indirectFs 3 blockWriters := by
    refine ⟨fun i => ?_, fun n hn => ?_⟩
    · cases i <;> decide
    · have h1 := hn.1.2
      have h2 := hn.2.1
      simp only [blockWriters] at h1 h2
      omega
  refine ⟨c, hc, (writers_lose_nothing 0 indirectFs [0, 1, 3] ⟨3, 1, false, 0⟩ blockWriters
    wellFormed_indirectFs (by decide) (fun file hfile => by cases hfile; decide) rfl
    (fun i => by cases i <;> decide) ⟨?_, fun hpos => ?_⟩ alternateTurns c
    (stepsMeet_of_forall (fun _ _ => .inl hapart) _ _) hc).2 _ (returned_of_outcome hout)⟩
  · exact Nat.zero_le _
  · exact absurd hpos (by decide)

/-- One byte each, behind the end of a file of one byte. -/
def growers : Bool → WriteArgs
  | true => ⟨fun _ => 1, 1, 1⟩
  | false => ⟨fun _ => 2, 1, 2⟩

/-- The one writer reads the inode, the other one writes, and then the first one goes on. -/
def staleTurns : List (Bool × Unit) :=
  (true, ()) :: (replicate 7 (false, ()) ++ replicate 6 (true, ()))

/-- The length that the one writer has stored is lost when the other one writes back its copy of
the inode. -/
theorem writers_lose_length : WellFormed tailFs [0, 1, 3] ∧
    Affords tailFs (sectorsNeeded (blocksAt tailFs.store.sectors 3)
      (blockCount (max (growers true).stop (growers false).stop : ℕ))) ∧
    ∃ c, exec (turn diskHandler) (spawn tailFs fun i => writer 0 ⟨3, 1, false, 0⟩ (growers i))
        staleTurns = some c ∧ Returned c (fun _ => 1) ∧
      (inodeAt c.shared.store.sectors 3).length = 2 ∧ ¬ NothingLost tailFs c.shared 3 growers := by
  have hrun : (exec (turn diskHandler)
      (spawn tailFs fun i => writer 0 ⟨3, 1, false, 0⟩ (growers i)) staleTurns).map outcome =
        some (some 1, some 1, 2) := by decide +kernel
  obtain ⟨c, hc, hout⟩ := Option.map_eq_some_iff.mp hrun
  have hlen : (inodeAt c.shared.store.sectors 3).length = 2 := congrArg (fun x => x.2.2) hout
  refine ⟨wellFormed_tailFs, affords_tailFs ?_, c, hc, fun i => ?_, hlen, fun h => ?_⟩
  · decide
  · cases i <;> exact returned_of_outcome hout _
  · have hlength := h.length
    rw [hlen, inodeAt_tailFs] at hlength
    exact absurd hlength (by decide)

end Pintos.Fs

import Pintos.Inode

/-! # The block map of an inode

An inode maps block `i` of its file to a sector: through its own array for `i < 124`, through
the indirect block for `i < 252`, and through the doubly indirect block above that
(`mapSector`).  `indexSectors` and `dataSectors` list the sectors of a file of `n` blocks, and
`treeOf` those of an inode on disk, its own sector first.

`byte_to_sector` follows the map for the first 252 blocks (`byteToSector_spec`), and never
above: the inner index it computes is not reduced by the 252 blocks before the doubly
indirect ones, and lies outside the index block (`byteToSector_decodes_iff`). -/

namespace Pintos

open Fs Interaction List

/-! ### Decoding and encoding -/

namespace InodeDisk

theorem ofWords_toWords (di : InodeDisk) : ofWords di.toWords = di := by
  cases di with
  | mk direct indirect doubly length magic =>
    simp [ofWords, toWords]

theorem toWords_ofWords (w : Words) : (ofWords w).toWords = w := by
  funext i
  simp only [ofWords, toWords]
  split_ifs with h1 h2 h3 h4
  · rfl
  · exact congrArg w (Fin.ext h2.symm)
  · exact congrArg w (Fin.ext h3.symm)
  · exact congrArg w (Fin.ext h4.symm)
  · have hi : i.val = 127 := by omega
    exact congrArg w (Fin.ext hi.symm)

@[simp] theorem decode_encode (di : InodeDisk) : decode di.encode = di := by
  rw [decode, encode, Endian.toWords_ofWords, ofWords_toWords]

@[simp] theorem encode_decode (b : Block) : (decode b).encode = b := by
  rw [decode, encode, toWords_ofWords]
  exact Endian.ofWords_toWords (n := 128) b

end InodeDisk

/-- Word `k` of a block, for `k < 128`. -/
def wordAt (b : Block) (k : ℕ) : UInt32 := wordsOf b ⟨k % 128, Nat.mod_lt k (by decide)⟩

variable {k : ℕ}

theorem wordAt_eq (b : Block) (hk : k < 128) : wordAt b k = wordsOf b ⟨k, hk⟩ := by
  simp only [wordAt, Nat.mod_eq_of_lt hk]

@[simp] theorem wordAt_blockOf (w : Words) (hk : k < 128) : wordAt (blockOf w) k = w ⟨k, hk⟩ := by
  rw [wordAt_eq _ hk, wordsOf_blockOf]

/-! ### The map -/

/-- The sector of block `i` of the file of inode `di`, `d` being the contents of the device. -/
def mapSector (d : Sector → Block) (di : InodeDisk) (i : ℕ) : Sector :=
  if h : i < 124 then di.direct ⟨i, h⟩
  else if i < 252 then wordAt (d di.indirect) (i - 124)
  else wordAt (d (wordAt (d di.doublyIndirect) ((i - 252) / 128))) ((i - 252) % 128)

variable {i : ℕ}

theorem mapSector_direct (d : Sector → Block) (di : InodeDisk) (h : i < 124) :
    mapSector d di i = di.direct ⟨i, h⟩ := dif_pos h

theorem mapSector_indirect (d : Sector → Block) (di : InodeDisk) (h1 : 124 ≤ i) (h2 : i < 252) :
    mapSector d di i = wordAt (d di.indirect) (i - 124) := by
  rw [mapSector, dif_neg (not_lt.mpr h1), if_pos h2]

theorem mapSector_doubly (d : Sector → Block) (di : InodeDisk) (h : 252 ≤ i) : mapSector d di i =
      wordAt (d (wordAt (d di.doublyIndirect) ((i - 252) / 128))) ((i - 252) % 128) := by
  rw [mapSector, dif_neg (by omega), if_neg (by omega)]

/-- The number of inner blocks below the doubly indirect block, for a file of `n` blocks. -/
def innerCount (n : ℕ) : ℕ := (n - 252 + 127) / 128

/-- The index blocks of a file of `n` blocks. -/
def indexSectors (d : Sector → Block) (di : InodeDisk) (n : ℕ) : List Sector :=
  (if 124 < n then [di.indirect] else []) ++
    if 252 < n then
      di.doublyIndirect :: (range (innerCount n)).map (wordAt (d di.doublyIndirect))
    else []

/-- The number of index blocks that `n` blocks need. -/
def indexCount (n : ℕ) : ℕ :=
  (if 124 < n then 1 else 0) + if 252 < n then 1 + innerCount n else 0

/-- The sectors of the first `n` blocks. -/
def dataSectors (d : Sector → Block) (di : InodeDisk) (n : ℕ) : List Sector :=
  (range n).map (mapSector d di)

theorem length_indexSectors (d : Sector → Block) (di : InodeDisk) (n : ℕ) :
    (indexSectors d di n).length = indexCount n := by
  unfold indexSectors indexCount
  split_ifs <;> simp <;> omega

theorem length_dataSectors (d : Sector → Block) (di : InodeDisk) (n : ℕ) :
    (dataSectors d di n).length = n := by
  simp [dataSectors]

/-- The number of blocks of a file of `length` bytes. -/
def blockCount (length : ℤ) : ℕ := (sectorCount length).toNat

/-- The inode that is stored in sector `s`. -/
def inodeAt (d : Sector → Block) (s : Sector) : InodeDisk := InodeDisk.decode (d s)

@[simp] theorem inodeAt_put (fs : Fs) (s : Sector) (di : InodeDisk) :
    inodeAt (put fs s di.encode).store.sectors s = di := by
  rw [inodeAt, put_sectors_self, InodeDisk.decode_encode]

/-- Number of blocks of the inode stored in sector `s`. -/
def blocksAt (d : Sector → Block) (s : Sector) : ℕ := blockCount (inodeAt d s).length.toInt

/-- All sectors of the inode stored in sector `s`. -/
def treeOf (d : Sector → Block) (s : Sector) : List Sector :=
  s :: (indexSectors d (inodeAt d s) (blocksAt d s) ++ dataSectors d (inodeAt d s) (blocksAt d s))

variable {n : ℕ}

section

variable (d : Sector → Block) (di : InodeDisk)
include d di

theorem mapSector_mem_dataSectors (hi : i < n) : mapSector d di i ∈ dataSectors d di n :=
  mem_map.mpr ⟨i, mem_range.mpr hi, rfl⟩

theorem indirect_mem_indexSectors (hn : 124 < n) : di.indirect ∈ indexSectors d di n := by
  simp [indexSectors, hn]

theorem doubly_mem_indexSectors (hn : 252 < n) : di.doublyIndirect ∈ indexSectors d di n := by
  simp [indexSectors, hn]

theorem inner_mem_indexSectors {j : ℕ} (hn : 252 < n) (hj : j < innerCount n) :
    wordAt (d di.doublyIndirect) j ∈ indexSectors d di n := by
  simp only [indexSectors, if_pos hn, mem_append, mem_cons, mem_map, mem_range]
  exact .inr (.inr ⟨j, hj, rfl⟩)

end

variable {di : InodeDisk} {d d' : Sector → Block}

theorem mapSector_congr (h : ∀ s ∈ indexSectors d di n, d' s = d s) (hi : i < n) :
    mapSector d' di i = mapSector d di i := by
  by_cases h1 : i < 124
  · rw [mapSector_direct _ _ h1, mapSector_direct _ _ h1]
  · by_cases h2 : i < 252
    · rw [mapSector_indirect _ _ (by omega) h2, mapSector_indirect _ _ (by omega) h2,
        h _ (indirect_mem_indexSectors d di (by omega))]
    · have hj : (i - 252) / 128 < innerCount n := by unfold innerCount; omega
      rw [mapSector_doubly _ _ (by omega), mapSector_doubly _ _ (by omega),
        h _ (doubly_mem_indexSectors d di (by omega)),
        h _ (inner_mem_indexSectors d di (by omega) hj)]

theorem dataSectors_congr (h : ∀ s ∈ indexSectors d di n, d' s = d s) :
    dataSectors d' di n = dataSectors d di n :=
  map_congr_left fun _ hi => mapSector_congr h (mem_range.mp hi)

theorem indexSectors_congr (h : ∀ s ∈ indexSectors d di n, d' s = d s) :
    indexSectors d' di n = indexSectors d di n := by
  by_cases hn : 252 < n
  · simp only [indexSectors, if_pos hn, h _ (doubly_mem_indexSectors d di hn)]
  · simp only [indexSectors, if_neg hn]

variable {s : Sector}

theorem treeOf_congr (hs : d' s = d s)
    (h : ∀ t ∈ indexSectors d (inodeAt d s) (blocksAt d s), d' t = d t) :
    inodeAt d' s = inodeAt d s ∧ blocksAt d' s = blocksAt d s ∧ treeOf d' s = treeOf d s := by
  have hdi : inodeAt d' s = inodeAt d s := by rw [inodeAt, hs, inodeAt]
  have hn : blocksAt d' s = blocksAt d s := by rw [blocksAt, hdi, blocksAt]
  refine ⟨hdi, hn, ?_⟩
  rw [treeOf, treeOf, hdi, hn, indexSectors_congr h, dataSectors_congr h]

/-! ### Numbers of blocks -/

theorem sectorCount_natCast (n : ℕ) : sectorCount n = ((n + 511) / 512 : ℕ) := by
  have h : (n : ℤ).tdiv 512 = ((n / 512 : ℕ) : ℤ) := by
    rw [Int.tdiv_eq_ediv_of_nonneg (Int.natCast_nonneg n)]; rfl
  unfold sectorCount
  simp only [h]
  split_ifs with hlt <;> omega

theorem blockCount_natCast (n : ℕ) : blockCount n = (n + 511) / 512 := by
  rw [blockCount, sectorCount_natCast, Int.toNat_natCast]

theorem sectorCount_eq_blockCount {length : ℤ} (h : 0 ≤ length) :
    sectorCount length = blockCount length := by
  obtain ⟨n, rfl⟩ := Int.eq_ofNat_of_zero_le h
  rw [blockCount_natCast, sectorCount_natCast]

variable {pos : ℕ}

theorem div_lt_blockCount {length : ℤ} (h : (pos : ℤ) < length) :
    pos / 512 < blockCount length := by
  obtain ⟨n, rfl⟩ := Int.eq_ofNat_of_zero_le (le_trans (Int.natCast_nonneg pos) h.le)
  rw [blockCount_natCast]
  omega

/-! ### `byte_to_sector` -/

theorem natCast_tdiv (m n : ℕ) : (m : ℤ).tdiv n = ((m / n : ℕ) : ℤ) := by
  rfl

variable {fs : Fs} {Q : Sector → Fs → Prop}

theorem ensures_readSector (hs : s < fs.store.size) (hk : k < 128) :
    Ensures diskHandler (readSector s k) fs Q ↔
      Q (wordAt (fs.store.sectors s) k) (touch fs s) := by
  rw [readSector, ensures_bind, ensures_cacheRead hs,
    ensures_index (Int.natCast_nonneg k) (by rw [Int.toNat_natCast]; exact hk), wordAt_eq _ hk]
  simp only [Int.toNat_natCast]

theorem not_ensures_readSector (hk : 128 ≤ k) : ¬ Ensures diskHandler (readSector s k) fs Q := by
  rw [readSector, ensures_bind]
  rintro ⟨b, fs', -, hindex⟩
  exact not_ensures_index (by rw [Int.toNat_natCast]; exact hk) hindex

/-- **`byte_to_sector`** below block 252: the sector of the map. -/
theorem byteToSector_spec {inode : Inode} {T : Set Sector}
    (hs : inode.sector < fs.store.size) (hT : inode.sector ∈ T)
    (hlen : (pos : ℤ) < (inodeAt fs.store.sectors inode.sector).length.toInt)
    (hpos : pos / 512 < 252)
    (hindex : 124 ≤ pos / 512 →
      (inodeAt fs.store.sectors inode.sector).indirect < fs.store.size ∧
        (inodeAt fs.store.sectors inode.sector).indirect ∈ T) :
    Ensures diskHandler (byteToSector inode pos) fs (fun s fs' =>
      s = mapSector fs.store.sectors (inodeAt fs.store.sectors inode.sector) (pos / 512) ∧
        Touches ∅ T fs fs') := by
  have hreads : Touches ∅ T fs (touch fs inode.sector) := (Touches.refl ∅ T fs).touch hT
  rw [byteToSector, ensures_bind, ensures_cacheRead hs]
  change Ensures diskHandler (if (pos : ℤ) < (inodeAt fs.store.sectors inode.sector).length.toInt
    then _ else _) _ _
  rw [if_pos hlen]
  by_cases h1 : pos / 512 < 124
  · have hp : (pos : ℤ) < 124 * 512 := by omega
    have hdiv : (pos : ℤ).tdiv 512 = ((pos / 512 : ℕ) : ℤ) := natCast_tdiv pos 512
    rw [if_pos hp, hdiv, ensures_index (Int.natCast_nonneg _) (by rw [Int.toNat_natCast]; exact h1),
      mapSector_direct _ _ h1]
    exact ⟨by simp only [Int.toNat_natCast]; rfl, hreads⟩
  · have hp1 : ¬ (pos : ℤ) < 124 * 512 := by omega
    have hp2 : (pos : ℤ) < (124 + 128) * 512 := by omega
    have hdiv : (pos : ℤ).tdiv 512 - 124 = ((pos / 512 - 124 : ℕ) : ℤ) := by
      have := natCast_tdiv pos 512
      push_cast at this ⊢
      omega
    obtain ⟨hind, hindT⟩ := hindex (by omega)
    rw [if_neg hp1, if_pos hp2, hdiv]
    refine (ensures_readSector ?_ ?_).mpr ⟨?_, hreads.touch hindT⟩
    · exact hind
    · omega
    · rw [mapSector_indirect _ _ (by omega) hpos]
      rfl

/-- From block 252 on the inner index is outside the inner block. -/
theorem not_ensures_byteToSector {inode : Inode}
    (hlen : (pos : ℤ) < (inodeAt fs.store.sectors inode.sector).length.toInt)
    (hpos : 252 ≤ pos / 512) : ¬ Ensures diskHandler (byteToSector inode pos) fs Q := by
  by_cases hs : inode.sector < fs.store.size
  · rw [byteToSector, ensures_bind, ensures_cacheRead hs]
    change ¬ Ensures diskHandler (if (pos : ℤ) <
      (inodeAt fs.store.sectors inode.sector).length.toInt then _ else _) _ _
    have hp1 : ¬ (pos : ℤ) < 124 * 512 := by omega
    have hp2 : ¬ (pos : ℤ) < (124 + 128) * 512 := by omega
    have hdoubly : ((pos : ℤ).tdiv 512 - 124 - 128).tdiv 128 =
        (((pos / 512 - 252) / 128 : ℕ) : ℤ) := by
      rw [← natCast_tdiv, Nat.cast_sub hpos, ← natCast_tdiv]
      congr 1
      ring_nf
    -- the inner index is at least 252
    have hinner : (pos : ℤ).tdiv 512 - (((pos / 512 - 252) / 128 : ℕ) : ℤ) =
        ((pos / 512 - (pos / 512 - 252) / 128 : ℕ) : ℤ) := by
      have := natCast_tdiv pos 512
      push_cast at this ⊢
      omega
    rw [if_pos hlen, if_neg hp1, if_neg hp2]
    simp only [hdoubly, hinner, ensures_bind]
    rintro ⟨inner, fs', -, hread⟩
    exact not_ensures_readSector (by omega) hread
  · rw [byteToSector, ensures_bind]
    exact not_ensures_cacheRead (UInt32.not_lt.mp hs)

/-- `byte_to_sector (inode, pos)` returns, with the sector of the map. -/
def DecodesMap (fs : Fs) (inode : Inode) (pos : ℕ) : Prop :=
  Ensures diskHandler (byteToSector inode pos) fs (fun s _ =>
    s = mapSector fs.store.sectors (inodeAt fs.store.sectors inode.sector) (pos / 512))

/-- **Block-map decoding** is right exactly below block 252. -/
theorem byteToSector_decodes_iff (fs : Fs) (inode : Inode) (pos : ℕ)
    (hs : inode.sector < fs.store.size)
    (hlen : (pos : ℤ) < (inodeAt fs.store.sectors inode.sector).length.toInt)
    (hindex : 124 ≤ pos / 512 → pos / 512 < 252 →
      (inodeAt fs.store.sectors inode.sector).indirect < fs.store.size) :
    DecodesMap fs inode pos ↔ pos / 512 < 252 := by
  constructor
  · intro h
    by_contra hpos
    exact not_ensures_byteToSector hlen (not_lt.mp hpos) h
  · intro hpos
    refine (byteToSector_spec (T := Set.univ) hs trivial hlen hpos ?_).mono fun s fs' h => h.1
    exact fun h1 => ⟨hindex h1 hpos, trivial⟩

/-- A device of eight sectors with an inode of 253 blocks in sector 1, its doubly indirect
block in sector 3 and an inner block in sector 4; the other contents do not matter here. -/
def doublyFs : Fs where
  store :=
    { size := 8
      sectors := fun s =>
        if s = 1 then InodeDisk.encode
          { direct := fun _ => 5, indirect := 2, doublyIndirect := 3,
            length := 252 * 512 + 1, magic := inodeMagic }
        else if s = 3 then blockOf (fun _ => 4)
        else blockOf (fun _ => 5) }
  freeMap := Bitmap.eight 0xff
  freeMapFile := none
  stack := fun _ _ => 0
  addresses := fun _ => physBase
  memory := fun _ => 0
  accesses := []

theorem inodeAt_doublyFs : inodeAt doublyFs.store.sectors 1 =
    { direct := fun _ => 5, indirect := 2, doublyIndirect := 3,
      length := 252 * 512 + 1, magic := inodeMagic } := InodeDisk.decode_encode _

theorem byteToSector_decodes_iff_indirect :
    DecodesMap doublyFs ⟨1, 1, false, 0⟩ (200 * 512) ↔ 200 * 512 / 512 < 252 :=
  byteToSector_decodes_iff doublyFs ⟨1, 1, false, 0⟩ (200 * 512) (by decide)
    (by rw [inodeAt_doublyFs]; decide) (fun _ _ => by rw [inodeAt_doublyFs]; decide)

/-- Block 252 is in sector 5, but `byte_to_sector` does not find it. -/
theorem not_decodesMap_doubly :
    mapSector doublyFs.store.sectors (inodeAt doublyFs.store.sectors 1) 252 = 5 ∧
      ¬ DecodesMap doublyFs ⟨1, 1, false, 0⟩ (252 * 512) := by
  constructor
  · rfl
  · refine not_ensures_byteToSector ?_ (by decide)
    decide

end Pintos

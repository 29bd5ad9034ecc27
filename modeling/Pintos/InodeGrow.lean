import Pintos.Allocation

/-! # Growing an inode

What `add_inode` does to an inode and to the disk. -/

namespace Pintos.Fs

open Interaction Paging

variable {alloc : Prog fsSig (Option Sector)} {fs : Fs}

/-! ### The direct part -/

variable {c t : ℕ}

section

variable (halloc : Allocates alloc) (hok : MapOk fs) (hsmall : MapSmall fs)
include halloc hok hsmall

/-- **The direct part**: blocks `c` to `min t 124`. -/
theorem growDirect_spec (di : InodeDisk) (hct : c ≤ t) (hfree : min t 124 - c ≤ freeCount fs) :
    Ensures diskHandler (growDirect alloc t ⟨di, c, (t : ℤ) - c⟩) fs (fun g fs' =>
      ∃ L : List Sector, L.length = min t 124 - c ∧ Grew ∅ fs fs' L ∧
        g = ⟨{ di with direct := fillArr di.direct c L }, (max c (min t 124) : ℕ),
          (t : ℤ) - (max c (min t 124) : ℕ)⟩ ∧
        ∀ s ∈ L, fs'.store.sectors s = zeros) := by
  by_cases hc : c < 124
  · rw [growDirect, if_pos (by simp only; omega)]
    simp only [ensures_bind, ensures_ret]
    refine (fillLoop_spec halloc Prod.fst (fun x y => (y.1, x.2 + 1)) (fun j => j)
      (fun k x => x.2 = (c : ℤ) + k) (fun _ _ => rfl)
      (fun k x a hx => by simp only [hx]; push_cast; ring) (fun k _ => by push_cast; rfl)
      (show c + (min t 124 - c) ≤ 124 by omega)
      (fun k x hk _ => by rw [decide_eq_true_iff]; omega) (by omega) (by simp) hok
      (fun _ => hsmall) hfree).mono ?_
    rintro r fs' ⟨-, hr, L, hlen, hgrew, harr, hzero⟩
    refine ⟨L, hlen, hgrew, ?_, hzero⟩
    rw [harr, hr, Growth.mk.injEq]
    refine ⟨rfl, by omega, ?_⟩
    split_ifs <;> omega
  · rw [growDirect, if_neg (by simp only; omega), ensures_ret]
    refine ⟨[], by simp; omega, Grew.refl _ hok, ?_, by simp⟩
    rw [fillArr_nil, Growth.mk.injEq]
    exact ⟨rfl, by omega, by omega⟩

/-! ### The indirect part -/

theorem openIndirect_spec {g : Growth} (hc : g.current = c) {W : Set Sector}
    (hfree : 0 < freeCount fs)
    (hind : c ≠ 124 → g.di.indirect < fs.store.size ∧ g.di.indirect ∈ W) :
    Ensures diskHandler (openIndirect alloc g) fs (fun q fs' =>
      ∃ I : List Sector, I = (if c = 124 then [q.1] else []) ∧ Grew W fs fs' I ∧
        (c ≠ 124 → q = (g.di.indirect, wordsOf (fs.store.sectors g.di.indirect)))) := by
  rw [openIndirect, ensures_bind, ensures_uninit, hc]
  have hpop := (Grew.refl W hok).pop (fun n => fs.stack (n + 1))
  by_cases h : c = 124
  · rw [if_pos (by omega), ensures_bind]
    refine (halloc _ hpop.ok' (hpop.small hsmall) hfree).mono ?_
    rintro _ fs1 ⟨s, rfl, h1⟩
    rw [ensures_ret]
    exact ⟨[s], by rw [if_pos h]; rfl, hpop.trans (h1.mono (Set.empty_subset _)),
      fun h' => absurd h h'⟩
  · rw [if_neg (by omega), ensures_bind]
    refine (ensures_cacheRead ?_).mpr ?_
    · exact (hind h).1
    · rw [ensures_ret]
      exact ⟨[], by rw [if_neg h], hpop.touch (.inr (hind h).2), fun _ => rfl⟩

/-- **The indirect part**: blocks `c` to `min t 252`, `c` being 124 at least. -/
theorem growIndirect_spec (di : InodeDisk) (h1 : 124 ≤ c) (h2 : c < 252) (hct : c < t)
    {W : Set Sector} (hfree : (if c = 124 then 1 else 0) + (min t 252 - c) ≤ freeCount fs)
    (hind : c ≠ 124 → di.indirect < fs.store.size ∧ di.indirect ∈ W)
    (hmark : c ≠ 124 → Marked fs di.indirect ∧ di.indirect ∉ mapTree fs) :
    Ensures diskHandler (growIndirect alloc t ⟨di, c, (t : ℤ) - c⟩) fs (fun g fs' =>
      ∃ (I L : List Sector) (a : Words), I = (if c = 124 then [g.di.indirect] else []) ∧
        L.length = min t 252 - c ∧ Grew W fs fs' (I ++ L) ∧
        g = ⟨{ di with indirect := g.di.indirect }, (min t 252 : ℕ),
          if 252 < t then (t : ℤ) - 128 else 0⟩ ∧
        (c ≠ 124 → g.di.indirect = di.indirect ∧ a = wordsOf (fs.store.sectors di.indirect)) ∧
        fs'.store.sectors g.di.indirect = blockOf (fillArr a (c - 124) L) ∧
        ∀ s ∈ L, fs'.store.sectors s = zeros) := by
  rw [growIndirect, if_pos (by simp only; omega)]
  simp only [ensures_bind]
  refine (openIndirect_spec halloc hok hsmall rfl (by omega) hind).mono ?_
  rintro q fs1 ⟨I, hI, hgrew1, hq⟩
  have hcount := hgrew1.freeCount_add
  have hlen : I.length = if c = 124 then 1 else 0 := by rw [hI]; split_ifs <;> rfl
  refine (fillLoop_spec halloc Prod.fst (fun x y => (y.1, x.2 + 1)) (fun j => j - 124)
    (fun k x => x.2 = (c : ℤ) + k) (fun _ _ => rfl)
    (fun k x a hx => by simp only [hx]; push_cast; ring) (fun k _ => by push_cast; omega)
    (show (c - 124) + (min t 252 - c) ≤ 128 by omega)
    (fun k x hk _ => by rw [decide_eq_true_iff]; omega) (by omega) (by simp) hgrew1.ok'
    (fun _ => hgrew1.small hsmall) (by omega)).mono ?_
  rintro r fs2 ⟨-, hr, L, hL, hgrew2, harr, hzero⟩
  have hgrew := hgrew1.trans (hgrew2.mono (Set.empty_subset W))
  -- the index block is a new sector or was marked before
  have hq1 : (q.1 < fs.store.size ∧ q.1 ∉ mapTree fs) ∧ (q.1 ∈ I ++ L ∨ q.1 ∈ W) ∧ q.1 ∉ L := by
    by_cases h : c = 124
    · have hmem : q.1 ∈ I := by rw [hI, if_pos h]; exact List.mem_singleton_self _
      have hmem' := List.mem_append_left L hmem
      exact ⟨⟨(hgrew.fresh _ hmem').1, hgrew.notMem_tree hmem'⟩, .inl hmem',
        fun hl => List.disjoint_of_nodup_append hgrew.nodup hmem hl⟩
    · rw [hq h]
      exact ⟨⟨(hind h).1, (hmark h).2⟩, .inr (hind h).2,
        fun hl => (hgrew.fresh _ (List.mem_append_right I hl)).2 (hmark h).1⟩
  rw [ensures_cacheWrite (by rw [hgrew.size]; exact hq1.1.1), ensures_ret]
  refine ⟨I, L, q.2, hI, hL, hgrew.put hq1.2.1 hq1.1.2, ?_, fun h => ?_, ?_, fun s hs => ?_⟩
  · rw [Growth.mk.injEq]
    refine ⟨rfl, by rw [hr]; omega, ?_⟩
    split_ifs <;> omega
  · exact ⟨by simp only [hq h], by rw [hq h]⟩
  · rw [← harr]
    exact put_sectors_self ..
  · have hne : s ≠ q.1 := fun h => hq1.2.2 (h ▸ hs)
    rw [← hzero s hs]
    exact put_sectors_of_ne _ _ hne

/-! ### Growth up to 252 blocks -/

end

/-- The inode `di` in memory is well formed: the sectors of its blocks and index blocks are
different, on the device, marked, and none of the free map's file. -/
structure InodeOk (fs : Fs) (di : InodeDisk) : Prop where
  length_nonneg : 0 ≤ di.length.toInt
  nodup : (indexSectors fs.store.sectors di (blockCount di.length.toInt) ++
    dataSectors fs.store.sectors di (blockCount di.length.toInt)).Nodup
  sectors : ∀ s ∈ indexSectors fs.store.sectors di (blockCount di.length.toInt) ++
    dataSectors fs.store.sectors di (blockCount di.length.toInt),
      s < fs.store.size ∧ Marked fs s ∧ s ∉ mapTree fs

theorem InodeOk.counts {fs : Fs} {di : InodeDisk} {c : ℕ} (hdi : InodeOk fs di)
    (hc : blockCount di.length.toInt = c) : sectorCount di.length.toInt = c ∧
      ∀ s ∈ indexSectors fs.store.sectors di c,
        s < fs.store.size ∧ Marked fs s ∧ s ∉ mapTree fs := by
  subst hc
  exact ⟨sectorCount_eq_blockCount hdi.length_nonneg,
    fun s hs => hdi.sectors s (List.mem_append_left _ hs)⟩

/-- An inode without blocks. -/
def emptyInode : InodeDisk where
  direct := fun _ => 0
  indirect := 0
  doublyIndirect := 0
  length := 0
  magic := inodeMagic

/-- From `c` to `t` blocks: the sectors that the larger map needs were allocated, those of the
smaller one are where they were. -/
structure Grown (fs fs' : Fs) (di di' : InodeDisk) (c t : ℕ) : Prop where
  grew : Grew { s | s ∈ indexSectors fs.store.sectors di c } fs fs'
    (freshSectors fs'.store.sectors di' c t)
  map : ∀ i < c, mapSector fs'.store.sectors di' i = mapSector fs.store.sectors di i
  index : indexSectors fs'.store.sectors di' c = indexSectors fs.store.sectors di c
  zero : ∀ i, c ≤ i → i < t → fs'.store.sectors (mapSector fs'.store.sectors di' i) = zeros

variable {di : InodeDisk} {new : ℤ}

/-- Above a whole number of sectors `add_inode` runs its three parts. -/
theorem addInode_eq (hc : sectorCount di.length.toInt = c) (ht : sectorCount new = t)
    (hct : c < t) : addInode alloc di new = (do
      let g ← growDirect alloc t ⟨di, c, (t : ℤ) - c⟩
      let g ← growIndirect alloc t g
      let g ← growDoubly alloc g
      pure { g.di with length := Int32.ofInt new }) := by
  simp only [addInode, hc, ht]
  rw [if_neg (by omega)]

theorem freshSectors_self (d : Sector → Block) (di : InodeDisk) (c : ℕ) :
    freshSectors d di c c = [] :=
  List.eq_nil_of_length_eq_zero (by rw [length_freshSectors _ _ le_rfl]; omega)

/-- Growth inside the last sector changes the length and nothing else. -/
theorem addInode_same (hok : MapOk fs) (hlt : di.length.toInt < new)
    (hsame : sectorCount new = sectorCount di.length.toInt) (c : ℕ) :
    Ensures diskHandler (addInode alloc di new) fs (fun di' fs' =>
      di'.length = Int32.ofInt new ∧ Grown fs fs' di di' c c) := by
  simp only [addInode, hsame, Int.sub_self, le_refl, if_true, if_pos hlt, ensures_ret]
  refine ⟨trivial, ?_, fun _ _ => rfl, rfl, fun i h1 h2 => by omega⟩
  rw [freshSectors_self]
  exact Grew.refl _ hok

theorem grown_of_parts {fs1 fs' : Fs} {di' : InodeDisk} (L1 I L2 : List Sector) (hct : c < t)
    (ht : t ≤ 252) (hsec : ∀ s ∈ indexSectors fs.store.sectors di c, Marked fs s ∧ s ∉ mapTree fs)
    (h1 : Grew ∅ fs fs1 L1) (hlen1 : L1.length = min t 124 - c)
    (hzero1 : ∀ s ∈ L1, fs1.store.sectors s = zeros) (hdirect : di'.direct = fillArr di.direct c L1)
    (h2 : Grew { s | s ∈ indexSectors fs.store.sectors di c } fs1 fs' (I ++ L2))
    (hI : I = if c ≤ 124 ∧ 124 < t then [di'.indirect] else []) (hlen2 : L2.length = t - max c 124)
    (hzero2 : ∀ s ∈ L2, fs'.store.sectors s = zeros)
    (hindirect : 124 < t → ∃ a : Words,
      fs'.store.sectors di'.indirect = blockOf (fillArr a (max c 124 - 124) L2) ∧
      (124 < c → di'.indirect = di.indirect ∧ a = wordsOf (fs.store.sectors di.indirect))) :
    Grown fs fs' di di' c t := by
  have hfills : Fills fs'.store.sectors di' c t L1 I L2 := by
    refine ⟨hlen1, hlen2, fun k hk => ?_, fun k hk => ?_, hI⟩
    · rw [mapSector_direct _ _ (by omega), hdirect]
      exact fillArr_get _ _ _ hk (by omega)
    · obtain ⟨a, hblock, -⟩ := hindirect (by omega)
      rw [mapSector_indirect _ _ (by omega) (by omega), hblock, wordAt_blockOf _ (by omega)]
      have hk' : max c 124 + k - 124 = max c 124 - 124 + k := by omega
      simp only [hk']
      exact fillArr_get _ _ _ hk (by omega)
  refine ⟨((h1.mono (Set.empty_subset _)).trans h2).perm (hfills.perm ht hct.le), fun i hi => ?_, ?_,
    fun i hi hit => hfills.zero (fun s hs => ?_) hzero2 hi hit⟩
  · by_cases hi' : i < 124
    · rw [mapSector_direct _ _ hi', mapSector_direct _ _ hi', hdirect]
      exact fillArr_of_lt _ _ hi' hi
    · obtain ⟨a, hblock, hold⟩ := hindirect (by omega)
      obtain ⟨hind, rfl⟩ := hold (by omega)
      rw [mapSector_indirect _ _ (by omega) (by omega), mapSector_indirect _ _ (by omega) (by omega),
        hblock, wordAt_blockOf _ (by omega), fillArr_of_lt _ _ _ (by omega), wordAt_eq _ (by omega)]
  · by_cases hc : 124 < c
    · obtain ⟨_, -, hold⟩ := hindirect (by omega)
      simp only [indexSectors, if_neg (show ¬ 252 < c by omega), (hold hc).1]
    · simp only [indexSectors, if_neg (show ¬ 252 < c by omega), if_neg hc]
  · rw [h1.keeps h2 hs fun hw => (h1.fresh s hs).2 (hsec s hw).1]
    exact hzero1 s hs

/-- **Growth up to 252 blocks.** -/
theorem addInode_small (halloc : Allocates alloc) (hok : MapOk fs) (hsmall : MapSmall fs)
    (hdi : InodeOk fs di) (hc : blockCount di.length.toInt = c) (ht : sectorCount new = t)
    (hct : c < t) (ht' : t ≤ 252) (hfree : (t - c) + (indexCount t - indexCount c) ≤ freeCount fs) :
    Ensures diskHandler (addInode alloc di new) fs (fun di' fs' =>
      di'.length = Int32.ofInt new ∧ Grown fs fs' di di' c t) := by
  obtain ⟨hcnt, hsec⟩ := hdi.counts hc
  have hidx : ∀ n, n ≤ 252 → indexCount n = if 124 < n then 1 else 0 := fun n hn => by
    rw [indexCount, if_neg (show ¬ 252 < n by omega), Nat.add_zero]
  rw [hidx t ht', hidx c (by omega)] at hfree
  rw [addInode_eq hcnt ht hct, ensures_bind]
  refine (growDirect_spec halloc hok hsmall di hct.le (by omega)).mono ?_
  rintro _ fs1 ⟨L1, hlen1, h1, rfl, hzero1⟩
  have hcount := h1.freeCount_add
  rw [ensures_bind]
  by_cases h124 : t ≤ 124
  · -- nothing is left for the other two parts
    rw [growIndirect, if_neg (by simp only; omega), ensures_ret, ensures_bind, growDoubly,
      if_neg (by simp only; omega), ensures_ret, ensures_ret]
    exact ⟨rfl, grown_of_parts L1 [] [] hct ht' (fun s hs => (hsec s hs).2) h1 hlen1 hzero1 rfl
      (Grew.refl _ h1.ok') (by rw [if_neg (by omega)])
      (by simp; omega) (by simp) fun h => absurd h (by omega)⟩
  · rw [show max c (min t 124) = max c 124 by omega]
    have hW : max c 124 ≠ 124 → di.indirect ∈ indexSectors fs.store.sectors di c :=
      fun h => indirect_mem_indexSectors _ _ (by omega)
    refine (growIndirect_spec (W := { s | s ∈ indexSectors fs.store.sectors di c })
      (c := max c 124) (t := t) halloc h1.ok' (h1.small hsmall)
      { di with direct := fillArr di.direct c L1 } (by omega) (by omega) (by omega)
      (by rw [hlen1] at hcount; split_ifs at hfree ⊢ <;> omega)
      (fun h => ⟨h1.size ▸ (hsec _ (hW h)).1, hW h⟩)
      (fun h => ⟨(h1.marked _).mpr (.inl (hsec _ (hW h)).2.1),
        h1.tree ▸ (hsec _ (hW h)).2.2⟩)).mono ?_
    rintro g fs2 ⟨I, L2, a, hI, hlen2, h2, hg, hold, hblock, hzero2⟩
    rw [if_neg (by omega)] at hg
    rw [ensures_bind, growDoubly, if_neg (by rw [hg]; exact lt_irrefl 0), ensures_ret,
      ensures_ret]
    refine ⟨rfl, grown_of_parts L1 I L2 hct ht' (fun s hs => (hsec s hs).2) h1 hlen1 hzero1
      (by rw [hg]) h2 ?_ (by omega) hzero2 fun _ => ⟨a, hblock, fun hc' => ?_⟩⟩
    · rw [hI]
      split_ifs <;> first | rfl | omega
    · obtain ⟨hind, rfl⟩ := hold (by omega)
      have hmem : di.indirect ∈ indexSectors fs.store.sectors di c := hW (by omega)
      have hlen1' : L1 = [] := List.eq_nil_of_length_eq_zero (by omega)
      refine ⟨hind, congrArg wordsOf (h1.sectors _ (by rw [hlen1']; simp) (by simp) fun hd => ?_)⟩
      exact (hsec _ hmem).2.2 (mapData_subset _ hd)

end Pintos.Fs

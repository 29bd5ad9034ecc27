import Pintos.InodeGrow

/-! # Growing an inode beyond 252 blocks

The doubly indirect part of `add_inode`. -/

namespace Pintos.Fs

open Interaction Paging List

variable {alloc : Prog fsSig (Option Sector)} {fs : Fs}

/-! ### The doubly indirect part -/

variable {W : Set Sector} {c : ℕ}

theorem openInner_spec (halloc : Allocates alloc) (hok : MapOk fs) (hsmall : MapSmall fs) {j : ℕ}
    (hj : j < 128) (blocks : Words) (hfree : 0 < freeCount fs)
    (hold : c ≠ 252 + 128 * j → blocks ⟨j, hj⟩ < fs.store.size ∧ blocks ⟨j, hj⟩ ∈ W) :
    Ensures diskHandler (openInner alloc c j blocks) fs (fun q fs' =>
      ∃ I : List Sector, I = (if c = 252 + 128 * j then [q.1 ⟨j, hj⟩] else []) ∧ Grew W fs fs' I ∧
        (∀ i, i ≠ ⟨j, hj⟩ → q.1 i = blocks i) ∧
        (c ≠ 252 + 128 * j → q = (blocks, wordsOf (fs.store.sectors (blocks ⟨j, hj⟩))))) := by
  have hjn : (j : ℤ).toNat < 128 := by omega
  rw [openInner, ensures_bind, ensures_uninit]
  have hpop := (Grew.refl W hok).pop (fun n => fs.stack (n + 1))
  by_cases h : c = 252 + 128 * j
  · rw [if_pos (by omega), ensures_bind]
    refine (halloc _ hpop.ok' (hpop.small hsmall) hfree).mono ?_
    rintro _ fs1 ⟨s, rfl, h1⟩
    rw [ensures_bind, ensures_assign (by omega) hjn, ensures_ret]
    simp only [Int.toNat_natCast]
    refine ⟨[s], ?_, hpop.trans (h1.mono (Set.empty_subset _)), fun i hi => ?_, fun h' => absurd h h'⟩
    · rw [if_pos h, Function.update_self]
    · exact Function.update_of_ne hi ..
  · rw [if_neg (by omega), ensures_bind, ensures_index (by omega) hjn, ensures_bind]
    refine (ensures_cacheRead ?_).mpr ?_
    · exact (hold h).1
    · rw [ensures_ret]
      exact ⟨[], by rw [if_neg h], hpop.touch (.inr (hold h).2), fun _ _ => rfl, fun _ => rfl⟩

variable {r : ℕ}

/-- **One round of the doubly indirect part**: the inner block of entry `j`, from its entry `r`
on. -/
theorem growInner_spec (halloc : Allocates alloc) (hok : MapOk fs) (hsmall : MapSmall fs)
    {j new : ℕ} (hj : j < 128) (hr : r < 128) (hnew : 0 < new) (blocks : Words)
    (hfree : (if c = 252 + 128 * j then 1 else 0) + min (128 - r) new ≤ freeCount fs)
    (hold : c ≠ 252 + 128 * j → blocks ⟨j, hj⟩ < fs.store.size ∧ blocks ⟨j, hj⟩ ∈ W)
    (htree : c ≠ 252 + 128 * j → blocks ⟨j, hj⟩ ∉ mapTree fs) :
    Ensures diskHandler (growInner alloc c j (blocks, (new : ℤ), (r : ℤ))) fs (fun x fs' =>
      ∃ (I L : List Sector) (a : Words),
        I = (if c = 252 + 128 * j then [x.1 ⟨j, hj⟩] else []) ∧
        L.length = min (128 - r) new ∧ Grew W fs fs' (I ++ L) ∧
        x.2 = (((new - L.length : ℕ) : ℤ), 0) ∧ (∀ i, i ≠ ⟨j, hj⟩ → x.1 i = blocks i) ∧
        (c ≠ 252 + 128 * j →
          x.1 = blocks ∧ a = wordsOf (fs.store.sectors (blocks ⟨j, hj⟩))) ∧
        ((c ≠ 252 + 128 * j → Marked fs (blocks ⟨j, hj⟩)) →
          fs'.store.sectors (x.1 ⟨j, hj⟩) = blockOf (fillArr a r L) ∧
            ∀ s ∈ L, fs'.store.sectors s = zeros)) := by
  rw [growInner, ensures_bind]
  refine (openInner_spec halloc hok hsmall hj blocks (by omega) hold).mono ?_
  rintro q fs1 ⟨I, hI, hgrew1, hother, hq⟩
  have hcount := hgrew1.freeCount_add
  have hlen : I.length = if c = 252 + 128 * j then 1 else 0 := by rw [hI]; split_ifs <;> rfl
  rw [ensures_bind]
  change Ensures diskHandler (forLoop _ _ (128 - (r : ℤ)).toNat r (q.2, (new : ℤ), (r : ℤ))) fs1 _
  refine (fillLoop_spec halloc Prod.fst (fun y z => (z.1, y.2.1 - 1, 0)) (fun k => k)
    (fun k y => y.2.1 = (new : ℤ) - k ∧ (0 < k → y.2.2 = 0)) (fun _ _ => rfl)
    (fun k y a hy => ⟨by simp only [hy.1]; push_cast; ring, fun _ => rfl⟩)
    (fun k _ => by push_cast; rfl) (show r + min (128 - r) new ≤ 128 by omega)
    (fun k y hk hy => by rw [decide_eq_true_iff, hy.1]; omega) (by omega) (by simp)
    hgrew1.ok' (fun _ => hgrew1.small hsmall) (by omega)).mono ?_
  rintro z fs2 ⟨-, ⟨hz1, hz2⟩, L, hL, hgrew2, harr, hzero⟩
  have hgrew := hgrew1.trans (hgrew2.mono (Set.empty_subset W))
  rw [ensures_bind, ensures_index (by omega) (by omega)]
  -- the inner block is a new sector, or the entry that was there
  have hq1 : (q.1 ⟨j, hj⟩ < fs.store.size ∧ q.1 ⟨j, hj⟩ ∉ mapTree fs) ∧
      (q.1 ⟨j, hj⟩ ∈ I ++ L ∨ q.1 ⟨j, hj⟩ ∈ W) := by
    by_cases h : c = 252 + 128 * j
    · have hmem : q.1 ⟨j, hj⟩ ∈ I ++ L :=
        mem_append_left L (by rw [hI, if_pos h]; exact mem_singleton_self _)
      exact ⟨⟨(hgrew.fresh _ hmem).1, hgrew.notMem_tree hmem⟩, .inl hmem⟩
    · rw [hq h]
      exact ⟨⟨(hold h).1, htree h⟩, .inr (hold h).2⟩
  rw [ensures_bind, ensures_cacheWrite (by rw [hgrew.size]; exact hq1.1.1), ensures_ret]
  refine ⟨I, L, q.2, hI, hL, hgrew.put hq1.2 hq1.1.2, ?_, hother, fun h => ?_, fun hmark => ?_⟩
  · exact Prod.ext (by rw [hz1, hL]; omega) (hz2 (by omega))
  · exact ⟨by simp only [hq h], by rw [hq h]⟩
  · have hnot : q.1 ⟨j, hj⟩ ∉ L := by
      intro hl
      by_cases h : c = 252 + 128 * j
      · refine disjoint_of_nodup_append hgrew.nodup ?_ hl
        rw [hI, if_pos h]
        exact mem_singleton_self _
      · rw [hq h] at hl
        exact (hgrew.fresh _ (mem_append_right I hl)).2 (hmark h)
    refine ⟨by rw [← harr]; exact put_sectors_self .., fun s hs => ?_⟩
    have hne : s ≠ q.1 ⟨j, hj⟩ := fun h => hnot (h ▸ hs)
    rw [← hzero s hs]
    exact put_sectors_of_ne _ _ hne

/-- The loop over the inner blocks, from the one of block `c` on. -/
def innerLoop (alloc : Prog fsSig (Option Sector)) (c new : ℕ) (blocks : Words) :
    Prog fsSig (ℤ × Words × ℤ × ℤ) :=
  forLoop (fun j x => decide (j < 128 ∧ 0 < x.2.1)) (growInner alloc c) (128 - (c - 252) / 128)
    (((c - 252) / 128 : ℕ) : ℤ) (blocks, (new : ℤ), (((c - 252) % 128 : ℕ) : ℤ))

variable {di : InodeDisk} {t : ℕ}

/-- When the file has doubly indirect blocks already, `add_inode` reads the doubly indirect
block, runs the loop and writes the block back. -/
theorem ensures_addInode_doubly {new : ℤ} (hcnt : sectorCount di.length.toInt = c)
    (ht : sectorCount new = t) (hc : 252 < c) (hct : c < t)
    (hdoubly : di.doublyIndirect < fs.store.size) {Q : InodeDisk → Fs → Prop} :
    Ensures diskHandler (addInode alloc di new) fs Q ↔
      Ensures diskHandler (innerLoop alloc c (t - c) (wordsOf (fs.store.sectors di.doublyIndirect)))
        (touch { fs with stack := fun n => fs.stack (n + 1) } di.doublyIndirect) (fun z fs1 =>
          Ensures diskHandler (cacheWrite di.doublyIndirect (blockOf z.2.1)) fs1 (fun _ fs' =>
            Q { di with length := Int32.ofInt new } fs')) := by
  have houter : ((c : ℤ) - 124 - 128).tdiv 128 = (((c - 252) / 128 : ℕ) : ℤ) := by
    rw [show (c : ℤ) - 124 - 128 = ((c - 252 : ℕ) : ℤ) by omega]
    exact natCast_tdiv _ _
  have hinner : ((c : ℤ) - 124 - 128).tmod 128 = (((c - 252) % 128 : ℕ) : ℤ) := by
    rw [show (c : ℤ) - 124 - 128 = ((c - 252 : ℕ) : ℤ) by omega,
      Int.tmod_eq_emod_of_nonneg (Int.natCast_nonneg _)]
    rfl
  rw [addInode_eq hcnt ht hct, ensures_bind, growDirect, if_neg (by simp only; omega), ensures_ret,
    ensures_bind, growIndirect, if_neg (by simp only; omega), ensures_ret, ensures_bind, growDoubly,
    if_pos (by simp only; omega), ensures_bind, openDoubly, ensures_bind, ensures_uninit,
    if_neg (by simp only; omega), ensures_bind]
  have hdoubly' : di.doublyIndirect <
    ({ fs with stack := fun n => fs.stack (n + 1) } : Fs).store.size := hdoubly
  refine (ensures_cacheRead hdoubly').trans ?_
  simp only [ensures_bind, ensures_ret, houter, hinner, innerLoop]
  rw [show (128 - (((c - 252) / 128 : ℕ) : ℤ)).toNat = 128 - (c - 252) / 128 by omega,
    show (t : ℤ) - c = ((t - c : ℕ) : ℤ) by omega]

/-- Growth inside one inner block is one round. -/
theorem innerLoop_one (halloc : Allocates alloc) (hok : MapOk fs) (hsmall : MapSmall fs) {m : ℕ}
    (hc : c = 252 + 128 * m + r) (hm : m < 128) (hr : r < 128) (hct : c < t)
    (hone : t ≤ 252 + 128 * (m + 1)) (blocks : Words)
    (hfree : (if r = 0 then 1 else 0) + (t - c) ≤ freeCount fs)
    (hold : r ≠ 0 → blocks ⟨m, hm⟩ < fs.store.size ∧ blocks ⟨m, hm⟩ ∈ W)
    (htree : r ≠ 0 → Marked fs (blocks ⟨m, hm⟩) ∧ blocks ⟨m, hm⟩ ∉ mapTree fs) :
    Ensures diskHandler (innerLoop alloc c (t - c) blocks) fs (fun z fs' =>
      ∃ (I L : List Sector) (a : Words), I = (if r = 0 then [z.2.1 ⟨m, hm⟩] else []) ∧
        L.length = t - c ∧ Grew W fs fs' (I ++ L) ∧ (∀ i, i ≠ ⟨m, hm⟩ → z.2.1 i = blocks i) ∧
        (r ≠ 0 → z.2.1 = blocks ∧ a = wordsOf (fs.store.sectors (blocks ⟨m, hm⟩))) ∧
        fs'.store.sectors (z.2.1 ⟨m, hm⟩) = blockOf (fillArr a r L) ∧
        ∀ s ∈ L, fs'.store.sectors s = zeros) := by
  have hcur : c = 252 + 128 * m ↔ r = 0 := by omega
  have hne : c ≠ 252 + 128 * m ↔ r ≠ 0 := not_congr hcur
  rw [innerLoop, show (c - 252) / 128 = m by omega, show (c - 252) % 128 = r by omega,
    forLoop_round (by omega) (by rw [decide_eq_true_iff]; simp only; omega), ensures_bind]
  refine (growInner_spec halloc hok hsmall hm hr (by omega) blocks (by simp only [hcur]; omega)
    (fun h => hold (hne.mp h)) (fun h => (htree (hne.mp h)).2)).mono ?_
  rintro ⟨b, x⟩ fs' ⟨I, L, a, hI, hL, hgrew, rfl, hother, hsame, hblock⟩
  simp only [hcur] at hI
  have hlen : L.length = t - c := by omega
  rw [forLoop_done _ (by rw [decide_eq_false_iff_not]; simp only; omega), ensures_ret]
  refine ⟨I, L, a, hI, hlen, hgrew, hother, fun h => hsame (hne.mpr h), hblock fun h => ?_⟩
  exact (htree (hne.mp h)).1

theorem index_distinct {d : Sector → Block} (hc : 252 < c) (h : (indexSectors d di c).Nodup) :
    di.indirect ≠ di.doublyIndirect ∧
    (∀ j < innerCount c, wordAt (d di.doublyIndirect) j ≠ di.indirect ∧
      wordAt (d di.doublyIndirect) j ≠ di.doublyIndirect) ∧
    ∀ i < innerCount c, ∀ j < innerCount c,
      wordAt (d di.doublyIndirect) i = wordAt (d di.doublyIndirect) j → i = j := by
  have hlist : indexSectors d di c = di.indirect :: di.doublyIndirect ::
      (List.range (innerCount c)).map (wordAt (d di.doublyIndirect)) := by
    simp only [indexSectors, if_pos hc, if_pos (show 124 < c by omega), singleton_append]
  rw [hlist] at h
  obtain ⟨h1, h⟩ := nodup_cons.mp h
  obtain ⟨h2, h3⟩ := nodup_cons.mp h
  have hmem : ∀ j < innerCount c, wordAt (d di.doublyIndirect) j ∈
      (List.range (innerCount c)).map (wordAt (d di.doublyIndirect)) :=
    fun j hj => mem_map.mpr ⟨j, mem_range.mpr hj, rfl⟩
  refine ⟨fun he => h1 (he ▸ mem_cons_self), fun j hj => ⟨fun he => ?_, fun he => ?_⟩,
    fun i hi j hj => inj_on_of_nodup_map h3 (mem_range.mpr hi) (mem_range.mpr hj)⟩
  · rw [← he] at h1
    exact h1 (mem_cons_of_mem _ (hmem j hj))
  · have hj' := hmem j hj
    rw [he] at hj'
    exact h2 hj'

theorem grown_of_inner {fs' : Fs} {di' : InodeDisk} {m : ℕ} {I L : List Sector} {a blocks : Words}
    (hc : c = 252 + 128 * m + r) (hc' : 252 < c) (hm : m < 128) (hr : r < 128) (hct : c < t)
    (hone : t ≤ 252 + 128 * (m + 1)) (hnodup : (indexSectors fs.store.sectors di c).Nodup)
    (hsec : ∀ s ∈ indexSectors fs.store.sectors di c, Marked fs s ∧ s ∉ mapTree fs)
    (hdirect : di'.direct = di.direct) (hindirect : di'.indirect = di.indirect)
    (hdoubly : di'.doublyIndirect = di.doublyIndirect)
    (hW : W = { s | s = di.doublyIndirect ∨
      (r ≠ 0 ∧ s = wordAt (fs.store.sectors di.doublyIndirect) m) })
    (hgrew : Grew W fs fs' (I ++ L)) (hI : I = if r = 0 then [blocks ⟨m, hm⟩] else [])
    (hL : L.length = t - c)
    (hother : ∀ i, i ≠ ⟨m, hm⟩ → blocks i = wordsOf (fs.store.sectors di.doublyIndirect) i)
    (hold : r ≠ 0 → blocks = wordsOf (fs.store.sectors di.doublyIndirect) ∧
      a = wordsOf (fs.store.sectors (wordAt (fs.store.sectors di.doublyIndirect) m)))
    (houter : fs'.store.sectors di.doublyIndirect = blockOf blocks)
    (hinner : fs'.store.sectors (blocks ⟨m, hm⟩) = blockOf (fillArr a r L))
    (hzero : ∀ s ∈ L, fs'.store.sectors s = zeros) : Grown fs fs' di di' c t := by
  have hcount : innerCount c = if r = 0 then m else m + 1 := by
    unfold innerCount
    split_ifs <;> omega
  obtain ⟨hn1, hn2, hn3⟩ := index_distinct hc' hnodup
  have hframe : ∀ s ∈ indexSectors fs.store.sectors di c, s ∉ W →
      fs'.store.sectors s = fs.store.sectors s := fun s hs hw =>
    hgrew.sectors s (fun hl => (hgrew.fresh s hl).2 (hsec s hs).1) hw
      fun hd => (hsec s hs).2 (mapData_subset _ hd)
  -- the entries of the doubly indirect block that the file had
  have hword : ∀ j < innerCount c, wordAt (fs'.store.sectors di.doublyIndirect) j =
      wordAt (fs.store.sectors di.doublyIndirect) j := by
    intro j hj
    have hj' : j < 128 := by split_ifs at hcount <;> omega
    rw [houter, wordAt_blockOf _ hj', wordAt_eq _ hj']
    by_cases hjm : j = m
    · have hr0 : r ≠ 0 := fun h => by rw [if_pos h] at hcount; omega
      rw [(hold hr0).1]
    · exact hother _ fun he => hjm (Fin.mk.inj he)
  have hmap : ∀ i < c, mapSector fs'.store.sectors di' i = mapSector fs.store.sectors di i := by
    intro i hi
    by_cases h1 : i < 124
    · rw [mapSector_direct _ _ h1, mapSector_direct _ _ h1, hdirect]
    · by_cases h2 : i < 252
      · rw [mapSector_indirect _ _ (by omega) h2, mapSector_indirect _ _ (by omega) h2, hindirect,
          hframe di.indirect (indirect_mem_indexSectors _ _ (by omega))]
        rw [hW]
        rintro (he | ⟨hr0, he⟩)
        · exact hn1 he
        · exact (hn2 m (by rw [if_neg hr0] at hcount; omega)).1 he.symm
      · have hj : (i - 252) / 128 < innerCount c := by split_ifs at hcount <;> omega
        rw [mapSector_doubly _ _ (by omega), mapSector_doubly _ _ (by omega), hdoubly, hword _ hj]
        by_cases hjm : (i - 252) / 128 = m
        · have hr0 : r ≠ 0 := by omega
          rw [hjm]
          have hin : wordAt (fs.store.sectors di.doublyIndirect) m = blocks ⟨m, hm⟩ := by
            rw [(hold hr0).1, wordAt_eq _ hm]
          rw [show fs'.store.sectors (wordAt (fs.store.sectors di.doublyIndirect) m) =
              blockOf (fillArr a r L) by rw [hin, hinner],
            wordAt_blockOf _ (Nat.mod_lt _ (by decide)), fillArr_of_lt _ _ _ (by omega), (hold hr0).2,
            wordAt_eq _ (Nat.mod_lt _ (by decide))]
        · rw [hframe _ (inner_mem_indexSectors _ _ hc' hj)]
          rw [hW]
          rintro (he | ⟨hr0, he⟩)
          · exact (hn2 _ hj).2 he
          · exact hjm (hn3 _ hj m (by rw [if_neg hr0] at hcount; omega) he)
  have hdata : ∀ k (hk : k < L.length), mapSector fs'.store.sectors di' (c + k) = L[k] := by
    intro k hk
    rw [mapSector_doubly _ _ (by omega), hdoubly, show (c + k - 252) / 128 = m by omega,
      show (c + k - 252) % 128 = r + k by omega, houter, wordAt_blockOf _ hm, hinner,
      wordAt_blockOf _ (by omega)]
    exact fillArr_get _ _ _ hk _
  have hfresh : freshSectors fs'.store.sectors di' c t = I ++ L := by
    have hcount' : innerCount t = m + 1 := by unfold innerCount; omega
    rw [freshSectors, ← hL, map_range'_eq hdata, if_neg (by omega), if_neg (by omega), hcount',
      hdoubly, nil_append, nil_append]
    congr 1
    rw [hI, hcount]
    split_ifs with h
    · rw [Nat.add_sub_cancel_left, List.range'_one, map_singleton, houter, wordAt_blockOf _ hm]
    · rw [Nat.sub_self]; rfl
  refine ⟨?_, hmap, ?_, fun i hi hit => ?_⟩
  · rw [hfresh]
    refine hgrew.mono ?_
    rw [hW]
    rintro s (rfl | ⟨hr0, rfl⟩)
    · exact doubly_mem_indexSectors _ _ hc'
    · exact inner_mem_indexSectors _ _ hc' (by rw [hcount, if_neg hr0]; omega)
  · simp only [indexSectors, if_pos hc', hindirect, hdoubly,
      map_congr_left fun j hj => hword j (mem_range.mp hj)]
  · obtain ⟨k, rfl⟩ := Nat.exists_eq_add_of_le hi
    rw [hdata k (by omega)]
    exact hzero _ (getElem_mem _)

theorem exists_inner (hc : 252 < c) : ∃ m r, r < 128 ∧ c = 252 + 128 * m + r :=
  ⟨(c - 252) / 128, (c - 252) % 128, Nat.mod_lt _ (by decide), by omega⟩

/-- **Growth inside the last inner block**, or inside the next one if that is full. -/
theorem addInode_doubly (halloc : Allocates alloc) (hok : MapOk fs) (hsmall : MapSmall fs)
    (hdi : InodeOk fs di) {new : ℤ} (hc : blockCount di.length.toInt = c) (ht : sectorCount new = t)
    (hc' : 252 < c) (hct : c < t) (hone : t ≤ 252 + 128 * ((c - 252) / 128 + 1))
    (hmax : t ≤ 252 + 128 * 128) (hfree : (t - c) + (indexCount t - indexCount c) ≤ freeCount fs) :
    Ensures diskHandler (addInode alloc di new) fs (fun di' fs' =>
      di'.length = Int32.ofInt new ∧ Grown fs fs' di di' c t) := by
  obtain ⟨m, r, hr, hcm⟩ := exists_inner hc'
  have hm : m < 128 := by omega
  rw [show (c - 252) / 128 = m by omega] at hone
  obtain ⟨hcnt, hsec⟩ := hdi.counts hc
  have hnodup : (indexSectors fs.store.sectors di c).Nodup :=
    (nodup_append.mp (hc ▸ hdi.nodup)).1
  have hdmem : di.doublyIndirect ∈ indexSectors fs.store.sectors di c :=
    doubly_mem_indexSectors _ _ hc'
  have himem : r ≠ 0 → wordAt (fs.store.sectors di.doublyIndirect) m ∈
      indexSectors fs.store.sectors di c := fun h =>
    inner_mem_indexSectors _ _ hc' (by unfold innerCount; omega)
  obtain ⟨W, hW⟩ : ∃ W : Set Sector, W = { s | s = di.doublyIndirect ∨
    (r ≠ 0 ∧ s = wordAt (fs.store.sectors di.doublyIndirect) m) } := ⟨_, rfl⟩
  have hdW : di.doublyIndirect ∈ W := by rw [hW]; exact .inl rfl
  have h1 : Grew W fs (touch { fs with stack := fun n => fs.stack (n + 1) } di.doublyIndirect) [] :=
    ((Grew.refl W hok).pop _).touch (.inr hdW)
  have hinner : wordsOf (fs.store.sectors di.doublyIndirect) ⟨m, hm⟩ =
      wordAt (fs.store.sectors di.doublyIndirect) m := (wordAt_eq _ hm).symm
  have hcount : indexCount t - indexCount c = if r = 0 then 1 else 0 := by
    unfold indexCount innerCount
    split_ifs <;> omega
  rw [ensures_addInode_doubly hcnt ht hc' hct (hsec _ hdmem).1]
  refine (innerLoop_one halloc h1.ok' (h1.small hsmall) hcm hm hr hct hone _ (W := W)
    (show _ ≤ freeCount fs by omega) (fun h => ?_) (fun h => ?_)).mono ?_
  · rw [hinner]
    exact ⟨(hsec _ (himem h)).1, by rw [hW]; exact .inr ⟨h, rfl⟩⟩
  · rw [hinner, h1.tree]
    exact (hsec _ (himem h)).2
  · rintro ⟨_, blocks, _⟩ fs2 ⟨I, L, a, hI, hL, h2, hother, hold, hblock, hzero⟩
    have h12 : Grew W fs fs2 (I ++ L) := h1.trans h2
    dsimp only at hI hother hold hblock ⊢
    rw [ensures_cacheWrite (by rw [h12.size]; exact (hsec _ hdmem).1)]
    -- the doubly indirect block is not the inner one, nor among the new ones
    have hout : ∀ s ∈ I ++ L, s ≠ di.doublyIndirect := by
      rintro s hs rfl
      exact (h12.fresh _ hs).2 (hsec _ hdmem).2.1
    have hne : blocks ⟨m, hm⟩ ≠ di.doublyIndirect := by
      by_cases h : r = 0
      · exact hout _ (mem_append_left _ (by rw [hI, if_pos h]; exact mem_singleton_self _))
      · rw [(hold h).1, hinner]
        exact ((index_distinct hc' hnodup).2.1 m (by unfold innerCount; omega)).2
    refine ⟨rfl, grown_of_inner (a := a) hcm hc' hm hr hct hone hnodup (fun s hs => (hsec s hs).2)
      rfl rfl rfl hW (h12.put (.inr hdW) (hsec _ hdmem).2.2) hI hL hother (fun h => ?_)
      (put_sectors_self ..) ?_ fun s hs => ?_⟩
    · exact ⟨(hold h).1, by rw [(hold h).2, hinner]; rfl⟩
    · rw [← hblock]
      exact put_sectors_of_ne _ _ hne
    · rw [← hzero s hs]
      exact put_sectors_of_ne _ _ (hout s (mem_append_right _ hs))

end Pintos.Fs

import Pintos.InodeGrowDoubly
import Pintos.InodeCreate

/-! # Exact growth

When `add_inode` is exact, and why it is not otherwise (`addInode_growsExactly_iff`).

* Growth that starts with at most 252 blocks and ends with more passes the address of the array
  `zeros` to `cache_read` as a sector number, which is outside every device
  (`not_ensures_addInode_cross`).
* Growth that leaves the last inner block goes on into inner blocks that it never allocated,
  since `current_sectors` is not advanced in the doubly indirect part: the counts do not fit
  (`not_growsExactly_next`).
* When the free map does not fit into the first 252 blocks of its file, every growth that needs
  a sector faults (`not_ensures_addInode_big`). -/

namespace Pintos.Fs

open Interaction Paging List

variable {alloc : Prog fsSig (Option Sector)} {fs : Fs}

/-- `add_inode (di, new)` returns an inode of that length, in which the blocks that the file had
are where they were and the others, with their index blocks, were allocated.  It accessed
sectors of the inode, and `free_map_allocate` those of the free map's file. -/
def GrowsExactly (alloc : Prog fsSig (Option Sector)) (fs : Fs) (di : InodeDisk) (new : ℤ) : Prop :=
  Ensures diskHandler (addInode alloc di new) fs (fun di' fs' =>
    di'.length.toInt = new ∧
    (∀ i < blockCount di.length.toInt,
      mapSector fs'.store.sectors di' i = mapSector fs.store.sectors di i) ∧
    Allocated fs fs' di' (blockCount di.length.toInt) (blockCount new) ∧
    ∃ xs : List Sector, fs'.accesses = xs ++ fs.accesses ∧ ∀ s ∈ xs,
      s ∈ indexSectors fs'.store.sectors di' (blockCount new) ++
        dataSectors fs'.store.sectors di' (blockCount new) ∨ s ∈ mapTree fs)

/-! ### From the indirect to the doubly indirect blocks -/

variable {c t : ℕ}

theorem always_growDirect (di : InodeDisk) (hct : c ≤ t) :
    Always diskHandler (growDirect alloc t ⟨di, c, (t : ℤ) - c⟩) fs (fun g _ =>
      g.current = (max c (min t 124) : ℕ) ∧ g.new = (t : ℤ) - (max c (min t 124) : ℕ)) := by
  unfold growDirect
  by_cases hc : c < 124
  · rw [if_pos (by simp only; omega)]
    refine always_bind (always_forLoop (fun j x _ => x.2 = j ∧ j ≤ (min t 124 : ℕ)) ?_ _ _ _ _ ?_) ?_
    · rintro j x fs1 ⟨hx, -⟩ hcond
      rw [decide_eq_true_iff] at hcond
      exact always_then fun y fs2 => always_ret ⟨by rw [hx], by omega⟩
    · exact ⟨rfl, by simp only; omega⟩
    · rintro r fs1 ⟨⟨hr, hle⟩, hend⟩
      refine always_ret ⟨?_, ?_⟩
      · simp only [decide_eq_false_iff_not] at hend
        change r.2.2 = _
        omega
      · simp only
        split_ifs <;> omega
  · rw [if_neg (by simp only; omega)]
    exact always_ret ⟨by simp only; omega, by simp only; omega⟩

variable {g : Growth} {Q : InodeDisk → Fs → Prop}

theorem always_growIndirect (hcur : g.current = c) (hnew : g.new = (t : ℤ) - c)
    (h1 : 124 ≤ c) (h2 : c ≤ 252) (ht : 252 < t) :
    Always diskHandler (growIndirect alloc t g) fs (fun g _ => g.current = 252 ∧ 0 < g.new) := by
  unfold growIndirect
  by_cases hc : c < 252
  · rw [if_pos (by omega)]
    refine always_then fun q fs1 => ?_
    refine always_bind (always_forLoop (fun j x _ => x.2 = j ∧ j ≤ 252) ?_ _ _ _ _ ?_) ?_
    · rintro j x fs1 ⟨hx, -⟩ hcond
      rw [decide_eq_true_iff] at hcond
      exact always_then fun y fs2 => always_ret ⟨by rw [hx], by omega⟩
    · exact ⟨rfl, by omega⟩
    · rintro r fs1 ⟨⟨hr, hle⟩, hend⟩
      refine always_then fun _ fs2 => always_ret ⟨?_, ?_⟩
      · simp only [decide_eq_false_iff_not] at hend
        change r.2.2 = _
        omega
      · simp only
        omega
  · rw [if_neg (by omega)]
    exact always_ret ⟨by omega, by omega⟩

/-- The address of `zeros` is no sector number. -/
theorem not_ensures_growDoubly (hcur : g.current = 252) (hnew : 0 < g.new)
    (hsize : fs.store.size ≤ 0xc0000000) {Q : Growth → Fs → Prop} :
    ¬ Ensures diskHandler (growDoubly alloc g) fs Q := by
  intro h
  rw [growDoubly, if_pos hnew, ensures_bind, openDoubly, ensures_bind, ensures_uninit,
    if_pos (by omega), ensures_bind] at h
  obtain ⟨s, fs1, -, h, hsize1⟩ := h.and_always (always_size alloc _)
  rw [ensures_bind, ensures_address, ensures_bind] at h
  refine not_ensures_cacheRead ?_ h
  refine UInt32.le_trans ?_ (fs1.addresses 0).property
  rw [hsize1]
  exact hsize

variable {di : InodeDisk} {new : ℤ}

theorem not_ensures_addInode_cross (hcnt : sectorCount di.length.toInt = c)
    (ht : sectorCount new = t) (hc : c ≤ 252) (ht' : 252 < t) (hsize : fs.store.size ≤ 0xc0000000)
    : ¬ Ensures diskHandler (addInode alloc di new) fs Q := by
  intro h
  rw [addInode_eq hcnt ht (by omega), ensures_bind] at h
  obtain ⟨g1, fs1, -, h, ⟨hcur1, hnew1⟩, hsize1⟩ := h.and_always
    ((always_growDirect di (by omega)).and (always_size _ fs))
  rw [ensures_bind] at h
  obtain ⟨g2, fs2, -, h, ⟨hcur2, hnew2⟩, hsize2⟩ := h.and_always
    ((always_growIndirect hcur1 hnew1 (by omega) (by omega) ht').and (always_size _ fs1))
  rw [ensures_bind] at h
  exact not_ensures_growDoubly hcur2 hnew2 (by rw [hsize2, hsize1]; exact hsize) h

/-! ### A free map that cannot be written -/

theorem not_ensures_addInode_big (hover : Overflows alloc) (hok : MapOk fs) (hbig : ¬ MapSmall fs)
    (hpos : 0 < freeCount fs) (hdi : InodeOk fs di) (hc : blockCount di.length.toInt = c)
    (ht : sectorCount new = t) (hct : c < t) (ht' : t ≤ 252 ∨ 252 < c) (hmax : t ≤ 252 + 128 * 128)
    : ¬ Ensures diskHandler (addInode alloc di new) fs Q := by
  obtain ⟨hcnt, hsec⟩ := hdi.counts hc
  -- reads do not help
  have hfault : ∀ fs', Grew Set.univ fs fs' [] → ∀ Q, ¬ Ensures diskHandler alloc fs' Q :=
    fun fs' h => hover fs' h.ok' (mt h.small_iff.mp hbig)
      (by have := h.freeCount_add; simp at this; omega)
  have hpop := (Grew.refl Set.univ hok).pop (fun n => fs.stack (n + 1))
  by_cases hc' : 252 < c
  · obtain ⟨m, r, hr, hcm⟩ := exists_inner hc'
    have h1 := hpop.touch (s := di.doublyIndirect) (.inr trivial)
    rw [ensures_addInode_doubly hcnt ht hc' hct (hsec _ (doubly_mem_indexSectors _ _ hc')).1, innerLoop,
      show (c - 252) / 128 = m by omega, show (c - 252) % 128 = r by omega,
      forLoop_round (by omega) (by rw [decide_eq_true_iff]; simp only; omega), ensures_bind, growInner,
      ensures_bind, openInner, ensures_bind, ensures_uninit]
    generalize hfs1 : touch { fs with stack := fun n => fs.stack (n + 1) } di.doublyIndirect = fs1 at h1
    have h2 := h1.pop (fun n => fs1.stack (n + 1))
    by_cases hr0 : r = 0
    · rw [if_pos (by omega), ensures_bind]
      exact hfault _ h2 _
    · have hm : m < 128 := by omega
      have hlt : wordsOf (fs.store.sectors di.doublyIndirect) ⟨m, hm⟩ <
          ({ fs1 with stack := fun n => fs1.stack (n + 1) } : Fs).store.size := by
        rw [h2.size, ← wordAt_eq _ hm]
        exact (hsec _ (inner_mem_indexSectors _ _ hc' (by unfold innerCount; omega))).1
      rw [if_neg (by omega), ensures_bind, ensures_index (by omega) (by omega), ensures_bind]
      simp only [Int.toNat_natCast]
      intro hrun
      have hrun := (ensures_cacheRead hlt).mp hrun
      rw [ensures_ret, ensures_bind] at hrun
      exact not_ensures_fillLoop (hfault _ (h2.touch (.inr trivial))) Prod.fst
        (fun y z => (z.1, y.2.1 - 1, 0)) (fun k => k) (by rw [decide_eq_true_iff]; simp only; omega)
        (by omega) hrun
  · rw [addInode_eq hcnt ht hct, ensures_bind, growDirect]
    by_cases h124 : c < 124
    · rw [if_pos (by simp only; omega)]
      simp only [ensures_bind]
      exact not_ensures_fillLoop (hfault fs (Grew.refl _ hok)) Prod.fst (fun x y => (y.1, x.2 + 1))
        (fun j => j) (by rw [decide_eq_true_iff]; omega) (by omega)
    · rw [if_neg (by simp only; omega), ensures_ret, ensures_bind, growIndirect,
        if_pos (by simp only; omega)]
      simp only [ensures_bind, openIndirect, ensures_uninit]
      by_cases h : c = 124
      · rw [if_pos (by omega), ensures_bind]
        exact hfault _ hpop _
      · have hlt : di.indirect < ({ fs with stack := fun n => fs.stack (n + 1) } : Fs).store.size :=
          (hsec _ (indirect_mem_indexSectors _ _ (by omega))).1
        rw [if_neg (by omega), ensures_bind]
        intro hrun
        have hrun := (ensures_cacheRead hlt).mp hrun
        rw [ensures_ret] at hrun
        exact not_ensures_fillLoop (hfault _ (hpop.touch (.inr trivial))) Prod.fst
          (fun x y => (y.1, x.2 + 1)) (fun j => j - 124) (by rw [decide_eq_true_iff]; omega)
          (by omega) hrun

/-! ### From one inner block to the next -/

/-- The array of the doubly indirect block keeps the entries that were read, but for the first
inner block of the loop. -/
theorem always_innerLoop {new : ℕ} {blocks : Words} :
    Always diskHandler (innerLoop alloc c new blocks) fs (fun z _ =>
      ∀ i : Fin 128, (c - 252) / 128 < i.val → z.2.1 i = blocks i) := by
  refine (always_forLoop (fun j x _ => (((c - 252) / 128 : ℕ) : ℤ) ≤ j ∧
    ∀ i : Fin 128, (c - 252) / 128 < i.val → x.1 i = blocks i) ?_ _ _ _ _ ?_).mono ?_
  · rintro j x fs1 ⟨hj, hx⟩ -
    refine always_bind (R := fun q _ => ∀ i : Fin 128, (c - 252) / 128 < i.val → q.1 i = blocks i)
      ?_ fun q fs2 hq => ?_
    · refine always_then fun a fs2 => ?_
      split_ifs with hcur
      · refine always_then fun o fs3 => ?_
        cases o with
        | none => exact always_ret hx
        | some s =>
          unfold assign
          split_ifs with hin
          · refine always_bind (R := fun b _ => b = Function.update x.1 ⟨j.toNat, hin.2⟩ s)
              (always_ret rfl) ?_
            rintro _ fs4 rfl
            refine always_ret fun i hi => ?_
            rw [← hx i hi]
            refine Function.update_of_ne (fun he => ?_) ..
            have hv := congrArg Fin.val he
            simp only at hv
            omega
          · exact fun a s' hr => by cases hr
      · refine always_then fun w fs3 => ?_
        exact always_then fun b fs4 => always_ret hx
    · refine always_then fun r fs3 => ?_
      refine always_then fun s fs4 => ?_
      exact always_then fun _ fs5 => always_ret ⟨by omega, hq⟩
  · exact ⟨le_rfl, fun _ _ => rfl⟩
  · exact fun z fs' h => h.1.2

/-- The loop over several inner blocks, if the entries that it finds for them name sectors
outside the free map's file: it allocates the blocks, and one inner block at most. -/
theorem innerLoop_count (halloc : Allocates alloc) (hsmall : MapSmall fs) {fs1 : Fs}
    {m r : ℕ} (hc : c = 252 + 128 * m + r) (hr : r < 128) (hct : c < t)
    (hmax : t ≤ 252 + 128 * 128) (blocks : Words) (h1 : Grew { s | s ∉ mapTree fs } fs fs1 [])
    (hfree : (t - c) + (if r = 0 then 1 else 0) ≤ freeCount fs)
    (hold : ∀ i : Fin 128, m ≤ i.val → 252 + 128 * i.val < t →
      c ≠ 252 + 128 * i.val → blocks i < fs.store.size ∧ blocks i ∉ mapTree fs) :
    Ensures diskHandler (innerLoop alloc c (t - c) blocks) fs1 (fun _ fs' =>
      freeCount fs' + ((t - c) + if r = 0 then 1 else 0) = freeCount fs) := by
  rw [innerLoop, show (c - 252) / 128 = m by omega, show (c - 252) % 128 = r by omega]
  refine (ensures_forLoop (fun j x fs2 => ∃ (jn new start : ℕ) (L : List Sector), j = jn ∧ m ≤ jn ∧
      x.2 = ((new : ℤ), (start : ℤ)) ∧ Grew { s | s ∉ mapTree fs } fs fs2 L ∧
      (∀ i : Fin 128, jn ≤ i.val → x.1 i = blocks i) ∧
      (jn = m → start = r ∧ new = t - c ∧ L = []) ∧
      (m < jn → start = 0 ∧ new = t - (252 + 128 * jn) ∧
        L.length + new = (t - c) + if r = 0 then 1 else 0)) ?_ _ _ _ _ ?_).mono ?_
  · rintro j ⟨b, x⟩ fs2 ⟨jn, new, start, L, rfl, hle, hx, hgrew, hb, hfirst, hnext⟩ hcond
    obtain rfl : x = ((new : ℤ), (start : ℤ)) := hx
    simp only [decide_eq_true_iff] at hcond
    have hjn : jn < 128 := by omega
    have hcount := hgrew.freeCount_add
    -- the round starts in the middle of an inner block only if it is the first
    have hround : start < 128 ∧ 252 + 128 * jn < t ∧
        new - min (128 - start) new = t - (252 + 128 * (jn + 1)) ∧
        L.length + (if c = 252 + 128 * jn then 1 else 0) + new =
          (t - c) + if r = 0 then 1 else 0 := by
      rcases Nat.eq_or_lt_of_le hle with rfl | hlt
      · obtain ⟨rfl, rfl, rfl⟩ := hfirst rfl
        refine ⟨hr, by omega, by omega, ?_⟩
        simp only [length_nil, show c = 252 + 128 * m ↔ start = 0 by omega]
        omega
      · rw [if_neg (show ¬ c = 252 + 128 * jn by omega)]
        exact ⟨by omega, by omega, by omega, by omega⟩
    obtain ⟨hstart, hin, hnew', hlen⟩ := hround
    have hentry : c ≠ 252 + 128 * jn →
        b ⟨jn, hjn⟩ < fs.store.size ∧ b ⟨jn, hjn⟩ ∉ mapTree fs := fun h => by
      have hb' : b ⟨jn, hjn⟩ = blocks ⟨jn, hjn⟩ := hb ⟨jn, hjn⟩ le_rfl
      rw [hb']
      exact hold ⟨jn, hjn⟩ hle hin h
    refine (growInner_spec halloc hgrew.ok' (hgrew.small hsmall) hjn hstart (by omega) b
      (W := { s | s ∉ mapTree fs }) (by omega)
      (fun h => ⟨by rw [hgrew.size]; exact (hentry h).1, (hentry h).2⟩)
      (fun h => by rw [hgrew.tree]; exact (hentry h).2)).mono ?_
    rintro ⟨b', x'⟩ fs3 ⟨I, L2, a, hI, hL2, hgrew2, hx', hother, -, -⟩
    have hIlen : I.length = if c = 252 + 128 * jn then 1 else 0 := by rw [hI]; split_ifs <;> rfl
    refine ⟨jn + 1, new - L2.length, 0, L ++ (I ++ L2), by push_cast; rfl, by omega, hx',
      hgrew.trans hgrew2, fun i hi => ?_, fun h => by omega, fun _ => ⟨rfl, by omega, ?_⟩⟩
    · rw [hother i fun he => by rw [he] at hi; simp only at hi; omega]
      exact hb i (by omega)
    · rw [length_append, length_append]
      omega
  · exact ⟨m, t - c, r, [], rfl, le_rfl, rfl, h1, fun _ _ => rfl, fun _ => ⟨rfl, rfl, rfl⟩,
      fun h => absurd h (lt_irrefl m)⟩
  · rintro ⟨j, b, x⟩ fs' ⟨⟨jn, new, start, L, rfl, hle, hx, hgrew, -, hfirst, hnext⟩, hend⟩
    obtain rfl : x = ((new : ℤ), (start : ℤ)) := hx
    simp only [decide_eq_false_iff_not] at hend
    have hcount := hgrew.freeCount_add
    rcases Nat.eq_or_lt_of_le hle with rfl | hlt
    · omega
    · omega

/-- **Growth beyond the last inner block** is not exact. -/
theorem not_growsExactly_next (halloc : Allocates alloc) (hok : MapOk fs) (hsmall : MapSmall fs)
    (hdi : InodeOk fs di) (hc : blockCount di.length.toInt = c) (ht : sectorCount new = t)
    (hc' : 252 < c) (hnext : 252 + 128 * ((c - 252) / 128 + 1) < t) (hmax : t ≤ 252 + 128 * 128)
    (hfree : (t - c) + (indexCount t - indexCount c) ≤ freeCount fs) :
    ¬ GrowsExactly alloc fs di new := by
  obtain ⟨m, r, hr, hcm⟩ := exists_inner hc'
  obtain ⟨hcnt, hsec⟩ := hdi.counts hc
  have ht' : blockCount new = t := by rw [blockCount, ht, Int.toNat_natCast]
  have hdmem : di.doublyIndirect ∈ indexSectors fs.store.sectors di c :=
    doubly_mem_indexSectors _ _ hc'
  have hcount : (if r = 0 then 1 else 0) < indexCount t - indexCount c := by
    unfold indexCount innerCount
    split_ifs <;> omega
  intro h
  rw [GrowsExactly, ensures_addInode_doubly hcnt ht hc' (by omega) (hsec _ hdmem).1, hc, ht'] at h
  obtain ⟨z, fs2, hrun, h, hsame, hsize⟩ := h.and_always (always_innerLoop.and (always_size _ _))
  rw [ensures_cacheWrite (by rw [hsize]; exact (hsec _ hdmem).1)] at h
  obtain ⟨-, -, hall, -⟩ := h
  -- the entries of the further inner blocks are those that were read, so they were free
  have hentry : ∀ i : Fin 128, m < i.val → 252 + 128 * i.val < t →
      wordsOf (fs.store.sectors di.doublyIndirect) i < fs.store.size ∧
        ¬ Marked fs (wordsOf (fs.store.sectors di.doublyIndirect) i) := by
    intro i him hit
    refine hall.fresh _ (mem_append_right _ (mem_append_left _ (mem_map.mpr
      ⟨i.val, mem_range'_1.mpr ⟨?_, ?_⟩, ?_⟩)))
    · unfold innerCount; omega
    · unfold innerCount; omega
    · change wordAt (Function.update fs2.store.sectors di.doublyIndirect (blockOf z.2.1)
        di.doublyIndirect) i.val = _
      rw [Function.update_self, wordAt_blockOf _ i.isLt]
      exact hsame i (by omega)
  have hgrew : Grew { s | s ∉ mapTree fs } fs
      (touch { fs with stack := fun n => fs.stack (n + 1) } di.doublyIndirect) [] :=
    ((Grew.refl _ hok).pop _).touch (.inr (hsec _ hdmem).2.2)
  have htotal := (innerLoop_count halloc hsmall hcm hr (by omega) hmax _ hgrew (by omega)
    (fun i him hit hne => ?_)).of_run hrun
  · have hcount' : freeCount fs = freeCount fs2 + ((t - c) + (indexCount t - indexCount c)) :=
      hall.count
    omega
  · rcases Nat.eq_or_lt_of_le him with him | him
    · rw [← wordAt_eq _ i.isLt]
      have hmem := hsec _ (inner_mem_indexSectors fs.store.sectors di hc'
        (show i.val < innerCount c by unfold innerCount; omega))
      exact ⟨hmem.1, hmem.2.2⟩
    · exact ⟨(hentry i him hit).1, fun htree => (hentry i him hit).2 (hok.marked htree)⟩

/-! ### Exact growth -/

theorem Grown.growsExactly {fs' : Fs} {di' : InodeDisk} (h : Grown fs fs' di di' c t)
    (hct : c ≤ t) : Allocated fs fs' di' c t ∧
      ∃ xs : List Sector, fs'.accesses = xs ++ fs.accesses ∧ ∀ s ∈ xs,
        s ∈ indexSectors fs'.store.sectors di' t ++ dataSectors fs'.store.sectors di' t ∨
          s ∈ mapTree fs := by
  obtain ⟨xs, hxs, hlog⟩ := h.grew.log
  have hperm := perm_freshSectors fs'.store.sectors di' hct
  refine ⟨h.grew.allocated hct h.zero, xs, hlog, fun s hs => ?_⟩
  rcases hxs s hs with hf | hw | hm
  · exact .inl (hperm.mem_iff.mpr (mem_append_right _ hf))
  · refine .inl (hperm.mem_iff.mpr (mem_append_left _ (mem_append_left _ ?_)))
    rw [h.index]
    exact hw
  · exact .inr hm

/-- **Exact growth**: `add_inode` is exact when the file needs no further sector, and otherwise
when the free map can be written and the growth ends with at most 252 blocks or in the inner
block in which it starts. -/
theorem addInode_growsExactly_iff (depth : ℕ) (fs : Fs) (di : InodeDisk) (new : ℕ)
    (hok : MapOk fs) (hdi : InodeOk fs di) (hlt : di.length.toInt < new)
    (hmax : new ≤ (124 + 128 + 128 * 128) * 512) (hdev : fs.store.size ≤ 0xc0000000)
    (hfree : (blockCount new - blockCount di.length.toInt) +
      (indexCount (blockCount new) - indexCount (blockCount di.length.toInt)) ≤ freeCount fs) :
    GrowsExactly (freeMapAllocate (depth + 1) 1) fs di new ↔
      blockCount new = blockCount di.length.toInt ∨ (MapSmall fs ∧ (blockCount new ≤ 252 ∨
        (252 < blockCount di.length.toInt ∧
          blockCount new ≤ 252 + 128 * ((blockCount di.length.toInt - 252) / 128 + 1)))) := by
  have halloc := freeMapAllocate_spec depth
  have hnew : (Int32.ofInt new).toInt = new := Int32.toInt_ofInt_of_le (by omega) (by omega)
  have ht : sectorCount new = blockCount new := sectorCount_eq_blockCount (by omega)
  have hcnt : sectorCount di.length.toInt = blockCount di.length.toInt :=
    sectorCount_eq_blockCount hdi.length_nonneg
  have hmono := sectorCount_le hdi.length_nonneg hlt.le
  have hmax' : blockCount new ≤ 252 + 128 * 128 := by rw [blockCount_natCast]; omega
  -- from a growth to its exactness
  have hexact : Ensures diskHandler (addInode (freeMapAllocate (depth + 1) 1) di new) fs
      (fun di' fs' => di'.length = Int32.ofInt new ∧
        Grown fs fs' di di' (blockCount di.length.toInt) (blockCount new)) →
      GrowsExactly (freeMapAllocate (depth + 1) 1) fs di new := fun h => h.mono (by
    rintro di' fs' ⟨hlen, hgrown⟩
    exact ⟨by rw [hlen, hnew], hgrown.map, hgrown.growsExactly (by omega)⟩)
  by_cases hsame : blockCount new = blockCount di.length.toInt
  · refine iff_of_true (hexact ?_) (.inl hsame)
    rw [hsame]
    exact addInode_same hok hlt (by rw [ht, hcnt, hsame]) _
  · have hct : blockCount di.length.toInt < blockCount new := by omega
    rw [or_iff_right hsame]
    by_cases hsmall : MapSmall fs
    · rw [and_iff_right hsmall]
      by_cases h252 : blockCount new ≤ 252
      · exact iff_of_true (hexact (addInode_small halloc hok hsmall hdi rfl ht hct h252 hfree))
          (.inl h252)
      · rw [or_iff_right h252]
        by_cases hc : 252 < blockCount di.length.toInt
        · rw [and_iff_right hc]
          by_cases hone : blockCount new ≤ 252 + 128 * ((blockCount di.length.toInt - 252) / 128 + 1)
          · exact iff_of_true (hexact (addInode_doubly halloc hok hsmall hdi rfl ht hc hct hone hmax'
              hfree)) hone
          · exact iff_of_false (not_growsExactly_next halloc hok hsmall hdi rfl ht hc (by omega) hmax'
              hfree) hone
        · exact iff_of_false (not_ensures_addInode_cross hcnt ht (by omega) (by omega) hdev)
            fun h => hc h.1
    · refine iff_of_false (fun h => ?_) fun h => hsmall h.1
      by_cases hcross : blockCount new ≤ 252 ∨ 252 < blockCount di.length.toInt
      · exact not_ensures_addInode_big (not_ensures_freeMapAllocate depth) hok hsmall (by omega) hdi rfl
          ht hct hcross hmax' h
      · exact not_ensures_addInode_cross hcnt ht (by omega) (by omega) hdev h

theorem inodeOk_emptyInode (fs : Fs) : InodeOk fs emptyInode :=
  ⟨by decide, nodup_nil, fun _ hs => by cases hs⟩

theorem addInode_growsExactly_iff_indirect :
    GrowsExactly (freeMapAllocate 1 1) initFs emptyInode (130 * 512 : ℕ) ↔
      blockCount (130 * 512 : ℕ) = blockCount emptyInode.length.toInt ∨
      (MapSmall initFs ∧ (blockCount (130 * 512 : ℕ) ≤ 252 ∨
        (252 < blockCount emptyInode.length.toInt ∧ blockCount (130 * 512 : ℕ) ≤
          252 + 128 * ((blockCount emptyInode.length.toInt - 252) / 128 + 1)))) :=
  addInode_growsExactly_iff 0 initFs emptyInode (130 * 512) mapOk_initFs (inodeOk_emptyInode _)
    (by decide) (by decide) (by decide) (by rw [freeCount_initFs]; decide)

/-- Growth from no block to 253, for which 256 sectors would be needed and 510 are free. -/
theorem not_growsExactly_doubly :
    blockCount (252 * 512 + 1 : ℕ) = 253 ∧ freeCount initFs = 510 ∧
      ¬ GrowsExactly (freeMapAllocate 1 1) initFs emptyInode (252 * 512 + 1 : ℕ) :=
  ⟨by decide, freeCount_initFs, not_ensures_addInode_cross (c := 0) (t := 253) (by decide) (by decide)
    (by decide) (by decide) (by decide)⟩

end Pintos.Fs

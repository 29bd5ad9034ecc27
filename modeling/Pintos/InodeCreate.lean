import Pintos.Allocation

/-! # Creating an inode

What `inode_create` leaves on the disk.  Up to 252 blocks it builds the map that the claimed
length needs: every block in a sector of its own, newly allocated and zero-filled, and the
indirect block likewise (`inodeCreate_spec`).

Above that it does not: the inner blocks are written to the sector that entry `k` of the outer
array names, where `k` is the counter of the *inner* loop.  That entry is outside the array
when the inner block is full, and otherwise what the stack happens to hold.  So the map is
right for every content of the stack exactly up to 252 blocks (`inodeCreate_allocates_iff`). -/

namespace Pintos.Fs

open Interaction List Paging

variable {alloc : Prog fsSig (Option Sector)} {fs : Fs}

/-! ### The parts of the function -/

variable {n : ℕ}

theorem createDirect_spec (halloc : Allocates alloc) (hok : MapOk fs) (hsmall : 0 < n → MapSmall fs)
    (hfree : min n 124 ≤ freeCount fs) : Ensures diskHandler (createDirect alloc n) fs (fun r fs' =>
      ∃ L : List Sector, L.length = min n 124 ∧ Grew ∅ fs fs' L ∧
        r.1 = fillArr (fun _ => 0) 0 L ∧ (∀ s ∈ L, fs'.store.sectors s = zeros) ∧
        (0 < n → r.2 = true)) := by
  rw [createDirect, ensures_bind]
  refine (fillLoop_spec halloc Prod.fst (fun x y => (y.1, x.2 || y.2)) (fun j => j)
    (fun k x => 0 < k → x.2 = true) (fun _ _ => rfl) (fun _ _ _ _ _ => Bool.or_true _)
    (fun k _ => by simp) (show 0 + min n 124 ≤ 124 by omega) (fun k _ _ _ => ?_) (by omega)
    (fun h => absurd h (lt_irrefl 0)) hok (fun hpos => hsmall (by omega)) hfree).mono ?_
  · rw [decide_eq_true_iff]
    omega
  · rintro r fs' ⟨-, hsuccess, L, hlen, hgrew, harr, hzero⟩
    rw [ensures_ret]
    exact ⟨L, hlen, hgrew, harr, hzero, fun hn => hsuccess (by omega)⟩

theorem createIndirect_spec (halloc : Allocates alloc) (hok : MapOk fs)
    (hsmall : 0 < n → MapSmall fs)
    (hfree : (if 124 < n then 1 else 0) + min 128 (n - 124) ≤ freeCount fs) :
    Ensures diskHandler (createIndirect alloc n) fs (fun r fs' =>
      ∃ I L : List Sector, I = (if 124 < n then [r.getD 0] else []) ∧
        L.length = min 128 (n - 124) ∧ Grew ∅ fs fs' (I ++ L) ∧
        (∃ a, 124 < n → fs'.store.sectors (r.getD 0) = blockOf (fillArr a 0 L)) ∧
        ∀ s ∈ L, fs'.store.sectors s = zeros) := by
  by_cases hn : 124 < n
  · rw [if_pos hn] at hfree
    rw [createIndirect, if_pos (by omega), ensures_bind]
    refine (halloc fs hok (hsmall (by omega)) (by omega)).mono ?_
    rintro _ fs1 ⟨s, rfl, h1⟩
    have hcount := h1.freeCount_add
    rw [length_singleton] at hcount
    have h1' := h1.pop (fun n => fs1.stack (n + 1))
    rw [ensures_bind, ensures_uninit, ensures_bind]
    refine (fillLoop_spec halloc (fun x => x) (fun _ y => y.1) (fun j => j)
      (fun _ _ => True) (fun _ _ => rfl) (fun _ _ _ _ => trivial) (fun k _ => by simp)
      (show 0 + min 128 (n - 124) ≤ 128 by omega) (fun k _ _ _ => ?_) (by omega) trivial h1'.ok'
      (fun _ => h1'.small (hsmall (by omega)))
      (show min 128 (n - 124) ≤ freeCount fs1 by omega)).mono ?_
    · rw [decide_eq_true_iff]
      omega
    · rintro r fs2 ⟨-, -, L, hlen, h2, harr, hzero⟩
      have h12 : Grew ∅ fs fs2 ([s] ++ L) := h1'.trans h2
      have hs : s ∈ [s] ++ L := mem_cons_self
      rw [ensures_bind, ensures_cacheWrite (by rw [h12.size]; exact (h12.fresh s hs).1), ensures_ret]
      refine ⟨[s], L, (if_pos hn).symm, hlen, h12.put (.inl hs) (h12.notMem_tree hs),
        ⟨fs1.stack 0, fun _ => ?_⟩, fun t ht => ?_⟩
      · rw [← harr]
        exact put_sectors_self ..
      · have hne : t ≠ s := by
          rintro rfl
          exact (nodup_cons.mp h12.nodup).1 ht
        rw [← hzero t ht]
        exact put_sectors_of_ne _ _ hne
  · rw [createIndirect, if_neg (by omega), ensures_ret]
    exact ⟨[], [], (if_neg hn).symm, by simp; omega, Grew.refl _ hok, ⟨fun _ => 0, fun h => absurd h hn⟩,
      by simp⟩

theorem createDoubly_of_le (hn : n ≤ 252) : createDoubly alloc n = pure none :=
  if_neg (by omega)

/-! ### Up to 252 blocks -/

variable {sector : Sector} {length : ℕ}

/-- **`inode_create`** up to 252 blocks. -/
theorem inodeCreate_spec (halloc : Allocates alloc) (hok : MapOk fs)
    (hsector : sector < fs.store.size) (hmark : Marked fs sector) (htree : sector ∉ mapTree fs)
    (hsmall : 0 < blockCount length → MapSmall fs) (hn : blockCount length ≤ 252)
    (hfree : blockCount length + indexCount (blockCount length) ≤ freeCount fs) :
    Ensures diskHandler (inodeCreate alloc sector length) fs (fun r fs' =>
      r = true ∧ (inodeAt fs'.store.sectors sector).length.toInt = length ∧
      Grew {sector} fs fs' (freshSectors fs'.store.sectors (inodeAt fs'.store.sectors sector) 0
        (blockCount length)) ∧
      ∀ i < blockCount length, fs'.store.sectors
        (mapSector fs'.store.sectors (inodeAt fs'.store.sectors sector) i) = zeros) := by
  have hlt : length < 2 ^ 31 := by rw [blockCount_natCast] at hn; omega
  have hcnt : sectorCount length = blockCount length := sectorCount_eq_blockCount (by omega)
  generalize blockCount (length : ℤ) = n at hn hfree hcnt hsmall ⊢
  have hidx : indexCount n = if 124 < n then 1 else 0 := by
    rw [indexCount, if_neg (show ¬ 252 < n by omega), Nat.add_zero]
  rw [inodeCreate, ensures_bind, ensures_assert (by omega)]
  simp only [hcnt, createDoubly_of_le hn, ensures_bind, ensures_ret]
  refine (createDirect_spec halloc hok hsmall (by omega)).mono ?_
  rintro r fs1 ⟨L1, hlen1, h1, hdirect, hzero1, hsuccess⟩
  have hcount := h1.freeCount_add
  refine (createIndirect_spec halloc h1.ok' (fun hpos => h1.small (hsmall hpos)) (by omega)).mono ?_
  rintro q fs2 ⟨I, L2, hI, hlen2, h2, ⟨a, hindirect⟩, hzero2⟩
  have h12 := h1.trans h2
  rw [ensures_cacheWrite (by rw [h12.size]; exact hsector)]
  set di : InodeDisk :=
    { direct := r.1
      indirect := q.getD 0
      doublyIndirect := none.getD 0
      length := Int32.ofInt length
      magic := inodeMagic } with hdi
  have h3 : Grew {sector} fs (put fs2 sector di.encode) (L1 ++ (I ++ L2)) :=
    (h12.mono (Set.empty_subset _)).put (.inr rfl) htree
  set fs3 := put fs2 sector di.encode with hfs3
  have hind : di.indirect = q.getD 0 := rfl
  -- the inode is not among the sectors that were allocated
  have hout : ∀ s ∈ L1 ++ (I ++ L2), fs3.store.sectors s = fs2.store.sectors s := by
    intro s hs
    have hne : s ≠ sector := by
      rintro rfl
      exact (h12.fresh s hs).2 hmark
    exact put_sectors_of_ne _ _ hne
  have hinode : inodeAt fs3.store.sectors sector = di := inodeAt_put ..
  have hfills : Fills fs3.store.sectors di 0 n L1 I L2 := by
    refine ⟨by omega, by omega, fun k hk => ?_, fun k hk => ?_, ?_⟩
    · rw [mapSector_direct _ _ (by omega), hdi]
      simp only [hdirect]
      exact fillArr_get _ _ _ hk (by omega)
    · have hn' : 124 < n := by omega
      rw [mapSector_indirect _ _ (by omega) (by omega),
        hout di.indirect (by rw [hI, if_pos hn', hind]; simp),
        hind, hindirect hn', wordAt_blockOf _ (by omega)]
      have hk' : max 0 124 + k - 124 = 0 + k := by omega
      simp only [hk']
      exact fillArr_get _ _ _ hk (by omega)
    · rw [hI, hind]
      simp
  rw [hinode]
  refine ⟨?_, Int32.toInt_ofInt_of_le (by omega) (by omega), h3.perm (hfills.perm hn (Nat.zero_le n)),
    fun i hi => hfills.zero (fun s hs => ?_) (fun s hs => ?_) (Nat.zero_le i) hi⟩
  · by_cases hpos : 0 < n
    · rw [hsuccess hpos]
      simp
    · simp only [Bool.or_eq_true, decide_eq_true_iff]
      omega
  · rw [hout s (mem_append_left _ hs), h1.keeps h2 hs (by simp)]
    exact hzero1 s hs
  · rw [hout s (mem_append_right _ (mem_append_right _ hs))]
    exact hzero2 s hs

/-! ### Above 252 blocks -/

/-- Every uninitialised array holds `w`. -/
def Stack (w : Words) (fs : Fs) : Prop := ∀ k, fs.stack k = w

theorem always_garbage {α : Type} {P : Words → Prop} (p : Prog fsSig α) (h : ∀ k, P (fs.stack k)) :
    Always diskHandler p fs (fun _ fs' => ∀ k, P (fs'.stack k)) := by
  refine always_invariant (fun e fs r fs' hs he n => ?_) p h
  obtain ⟨-, -, k, hk⟩ := diskHandler_keeps he
  rw [hk]
  exact hs _

theorem always_stack {α : Type} (w : Words) (p : Prog fsSig α) (h : Stack w fs) :
    Always diskHandler p fs (fun _ fs' => Stack w fs') := always_garbage (P := (· = w)) p h

theorem size_le_max (d : Disk) : d.size ≤ 0xffffffff :=
  UInt32.le_iff_toNat_le.mpr (Nat.le_of_lt_succ d.size.toNat_lt)

/-- The inner block of the first round goes to a sector that does not exist, or to one that an
entry outside the array names. -/
theorem not_ensures_createDoubly (halloc : Allocates alloc) (hok : MapOk fs)
    (hsmall : MapSmall fs) (hn : 252 < n) (hfree : 2 + min 128 (n - 252) ≤ freeCount fs)
    (hstack : Stack (fun _ => 0xffffffff) fs) {Q : Option Sector → Fs → Prop} :
    ¬ Ensures diskHandler (createDoubly alloc n) fs Q := by
  intro h
  rw [createDoubly, if_pos (by omega), ensures_bind] at h
  obtain ⟨_, fs1, -, h, ⟨s, rfl, h1⟩, hst1⟩ := h.and
    ((halloc fs hok hsmall (by omega)).and_always (always_stack _ alloc hstack))
  have hcount1 := h1.freeCount_add
  have h1' := h1.pop (fun n => fs1.stack (n + 1))
  have hst1' : Stack (fun _ => 0xffffffff) { fs1 with stack := fun n => fs1.stack (n + 1) } :=
    fun k => hst1 (k + 1)
  rw [ensures_bind, ensures_uninit, ensures_bind,
    forLoop_round (by decide) (by simp; omega), ensures_bind, ensures_bind] at h
  obtain ⟨_, fs2, -, h, ⟨s2, rfl, h2⟩, -⟩ := h.and
    ((halloc _ h1'.ok' (h1'.small hsmall) (show 0 < freeCount fs1 by
      rw [length_singleton] at hcount1; omega)).and_always (always_stack _ alloc hst1'))
  have hcount2 : freeCount fs2 + 1 = freeCount fs1 := h2.freeCount_add
  have h2' := h2.pop (fun n => fs2.stack (n + 1))
  rw [ensures_bind, ensures_assign le_rfl (by decide), ensures_bind, ensures_uninit,
    ensures_bind] at h
  obtain ⟨q, fs3, -, h, hq, -⟩ := h.and
    (fillLoop_spec halloc Prod.fst (fun y z => (z.1, y.2 - 1)) (fun k => k)
      (fun k y => y.2 = (n : ℤ) - 124 - 128 - k) (fun _ _ => rfl)
      (fun k y a hy => by simp only [hy]; push_cast; ring) (fun k _ => by simp)
      (show 0 + min 128 (n - 252) ≤ 128 by omega)
      (fun k y _ hy => by rw [decide_eq_true_iff, hy]; omega) (by omega) (by simp) h2'.ok'
      (fun _ => h2'.small (h1'.small hsmall)) (show min 128 (n - 252) ≤ freeCount fs2 by
        rw [length_singleton] at hcount1; omega))
  -- the counter of the inner loop is not that of the outer one
  rw [ensures_bind, hq] at h
  by_cases hfull : min 128 (n - 252) = 128
  · exact not_ensures_index (by rw [hfull]; decide) h
  · have hne : ∀ h1 h2, (⟨(0 + ((min 128 (n - 252) : ℕ) : ℤ)).toNat, h1⟩ : Fin 128) ≠
        ⟨(0 : ℤ).toNat, h2⟩ := fun _ _ he => by have hv := Fin.mk.inj he; omega
    rw [ensures_index (by omega) (by omega), Function.update_of_ne (hne _ _), hst1 0,
      ensures_bind] at h
    exact not_ensures_cacheWrite (size_le_max _) h

/-- Without the free map's file no inode of at least one block is created. -/
theorem not_ensures_inodeCreate (hfault : ∀ Q, ¬ Ensures diskHandler alloc fs Q)
    (hn : 0 < blockCount length) {Q : Bool → Fs → Prop} :
    ¬ Ensures diskHandler (inodeCreate alloc sector length) fs Q := by
  have hcnt : sectorCount length = blockCount length := sectorCount_eq_blockCount (by omega)
  rw [inodeCreate, ensures_bind, ensures_assert (by omega), ensures_bind, createDirect,
    ensures_bind]
  exact not_ensures_fillLoop hfault Prod.fst (fun x y => (y.1, x.2 || y.2)) (fun j => j)
    (by rw [hcnt, decide_eq_true_iff]; omega) (by decide)

/-! ### The map of a new inode -/

/-- `inode_create (sector, length)` returns, and allocated exactly the map of the new inode. -/
def CreatesMap (alloc : Prog fsSig (Option Sector)) (fs : Fs) (sector : Sector) (length : ℕ) :
    Prop :=
  Ensures diskHandler (inodeCreate alloc sector length) fs (fun _ fs' =>
    Allocated fs fs' (inodeAt fs'.store.sectors sector) 0 (blockCount length))

/-- The prefix of a creation above 252 blocks runs well, the doubly indirect part does not. -/
theorem not_createsMap_of_gt (halloc : Allocates alloc) (hok : MapOk fs) (hsmall : MapSmall fs)
    (hn : 252 < blockCount length)
    (hfree : blockCount length + indexCount (blockCount length) ≤ freeCount fs)
    (hstack : Stack (fun _ => 0xffffffff) fs) : ¬ CreatesMap alloc fs sector length := by
  have hcnt : sectorCount length = blockCount length := sectorCount_eq_blockCount (by omega)
  intro h
  unfold CreatesMap at h
  generalize blockCount (length : ℤ) = n at hn hfree hcnt h
  have hidx : 3 ≤ indexCount n := by
    unfold indexCount innerCount
    rw [if_pos (by omega), if_pos hn]
    omega
  rw [inodeCreate, ensures_bind, ensures_assert (by omega)] at h
  simp only [hcnt] at h
  rw [ensures_bind] at h
  obtain ⟨r, fs1, -, h, ⟨L1, hlen1, h1, -⟩, hst1⟩ := h.and
    ((createDirect_spec halloc hok (fun _ => hsmall) (by omega)).and_always (always_stack _ _ hstack))
  have hcount1 := h1.freeCount_add
  rw [ensures_bind] at h
  obtain ⟨q, fs2, -, h, ⟨I, L2, hI, hlen2, h2, -⟩, hst2⟩ := h.and
    ((createIndirect_spec halloc h1.ok' (n := n) (fun _ => h1.small hsmall) (by
      rw [if_pos (by omega)]; omega)).and_always (always_stack _ _ hst1))
  have hcount2 := h2.freeCount_add
  rw [length_append, hI, if_pos (by omega), length_singleton] at hcount2
  rw [ensures_bind] at h
  exact not_ensures_createDoubly halloc h2.ok' (h2.small (h1.small hsmall)) hn (by omega) hst2 h

/-- The state in which a device of 512 sectors is formatted, after `free_map_init`: the sectors
of the free map's inode and of the root directory are marked. -/
def initFs : Fs where
  store := { size := 512, sectors := fun _ => zeros }
  freeMap := { bitCnt := 512, bits := fun i => if i = 0 then 3 else 0, bitCnt_lt := by decide }
  freeMapFile := none
  stack := fun _ _ => 0
  addresses := fun _ => physBase
  memory := fun _ => 0
  accesses := []

theorem mapOk_initFs : MapOk initFs := ⟨rfl, fun _ hfile => by cases hfile⟩

theorem mapTree_initFs (s : Sector) : s ∉ mapTree initFs := by
  rintro ⟨_, hfile, -⟩
  cases hfile

theorem freeCount_initFs : freeCount initFs = 510 := by decide +kernel

end Pintos.Fs

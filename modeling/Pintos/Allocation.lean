import Pintos.FreeMap

/-! # Filling arrays with allocated sectors

`inode_create` and `add_inode` fill arrays of sector numbers in loops of one shape: a round
allocates a sector, stores its number and writes zeros to it.  `fillLoop_spec` states once what
such a loop does while there are free sectors, for any counter, condition and array.

`freshSectors d di c t` lists the sectors that inode `di` has with `t` blocks and did not have
with `c`, index blocks included, and `Allocated` says that exactly they were allocated. -/

namespace Pintos.Fs

open Interaction Paging List

/-! ### Filling an array -/

variable {k : ℕ}

section

variable {n : ℕ}

/-- The array with the entries from `lo` on replaced by `L`. -/
def fillArr (a : Fin n → Sector) (lo : ℕ) (L : List Sector) : Fin n → Sector :=
  fun i => if lo ≤ i.val then L.getD (i.val - lo) (a i) else a i

theorem fillArr_nil (a : Fin n → Sector) (lo : ℕ) : fillArr a lo [] = a := by
  funext i
  simp [fillArr]

theorem fillArr_snoc (a : Fin n → Sector) (lo : ℕ) (L : List Sector) (s : Sector)
    (h : lo + L.length < n) :
    fillArr a lo (L ++ [s]) = Function.update (fillArr a lo L) ⟨lo + L.length, h⟩ s := by
  funext i
  by_cases hi : i = ⟨lo + L.length, h⟩
  · subst hi
    simp [fillArr, getD_eq_getElem?_getD]
  · have hne : i.val ≠ lo + L.length := fun he => hi (Fin.ext he)
    rw [Function.update_of_ne hi]
    unfold fillArr
    by_cases hlo : lo ≤ i.val
    · by_cases hlt : i.val - lo < L.length
      · rw [getD_eq_getElem?_getD, getD_eq_getElem?_getD, getElem?_append_left hlt]
      · rw [getD_eq_getElem?_getD, getD_eq_getElem?_getD,
          getElem?_eq_none (by simp; omega), getElem?_eq_none (by omega)]
    · rw [if_neg hlo, if_neg hlo]

variable {lo fuel : ℕ} {τ : Type} {first : ℤ}

theorem fillArr_of_lt (a : Fin n → Sector) (L : List Sector) (hk : k < n)
    (h : k < lo) : fillArr a lo L ⟨k, hk⟩ = a ⟨k, hk⟩ := if_neg (not_le.mpr h)

theorem fillArr_get (a : Fin n → Sector) (lo : ℕ) (L : List Sector) (hk : k < L.length)
    (h : lo + k < n) : fillArr a lo L ⟨lo + k, h⟩ = L[k] := by
  simp [fillArr, getD_eq_getElem?_getD, hk]

variable {alloc : Prog fsSig (Option Sector)} {fs : Fs}

theorem allocateZeroed_spec (halloc : Allocates alloc) (hok : MapOk fs) (hsmall : MapSmall fs)
    (hpos : 0 < freeCount fs) (a : Fin n → Sector) (hk : k < n) :
    Ensures diskHandler (allocateZeroed alloc a k) fs (fun y fs' =>
      ∃ s, y = (Function.update a ⟨k, hk⟩ s, true) ∧ Grew ∅ fs fs' [s] ∧
        fs'.store.sectors s = zeros) := by
  rw [allocateZeroed, ensures_bind]
  refine (halloc fs hok hsmall hpos).mono ?_
  rintro _ fs1 ⟨s, rfl, h⟩
  have hs : s ∈ [s] := mem_singleton_self s
  rw [ensures_bind, ensures_assign (Int.natCast_nonneg k) (by rw [Int.toNat_natCast]; exact hk),
    ensures_bind, ensures_cacheWrite (by rw [h.size]; exact (h.fresh s hs).1), ensures_ret]
  refine ⟨s, by simp only [Int.toNat_natCast], h.put (.inl hs) (h.notMem_tree hs), ?_⟩
  exact put_sectors_self ..

theorem not_ensures_allocateZeroed (hfault : ∀ Q, ¬ Ensures diskHandler alloc fs Q)
    (a : Fin n → Sector) (j : ℤ) {Q : (Fin n → Sector) × Bool → Fs → Prop} :
    ¬ Ensures diskHandler (allocateZeroed alloc a j) fs Q := by
  rw [allocateZeroed, ensures_bind]
  exact hfault _

/-- **The allocation loops.**  `arr` is the array among the loop's variables, `upd` what a round
does to them after the allocation, and `R k` what is known of them after `k` rounds. -/
theorem fillLoop_spec (halloc : Allocates alloc) (arr : τ → Fin n → Sector)
    (upd : τ → (Fin n → Sector) × Bool → τ) (idx : ℤ → ℤ) (R : ℕ → τ → Prop)
    {cond : ℤ → τ → Bool} {len : ℕ}
    (harr : ∀ x y, arr (upd x y) = y.1) (hR : ∀ k x a, R k x → R (k + 1) (upd x (a, true)))
    (hidx : ∀ k : ℕ, k < len → idx (first + k) = ((lo + k : ℕ) : ℤ)) (hlo : lo + len ≤ n)
    (hcond : ∀ (k : ℕ) x, k ≤ len → R k x → (cond (first + k) x = true ↔ k < len))
    (hfuel : len ≤ fuel) {x0 : τ} (hR0 : R 0 x0) (hok : MapOk fs) (hsmall : 0 < len → MapSmall fs)
    (hfree : len ≤ freeCount fs) :
    Ensures diskHandler (forLoop cond (fun j x => do
        let y ← allocateZeroed alloc (arr x) (idx j)
        pure (upd x y)) fuel first x0) fs (fun r fs' =>
      r.1 = first + len ∧ R len r.2 ∧ ∃ L : List Sector, L.length = len ∧ Grew ∅ fs fs' L ∧
        arr r.2 = fillArr (arr x0) lo L ∧ ∀ s ∈ L, fs'.store.sectors s = zeros) := by
  -- after `k` rounds the array holds `k` new sectors
  refine (ensures_forLoop (fun j x fs1 => ∃ L : List Sector, j = first + L.length ∧
      L.length ≤ len ∧ R L.length x ∧ Grew ∅ fs fs1 L ∧ arr x = fillArr (arr x0) lo L ∧
      ∀ s ∈ L, fs1.store.sectors s = zeros) ?_ fuel first x0 fs ?_).mono ?_
  · rintro j x fs1 ⟨L, rfl, hlen, hx, hgrew, harrx, hzero⟩ hc
    have hlt : L.length < len := (hcond _ x hlen hx).mp hc
    have hcount := hgrew.freeCount_add
    rw [ensures_bind, hidx _ hlt]
    refine (allocateZeroed_spec halloc hgrew.ok' (hgrew.small (hsmall (by omega))) (by omega) (arr x)
      (show lo + L.length < n by omega)).mono ?_
    rintro _ fs2 ⟨s, rfl, hs, hz⟩
    rw [ensures_ret]
    refine ⟨L ++ [s], ?_, ?_, ?_, hgrew.trans hs, ?_, fun t ht => ?_⟩
    · rw [length_append, length_singleton]; push_cast; ring
    · rw [length_append, length_singleton]; omega
    · rw [length_append, length_singleton]; exact hR _ _ _ hx
    · rw [harr, fillArr_snoc _ _ _ _ (by omega), harrx]
    · rcases mem_append.mp ht with ht | ht
      · rw [hgrew.keeps hs ht (by simp)]; exact hzero t ht
      · rw [mem_singleton.mp ht]; exact hz
  · exact ⟨[], by simp, by simp, hR0, Grew.refl _ hok, (fillArr_nil _ _).symm, by simp⟩
  · rintro r fs' ⟨⟨L, hr, hlen, hx, hgrew, harrx, hzero⟩, hend⟩
    have hfull : L.length = len := by
      rcases hend with hf | hf
      · rw [hr] at hf
        by_contra hne
        have hc := (hcond L.length r.2 hlen hx).mpr (by omega)
        rw [hf] at hc
        cases hc
      · omega
    exact ⟨by rw [hr, hfull], hfull ▸ hx, L, hfull, hgrew, harrx, hzero⟩

theorem not_ensures_fillLoop (hfault : ∀ Q, ¬ Ensures diskHandler alloc fs Q)
    (arr : τ → Fin n → Sector) (upd : τ → (Fin n → Sector) × Bool → τ) (idx : ℤ → ℤ)
    {cond : ℤ → τ → Bool} {x0 : τ} (hcond : cond first x0 = true)
    (hfuel : 0 < fuel) {Q : ℤ × τ → Fs → Prop} :
    ¬ Ensures diskHandler (forLoop cond (fun j x => do
        let y ← allocateZeroed alloc (arr x) (idx j)
        pure (upd x y)) fuel first x0) fs Q := by
  rw [forLoop_round hfuel hcond, ensures_bind, ensures_bind]
  exact not_ensures_allocateZeroed hfault _ _

end

/-! ### The sectors that growth adds to an inode -/

/-- The sectors that an inode has with `t` blocks and not with `c`. -/
def freshSectors (d : Sector → Block) (di : InodeDisk) (c t : ℕ) : List Sector :=
  ((if c ≤ 124 ∧ 124 < t then [di.indirect] else []) ++
    if c ≤ 252 ∧ 252 < t then [di.doublyIndirect] else []) ++
  ((range' (innerCount c) (innerCount t - innerCount c)).map (wordAt (d di.doublyIndirect)) ++
    (range' c (t - c)).map (mapSector d di))

theorem innerCount_of_le {n : ℕ} (h : n ≤ 252) : innerCount n = 0 := by
  unfold innerCount
  omega

theorem innerCount_mono {c t : ℕ} (h : c ≤ t) : innerCount c ≤ innerCount t := by
  unfold innerCount
  omega

theorem range_eq_append {c t : ℕ} (h : c ≤ t) :
    range t = range c ++ range' c (t - c) := by
  obtain ⟨k, rfl⟩ := Nat.exists_eq_add_of_le h
  rw [range_eq_range', range_eq_range', ← range'_append_1, Nat.zero_add,
    Nat.add_sub_cancel_left]

theorem ite_eq_append {c t : ℕ} (h : c ≤ t) (x : Sector) :
    (if k < t then [x] else []) =
      (if k < c then [x] else []) ++ if c ≤ k ∧ k < t then [x] else [] := by
  split_ifs <;> first | rfl | omega

theorem indexSectors_eq (d : Sector → Block) (di : InodeDisk) (n : ℕ) :
    indexSectors d di n = ((if 124 < n then [di.indirect] else []) ++
      if 252 < n then [di.doublyIndirect] else []) ++
        (range (innerCount n)).map (wordAt (d di.doublyIndirect)) := by
  by_cases h : 252 < n
  · simp [indexSectors, h]
  · simp [indexSectors, h, innerCount_of_le (not_lt.mp h)]

theorem perm_freshSectors (d : Sector → Block) (di : InodeDisk) {c t : ℕ} (h : c ≤ t) :
    (indexSectors d di t ++ dataSectors d di t).Perm
      ((indexSectors d di c ++ dataSectors d di c) ++ freshSectors d di c t) := by
  refine perm_iff_count.mpr fun a => ?_
  rw [indexSectors_eq, indexSectors_eq, dataSectors, dataSectors, freshSectors, ite_eq_append h,
    ite_eq_append h, range_eq_append h, range_eq_append (innerCount_mono h)]
  simp only [map_append, count_append]
  omega

theorem indexCount_mono {c t : ℕ} (h : c ≤ t) : indexCount c ≤ indexCount t := by
  have := innerCount_mono h
  unfold indexCount
  split_ifs <;> omega

theorem length_freshSectors (d : Sector → Block) (di : InodeDisk) {c t : ℕ} (h : c ≤ t) :
    (freshSectors d di c t).length = (t - c) + (indexCount t - indexCount c) := by
  have hlen := (perm_freshSectors d di h).length_eq
  have hmono := indexCount_mono h
  simp only [length_append, length_indexSectors, length_dataSectors] at hlen
  omega

theorem map_range'_eq {f : ℕ → Sector} {c : ℕ} {L : List Sector}
    (h : ∀ k (hk : k < L.length), f (c + k) = L[k]) : (range' c L.length).map f = L := by
  refine ext_getElem (by simp) fun k h1 h2 => ?_
  simp only [getElem_map, getElem_range', Nat.one_mul]
  exact h k h2

/-- The blocks from `c` to `t` are in the sectors `L₁` in the inode's own array, and `L₂` in the
indirect block, which is new if `I` has it. -/
structure Fills (d : Sector → Block) (di : InodeDisk) (c t : ℕ) (L₁ I L₂ : List Sector) :
    Prop where
  length₁ : L₁.length = min t 124 - c
  length₂ : L₂.length = t - max c 124
  direct : ∀ k (hk : k < L₁.length), mapSector d di (c + k) = L₁[k]
  indirect : ∀ k (hk : k < L₂.length), mapSector d di (max c 124 + k) = L₂[k]
  index : I = if c ≤ 124 ∧ 124 < t then [di.indirect] else []

namespace Fills

variable {d : Sector → Block} {di : InodeDisk} {c t : ℕ} {L₁ I L₂ : List Sector}

theorem data_eq (h : Fills d di c t L₁ I L₂) :
    (range' c (t - c)).map (mapSector d di) = L₁ ++ L₂ := by
  have h1 := h.length₁
  have h2 := h.length₂
  have hsplit : range' c (t - c) =
      range' c L₁.length ++ range' (max c 124) L₂.length := by
    by_cases hc : c < 124 ∧ 124 < t
    · rw [show max c 124 = c + L₁.length by omega, range'_append_1]
      congr 1
      omega
    · by_cases hc' : 124 ≤ c
      · rw [show L₁.length = 0 by omega, show max c 124 = c by omega,
          show L₂.length = t - c by omega, range'_zero, nil_append]
      · rw [show L₂.length = 0 by omega, show L₁.length = t - c by omega, range'_zero,
          append_nil]
  rw [hsplit, map_append, map_range'_eq h.direct, map_range'_eq h.indirect]

theorem perm (h : Fills d di c t L₁ I L₂) (ht : t ≤ 252) (hct : c ≤ t) :
    (L₁ ++ (I ++ L₂)).Perm (freshSectors d di c t) := by
  refine perm_iff_count.mpr fun a => ?_
  rw [freshSectors, h.data_eq, innerCount_of_le ht, innerCount_of_le (hct.trans ht),
    if_neg (show ¬ (c ≤ 252 ∧ 252 < t) by omega), ← h.index]
  simp only [count_append, Nat.sub_self, range'_zero, map_nil, count_nil]
  omega

theorem zero (h : Fills d di c t L₁ I L₂) (h1 : ∀ s ∈ L₁, d s = zeros)
    (h2 : ∀ s ∈ L₂, d s = zeros) {i : ℕ} (hi : c ≤ i) (hit : i < t) :
    d (mapSector d di i) = zeros := by
  have hmem : mapSector d di i ∈ L₁ ++ L₂ := by
    rw [← h.data_eq]
    exact mem_map.mpr ⟨i, mem_range'_1.mpr ⟨hi, by omega⟩, rfl⟩
  exact (mem_append.mp hmem).elim (h1 _) (h2 _)

end Fills

/-- **Exact allocation**: from `fs` to `fs'` the sectors that inode `di` has with `t` blocks and
not with `c` were marked and no others; they are different, were free before, and those of
blocks are zero-filled. -/
structure Allocated (fs fs' : Fs) (di : InodeDisk) (c t : ℕ) : Prop where
  nodup : (freshSectors fs'.store.sectors di c t).Nodup
  fresh : ∀ s ∈ freshSectors fs'.store.sectors di c t, s < fs.store.size ∧ ¬ Marked fs s
  marked : ∀ s, Marked fs' s ↔ Marked fs s ∨ s ∈ freshSectors fs'.store.sectors di c t
  count : freeCount fs = freeCount fs' + ((t - c) + (indexCount t - indexCount c))
  zero : ∀ i, c ≤ i → i < t → fs'.store.sectors (mapSector fs'.store.sectors di i) = zeros

theorem Grew.allocated {W : Set Sector} {fs fs' : Fs} {di : InodeDisk} {c t : ℕ}
    (h : Grew W fs fs' (freshSectors fs'.store.sectors di c t)) (hct : c ≤ t)
    (hzero : ∀ i, c ≤ i → i < t → fs'.store.sectors (mapSector fs'.store.sectors di i) = zeros) :
    Allocated fs fs' di c t := by
  refine ⟨h.nodup, h.fresh, h.marked, ?_, hzero⟩
  rw [← h.freeCount_add, length_freshSectors _ _ hct]

end Pintos.Fs

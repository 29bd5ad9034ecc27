import Pintos.InodeCreate

/-! # Creating an inode when sectors run out

`inode_create` looks at what `free_map_allocate` returns, but only to set `success`: one
allocation that succeeds is enough, and nothing is undone.

* An allocation marks a free sector, or returns `false` and changes nothing when there is none
  (`alloc_spec`); a loop of allocations takes as many sectors as there are (`tryLoop_spec`).
* The direct and the indirect part always return; the doubly indirect part does so only if it
  never fills an inner block (`createDoubly_iff`).
* So the call is all or nothing exactly when the sectors it needs are there, or no sector is, or
  it does not return (`inodeCreate_allOrNothing_iff`). -/

namespace Pintos.Fs

open Interaction Paging List

/-! ### Sectors taken from the free map -/

/-- Between `fs` and `fs'` the sectors `L`, free before, were marked, and no others. -/
structure Took (fs fs' : Fs) (L : List Sector) : Prop where
  nodup : L.Nodup
  fresh : ∀ s ∈ L, s < fs.store.size ∧ ¬ Marked fs s
  marked : ∀ s, Marked fs' s ↔ Marked fs s ∨ s ∈ L

variable {W : Set Sector}

theorem Grew.took {fs fs' : Fs} {L : List Sector} (h : Grew W fs fs' L) :
    Took fs fs' L := ⟨h.nodup, h.fresh, h.marked⟩

namespace Took

variable {fs fs' fs'' : Fs} {L L' : List Sector}

theorem congr (h : Took fs fs' L) (hmap : fs''.freeMap = fs'.freeMap) : Took fs fs'' L :=
  ⟨h.nodup, h.fresh, fun s => by rw [← h.marked, Marked, hmap, Marked]⟩

theorem trans (h : Took fs fs' L) (h' : Took fs' fs'' L') (hsize : fs'.store.size = fs.store.size) :
    Took fs fs'' (L ++ L') := by
  refine ⟨nodup_append.mpr ⟨h.nodup, h'.nodup, fun a ha b hb hab => ?_⟩, fun s hs => ?_,
    fun s => by rw [h'.marked, h.marked, mem_append, or_assoc]⟩
  · subst hab
    exact (h'.fresh a hb).2 ((h.marked a).mpr (.inr ha))
  · rcases mem_append.mp hs with hs | hs
    · exact h.fresh s hs
    · exact ⟨hsize ▸ (h'.fresh s hs).1, fun hm => (h'.fresh s hs).2 ((h.marked s).mpr (.inl hm))⟩

theorem length_le (h : Took fs fs' L) : L.length ≤ freeCount fs :=
  length_le_freeCount h.nodup h.fresh

end Took

/-! ### Allocations that may fail -/

/-- A program that returns `none` and does nothing when no sector is free. -/
def Refuses (alloc : Prog fsSig (Option Sector)) : Prop :=
  ∀ fs, MapOk fs → freeCount fs = 0 →
    Ensures diskHandler alloc fs (fun r fs' => r = none ∧ fs' = fs)

/-- `free_map_allocate` when no sector is free. -/
theorem freeMapAllocate_refuses (depth : ℕ) : Refuses (freeMapAllocate (depth + 1) 1) := by
  intro fs hok hzero
  rw [freeMapAllocate, ensures_bind, ensures_getFreeMap, ensures_bind]
  rcases bitmapScanAndFlip_one fs.freeMap false with ⟨i, b, -, hi, hfree, -, -⟩ | ⟨hscan, -⟩
  · have hpos := (freeCount_pos_iff hok).mpr ⟨i, hi, hfree⟩
    omega
  · rw [hscan, lift, ensures_ret, ensures_ret]
    exact ⟨rfl, rfl⟩

section

variable {alloc : Prog fsSig (Option Sector)} {fs : Fs} {n : ℕ}

theorem alloc_spec (halloc : Allocates alloc) (hfull : Refuses alloc) (hok : MapOk fs)
    (hsmall : 0 < freeCount fs → MapSmall fs) :
    Ensures diskHandler alloc fs (fun r fs' =>
      Grew ∅ fs fs' r.toList ∧ r.isSome = decide (0 < freeCount fs)) := by
  rcases Nat.eq_zero_or_pos (freeCount fs) with hzero | hpos
  · refine (hfull fs hok hzero).mono ?_
    rintro _ _ ⟨rfl, rfl⟩
    exact ⟨Grew.refl ∅ hok, by simp [hzero]⟩
  · refine (halloc fs hok (hsmall hpos) hpos).mono ?_
    rintro _ fs' ⟨s, rfl, h⟩
    exact ⟨h, by simp [hpos]⟩

theorem Grew.small_of_pos {fs' : Fs} {L : List Sector} (h : Grew W fs fs' L)
    (hsmall : 0 < freeCount fs → MapSmall fs) (hpos : 0 < freeCount fs') : MapSmall fs' :=
  h.small (hsmall (by have := h.freeCount_add; omega))

/-- One round of a loop of allocations. -/
theorem tryZeroed_spec (halloc : Allocates alloc) (hfull : Refuses alloc) (hok : MapOk fs)
    (hsmall : 0 < freeCount fs → MapSmall fs) (a : Fin n → Sector) {j : ℤ} (h0 : 0 ≤ j)
    (hj : j.toNat < n) :
    Ensures diskHandler (allocateZeroed alloc a j) fs (fun y fs' =>
      ∃ L, Grew ∅ fs fs' L ∧ L.length = y.2.toNat ∧ y.2 = decide (0 < freeCount fs)) := by
  rw [allocateZeroed, ensures_bind]
  refine (alloc_spec halloc hfull hok hsmall).mono ?_
  rintro r fs1 ⟨h, hr⟩
  cases r with
  | none =>
    rw [ensures_ret]
    exact ⟨[], h, rfl, hr⟩
  | some s =>
    have hs : s ∈ (some s).toList := by simp
    rw [ensures_bind, ensures_assign h0 hj, ensures_bind,
      ensures_cacheWrite (by rw [h.size]; exact (h.fresh s hs).1), ensures_ret]
    exact ⟨[s], h.put (.inl hs) (h.notMem_tree hs), rfl, hr⟩

/-- **A loop of allocations** goes through all of its rounds and takes sectors as long as there
are any.  `R k m` is what is known of the loop's variables after `k` rounds and `m` sectors. -/
theorem tryLoop_spec {τ : Type} (halloc : Allocates alloc) (hfull : Refuses alloc)
    (arr : τ → Fin n → Sector) (upd : τ → (Fin n → Sector) × Bool → τ) (idx : ℤ → ℤ)
    (R : ℕ → ℕ → τ → Prop) (len : ℕ) {cond : ℤ → τ → Bool} {fuel : ℕ} {first : ℤ}
    (hR : ∀ k m x a b, R k m x → R (k + 1) (m + b.toNat) (upd x (a, b)))
    (hidx : ∀ k : ℕ, k < len → 0 ≤ idx (first + k) ∧ (idx (first + k)).toNat < n)
    (hcond : ∀ (k m : ℕ) x, k ≤ len → R k m x → (cond (first + k) x = true ↔ k < len))
    (hfuel : len ≤ fuel) {x0 : τ} (hR0 : R 0 0 x0) (hok : MapOk fs)
    (hsmall : 0 < len → 0 < freeCount fs → MapSmall fs) :
    Ensures diskHandler (forLoop cond (fun j x => do
        let y ← allocateZeroed alloc (arr x) (idx j)
        pure (upd x y)) fuel first x0) fs (fun r fs' =>
      r.1 = first + len ∧ ∃ L : List Sector, L.length = min len (freeCount fs) ∧
        Grew ∅ fs fs' L ∧ R len L.length r.2) := by
  refine (ensures_forLoop (fun j x fs1 => ∃ (k : ℕ) (L : List Sector), j = first + k ∧ k ≤ len ∧
      L.length = min k (freeCount fs) ∧ Grew ∅ fs fs1 L ∧ R k L.length x) ?_ fuel first x0 fs ?_).mono ?_
  · rintro j x fs1 ⟨k, L, rfl, hk, hlen, hgrew, hx⟩ hc
    have hlt : k < len := (hcond k _ x hk hx).mp hc
    have hcount := hgrew.freeCount_add
    rw [ensures_bind]
    refine (tryZeroed_spec halloc hfull hgrew.ok' (hgrew.small_of_pos (hsmall (by omega))) (arr x)
      (hidx k hlt).1 (hidx k hlt).2).mono ?_
    rintro ⟨a, b⟩ fs2 ⟨L', h', hlen', hb⟩
    rw [ensures_ret]
    refine ⟨k + 1, L ++ L', by push_cast; ring, hlt, ?_, hgrew.trans h', ?_⟩
    · rw [length_append, hlen', hb]
      by_cases hpos : 0 < freeCount fs1
      · simp only [hpos, decide_true, Bool.toNat_true]; omega
      · simp only [hpos, decide_false, Bool.toNat_false]; omega
    · rw [length_append, hlen']
      exact hR _ _ _ _ _ hx
  · exact ⟨0, [], by simp, Nat.zero_le _, by simp, Grew.refl _ hok, hR0⟩
  · rintro r fs' ⟨⟨k, L, hr, hk, hlen, hgrew, hx⟩, hend⟩
    have hall : k = len := by
      rcases hend with hf | hf
      · rw [hr] at hf
        by_contra hne
        have hc := (hcond k _ r.2 hk hx).mpr (by omega)
        rw [hf] at hc
        cases hc
      · omega
    subst hall
    exact ⟨hr, L, hlen, hgrew, hx⟩

/-! ### The parts of the function -/

section

variable (halloc : Allocates alloc) (hfull : Refuses alloc) (hok : MapOk fs)
  (hsmall : 0 < n → 0 < freeCount fs → MapSmall fs)
include halloc hfull hok hsmall

theorem createDirect_try : Ensures diskHandler (createDirect alloc n) fs (fun r fs' =>
      ∃ L : List Sector, L.length = min (min n 124) (freeCount fs) ∧ Grew ∅ fs fs' L ∧
        r.2 = decide (0 < L.length)) := by
  rw [createDirect, ensures_bind]
  refine (tryLoop_spec halloc hfull Prod.fst (fun x y => (y.1, x.2 || y.2)) (fun j => j)
    (fun _ m x => x.2 = decide (0 < m)) (min n 124) (fun k m x a b hx => ?_)
    (fun k hk => by omega) (fun k m x _ _ => ?_) (by omega) (by simp) hok
    (fun hpos => hsmall (by omega))).mono ?_
  · cases b <;> simp [hx]
  · rw [decide_eq_true_iff]
    omega
  · rintro r fs' ⟨-, L, hlen, hgrew, hsuccess⟩
    rw [ensures_ret]
    exact ⟨L, hlen, hgrew, hsuccess⟩

theorem createIndirect_try : Ensures diskHandler (createIndirect alloc n) fs (fun r fs' =>
      ∃ L : List Sector, L.length = min (if 124 < n then 1 + min 128 (n - 124) else 0) (freeCount fs) ∧
        Grew ∅ fs fs' L ∧ r.isSome = decide (0 < L.length)) := by
  by_cases hn : 124 < n
  · have hsmall' := hsmall (by omega)
    rw [createIndirect, if_pos (by omega), ensures_bind, if_pos hn]
    refine (alloc_spec halloc hfull hok hsmall').mono ?_
    rintro r fs1 ⟨h1, hr⟩
    have hcount := h1.freeCount_add
    cases r with
    | none =>
      rw [ensures_ret]
      have hzero : freeCount fs = 0 := by simpa using hr
      exact ⟨[], by simp [hzero], h1, rfl⟩
    | some s =>
      have h1' := h1.pop (fun n => fs1.stack (n + 1))
      rw [ensures_bind, ensures_uninit, ensures_bind]
      refine (tryLoop_spec halloc hfull (fun x => x) (fun _ y => y.1) (fun j => j)
        (fun _ _ _ => True) (min 128 (n - 124)) (fun _ _ _ _ _ _ => trivial)
        (fun k hk => by omega) (fun k m x _ _ => ?_) (by omega) trivial h1'.ok'
        (fun _ => h1'.small_of_pos hsmall')).mono ?_
      · rw [decide_eq_true_iff]
        omega
      · rintro r fs2 ⟨-, L, hlen, h2, -⟩
        have h12 : Grew ∅ fs fs2 ([s] ++ L) := h1'.trans h2
        have hs : s ∈ [s] ++ L := mem_cons_self
        have hlen' : L.length = min (min 128 (n - 124)) (freeCount fs1) := hlen
        rw [ensures_bind, ensures_cacheWrite (by rw [h12.size]; exact (h12.fresh s hs).1),
          ensures_ret]
        refine ⟨[s] ++ L, ?_, h12.put (.inl hs) (h12.notMem_tree hs), by simp⟩
        simp only [Option.toList_some, length_singleton] at hcount
        rw [length_append, length_singleton]
        omega
  · rw [createIndirect, if_neg (by omega), ensures_ret, if_neg hn]
    exact ⟨[], by simp, Grew.refl _ hok, rfl⟩

/-! ### The doubly indirect part -/

end

/-- A round of the outer loop of the doubly indirect part of `inode_create`. -/
def doublyRound (alloc : Prog fsSig (Option Sector)) (j : ℤ) (x : Words × ℤ) :
    Prog fsSig (Words × ℤ) := do
  match ← alloc with
  | some s => do
    let blocks ← assign x.1 j s
    let inner ← uninit
    let q ← forLoop (fun k y => decide (k < 128 ∧ 0 < y.2)) (fun k y => do
      let z ← allocateZeroed alloc y.1 k
      pure (z.1, y.2 - 1)) 128 0 (inner, x.2)
    let target ← index blocks q.1
    cacheWrite target (blockOf q.2.1)
    pure (blocks, q.2.2)
  | none => pure x

theorem createDoubly_eq (hn : 252 < n) : createDoubly alloc n = (do
    match ← alloc with
    | some doubly => do
      let blocks ← uninit
      let r ← forLoop (fun j x => decide (j < 128 ∧ 0 < x.2)) (doublyRound alloc) 128 0
        (blocks, (n : ℤ) - 124 - 128)
      cacheWrite doubly (blockOf r.2.1)
      pure (some doubly)
    | none => pure none) := if_pos (by omega)

theorem doublyRounds_full (hfull : Refuses alloc) (hok : MapOk fs) (hzero : freeCount fs = 0)
    (fuel : ℕ) (x : Words × ℤ) :
    Ensures diskHandler (forLoop (fun j x => decide (j < 128 ∧ 0 < x.2)) (doublyRound alloc) fuel 0 x)
      fs (fun r fs' => r.2 = x ∧ fs' = fs) := by
  refine (ensures_forLoop (fun _ y fs' => y = x ∧ fs' = fs) ?_ fuel 0 x fs ⟨rfl, rfl⟩).mono
    fun r fs' h => h.1
  rintro j y fs' ⟨hy, hfs'⟩ -
  rw [doublyRound, ensures_bind, hfs', hy]
  refine (hfull fs hok hzero).mono ?_
  rintro _ fs'' ⟨rfl, hfs''⟩
  rw [ensures_ret]
  exact ⟨rfl, hfs''⟩

section

variable (halloc : Allocates alloc) (hfull : Refuses alloc) (hok : MapOk fs)
  (hsmall : 0 < freeCount fs → MapSmall fs)
include halloc hfull hok hsmall

variable {left k : ℕ}

theorem innerLoop_try (inner : Words) (hk : k = min 128 left) :
    Ensures diskHandler (forLoop (fun k y => decide (k < 128 ∧ 0 < y.2)) (fun k y => do
        let z ← allocateZeroed alloc y.1 k
        pure (z.1, y.2 - 1)) 128 0 (inner, (left : ℤ))) fs (fun q fs' =>
      q.1 = k ∧ q.2.2 = (left : ℤ) - k ∧
        ∃ L : List Sector, L.length = min k (freeCount fs) ∧ Grew ∅ fs fs' L) := by
  refine (tryLoop_spec halloc hfull Prod.fst (fun y z => (z.1, y.2 - 1)) (fun k => k)
    (fun i _ y => y.2 = (left : ℤ) - i) k (fun i m y a b hy => ?_) (fun i hi => by omega)
    (fun i m y _ hy => ?_) (by omega) (by simp) hok (fun _ => hsmall)).mono ?_
  · simp only [hy]
    push_cast
    ring
  · rw [decide_eq_true_iff, hy]
    omega
  · rintro q fs' ⟨hq, L, hlen, h, hleft⟩
    exact ⟨by rw [hq, Int.zero_add], hleft, L, hlen, h⟩

theorem doublyRound_inner (hpos : 0 < freeCount fs) (blocks : Words) (hk : k = min 128 left) :
    ∃ s inner fs1 L, Grew ∅ fs fs1 L ∧ L.length = min (1 + k) (freeCount fs) ∧
      ∀ Q : Words × ℤ → Fs → Prop, Ensures diskHandler (doublyRound alloc 0 (blocks, left)) fs Q ↔
        Ensures diskHandler (do
          let target ← index (Function.update blocks 0 s) (k : ℤ)
          cacheWrite target (blockOf inner)
          pure (Function.update blocks 0 s, (left : ℤ) - k)) fs1 Q := by
  obtain ⟨r, fs1, ⟨h1, hr⟩, hbind⟩ :=
    (alloc_spec halloc hfull hok hsmall).bind_iff (β := Words × ℤ)
  have hcount := h1.freeCount_add
  obtain ⟨s, rfl⟩ := Option.isSome_iff_exists.mp (hr.trans (decide_eq_true hpos))
  have h1' := h1.pop (fun n => fs1.stack (n + 1))
  obtain ⟨q, fs2, ⟨hq, hleft, L, hlen, h2⟩, hloop⟩ :=
    (innerLoop_try halloc hfull h1'.ok' (h1'.small_of_pos hsmall) (fs1.stack 0) hk).bind_iff
      (β := Words × ℤ)
  refine ⟨s, q.2.1, fs2, [s] ++ L, h1'.trans h2, ?_, fun Q => ?_⟩
  · have hlen' : L.length = min k (freeCount fs1) := hlen
    simp only [Option.toList_some, length_singleton] at hcount
    rw [length_append, length_singleton]
    omega
  · rw [doublyRound, hbind]
    rw [ensures_bind, ensures_assign le_rfl (by decide), ensures_bind, ensures_uninit, hloop, hq, hleft]
    rfl

end

/-- Without a free sector there is no doubly indirect block. -/
theorem createDoubly_full (hfull : Refuses alloc) (hok : MapOk fs) (hzero : freeCount fs = 0)
    (hn : 252 < n) :
    Ensures diskHandler (createDoubly alloc n) fs (fun r fs' => r = none ∧ fs' = fs) := by
  rw [createDoubly_eq hn, ensures_bind]
  refine (hfull fs hok hzero).mono ?_
  rintro _ fs' ⟨rfl, hfs'⟩
  rw [ensures_ret]
  exact ⟨rfl, hfs'⟩

section

variable (halloc : Allocates alloc) (hfull : Refuses alloc) (hok : MapOk fs)
include halloc hfull hok

/-- The last free sector becomes the doubly indirect block. -/
theorem createDoubly_last (hsmall : 0 < freeCount fs → MapSmall fs) (hone : freeCount fs = 1)
    (hn : 252 < n) : Ensures diskHandler (createDoubly alloc n) fs (fun r fs' =>
      r.isSome = true ∧ ∃ L, Grew ∅ fs fs' L ∧ L.length = 1) := by
  rw [createDoubly_eq hn, ensures_bind]
  refine (halloc fs hok (hsmall (by omega)) (by omega)).mono ?_
  rintro _ fs1 ⟨s, rfl, h⟩
  have hcount := h.freeCount_add
  rw [length_singleton] at hcount
  have h' := h.pop (fun n => fs1.stack (n + 1))
  rw [ensures_bind, ensures_uninit, ensures_bind]
  refine (doublyRounds_full hfull h'.ok' (show freeCount fs1 = 0 by omega) 128 _).mono ?_
  rintro r _ ⟨-, rfl⟩
  have hs : s ∈ [s] := mem_singleton_self s
  rw [ensures_bind, ensures_cacheWrite (by rw [h'.size]; exact (h.fresh s hs).1), ensures_ret]
  exact ⟨rfl, [s], h'.put (.inl hs) (h.notMem_tree hs), rfl⟩

/-- An inner block that is filled makes the index leave the outer array. -/
theorem not_ensures_createDoubly_inner (hsmall : 0 < freeCount fs → MapSmall fs)
    (htwo : 2 ≤ freeCount fs) (hn : 380 ≤ n) {Q : Option Sector → Fs → Prop} :
    ¬ Ensures diskHandler (createDoubly alloc n) fs Q := by
  intro h
  rw [createDoubly_eq (by omega), ensures_bind] at h
  obtain ⟨_, fs1, -, h, s, rfl, h1⟩ := h.and (halloc fs hok (hsmall (by omega)) (by omega))
  have hcount := h1.freeCount_add
  rw [length_singleton] at hcount
  have h1' := h1.pop (fun n => fs1.stack (n + 1))
  have hleft : (n : ℤ) - 124 - 128 = (n - 252 : ℕ) := by omega
  obtain ⟨_, _, _, _, -, -, hround⟩ := doublyRound_inner halloc hfull h1'.ok'
    (h1'.small_of_pos hsmall) (show 0 < freeCount fs1 by omega) (fs1.stack 0)
    (show 128 = min 128 (n - 252) by omega)
  rw [ensures_bind, ensures_uninit, ensures_bind, forLoop_round (by decide) (by simp; omega),
    ensures_bind, hleft, hround, ensures_bind] at h
  exact not_ensures_index (by decide) h

/-- An inner block that is not filled goes to a sector that an entry of the outer array names
which was not set. -/
theorem createDoubly_iff (hsmall : 0 < freeCount fs → MapSmall fs) (htwo : 2 ≤ freeCount fs)
    (hn : 252 < n) (hn' : n < 380) :
    ∃ target doubly fs' L, Took fs fs' L ∧ L.length = min (n - 250) (freeCount fs) ∧
      (∀ P : Words → Prop, (∀ k, P (fs.stack k)) → ∃ w, P w ∧ target = w ⟨n - 252, by omega⟩) ∧
      (∀ W : Set Sector, target ∈ W → target ∉ mapTree fs → Grew W fs fs' L) ∧
      ∀ Q : Option Sector → Fs → Prop, Ensures diskHandler (createDoubly alloc n) fs Q ↔
        target < fs.store.size ∧ Q (some doubly) fs' := by
  obtain ⟨a, fs1, ⟨⟨s, rfl, h1⟩, hstack⟩, hbind⟩ :=
    ((halloc fs hok (hsmall (by omega)) (by omega)).and_always
      (R := fun _ fs1 => ∀ P : Words → Prop, (∀ k, P (fs.stack k)) → ∀ k, P (fs1.stack k))
      (fun a fs1 hrun P hP => always_garbage alloc hP a fs1 hrun)).bind_iff (β := Option Sector)
  have hcount := h1.freeCount_add
  rw [length_singleton] at hcount
  have h1' := h1.pop (fun n => fs1.stack (n + 1))
  have hleft : (n : ℤ) - 124 - 128 = (n - 252 : ℕ) := by omega
  obtain ⟨s', inner, fs2, L, h2, hlen, hround⟩ := doublyRound_inner halloc hfull h1'.ok'
    (h1'.small_of_pos hsmall) (show 0 < freeCount fs1 by omega) (fs1.stack 0)
    (show n - 252 = min 128 (n - 252) by omega)
  have hlen' : L.length = min (1 + (n - 252)) (freeCount fs1) := hlen
  have h12 : Grew ∅ fs fs2 ([s] ++ L) := h1'.trans h2
  have hs : s ∈ [s] ++ L := mem_cons_self
  have hslt : s < fs.store.size := (h12.fresh s hs).1
  -- the entry of the inner loop's counter is not the one that was set
  have hne : ∀ hlt, (⟨((n - 252 : ℕ) : ℤ).toNat, hlt⟩ : Fin 128) ≠ 0 := by
    intro hlt he
    have hv := congrArg Fin.val he
    simp only [Int.toNat_natCast, Fin.val_zero] at hv
    omega
  set target := fs1.stack 0 ⟨n - 252, by omega⟩ with htarget
  refine ⟨target, s, put (put fs2 target (blockOf inner)) s
    (blockOf (Function.update (fs1.stack 0) 0 s')), [s] ++ L, h12.took.congr rfl, ?_,
    fun P hP => ⟨fs1.stack 0, hstack P hP 0, htarget⟩, fun W hW htree => ?_, fun Q => ?_⟩
  · rw [length_append, length_singleton]
    omega
  · exact ((h12.mono (Set.empty_subset W)).put (.inr hW) htree).put (.inl hs)
      (h12.notMem_tree hs)
  · rw [createDoubly_eq hn, hbind, ensures_bind, ensures_uninit, ensures_bind,
      forLoop_round (by decide) (by simp; omega), ensures_bind, hleft, hround, ensures_bind,
      ensures_index (by omega) (by omega), Function.update_of_ne (hne _), ensures_bind,
      ensures_cacheWrite_iff, h12.size]
    refine and_congr_right fun _ => ?_
    rw [ensures_ret, forLoop_done _ (by simp only [sub_self, lt_irrefl, and_false, decide_false]),
      ensures_ret, ensures_bind,
      ensures_cacheWrite (by change s < fs2.store.size; rw [h12.size]; exact hslt), ensures_ret]
    rfl

/-- What the doubly indirect part has taken if it returns: all that the map needs above the
indirect block, if there was enough.  Only sectors that uninitialised memory names, which are in
`W`, have changed otherwise. -/
theorem createDoubly_took (hsmall : 0 < n → 0 < freeCount fs → MapSmall fs) :
    Always diskHandler (createDoubly alloc n) fs (fun r fs' =>
      ∃ L, Took fs fs' L ∧ r.isSome = decide (0 < L.length) ∧
        (n + indexCount n ≤ freeCount fs + 253 → L.length = n + indexCount n - 253) ∧
        ∀ W : Set Sector, (252 < n → ∀ k i, fs.stack k i ∈ W) → (∀ t ∈ W, t ∉ mapTree fs) →
          Grew W fs fs' L) := by
  by_cases hn : 252 < n
  · replace hsmall := hsmall (by omega)
    have hidx : indexCount n = 2 + innerCount n := by
      rw [indexCount, if_pos (by omega), if_pos hn]; omega
    have hinner : n < 380 → innerCount n = 1 := fun h => by unfold innerCount; omega
    obtain hzero | hone | htwo : freeCount fs = 0 ∨ freeCount fs = 1 ∨ 2 ≤ freeCount fs := by omega
    · intro r fs' hrun
      obtain ⟨rfl, rfl⟩ := (createDoubly_full hfull hok hzero hn).of_run hrun
      exact ⟨[], (Grew.refl ∅ hok).took, rfl, fun _ => by rw [length_nil]; omega,
        fun W _ _ => Grew.refl W hok⟩
    · intro r fs' hrun
      obtain ⟨hr, L, hL, hlen⟩ :=
        (createDoubly_last halloc hfull hok hsmall hone hn).of_run hrun
      exact ⟨L, hL.took, by rw [hr, hlen]; rfl, fun _ => by rw [hlen]; omega,
        fun W _ _ => hL.mono (Set.empty_subset W)⟩
    · refine Always.intro fun Q h => ?_
      have hlt : n < 380 := by
        by_contra hge
        exact not_ensures_createDoubly_inner halloc hfull hok hsmall htwo (by omega) h
      obtain ⟨target, doubly, fs', L, hL, hlen, htarget, hgrew, hiff⟩ :=
        createDoubly_iff halloc hfull hok hsmall htwo hn hlt
      refine ⟨_, fs', ((hiff Q).mp h).2, L, hL, ?_, fun hfree => ?_, fun W hW htree => ?_⟩
      · rw [hlen, decide_eq_true (by omega)]
        rfl
      · omega
      · obtain ⟨w, hw, htw⟩ := htarget (fun w => ∀ i, w i ∈ W) fun k i => hW hn k i
        have hin : target ∈ W := htw ▸ hw _
        exact hgrew W hin (htree target hin)
  · rw [createDoubly_of_le (by omega)]
    refine always_ret ⟨[], (Grew.refl ∅ hok).took, rfl, fun _ => ?_, fun W _ _ => Grew.refl W hok⟩
    rw [indexCount, if_neg hn, length_nil]
    split_ifs <;> omega

variable {sector t : Sector} {length : ℕ}

theorem createDoubly_returns (hsmall : 0 < freeCount fs → MapSmall fs)
    (hstack : Stack (fun _ => t) fs) (ht : t < fs.store.size) (hn : n < 380 ∨ freeCount fs < 2) :
    Ensures diskHandler (createDoubly alloc n) fs (fun _ _ => True) := by
  by_cases hle : n ≤ 252
  · rw [createDoubly_of_le hle, ensures_ret]
    trivial
  · obtain hzero | hone | htwo : freeCount fs = 0 ∨ freeCount fs = 1 ∨ 2 ≤ freeCount fs := by omega
    · exact (createDoubly_full hfull hok hzero (by omega)).mono fun _ _ _ => trivial
    · exact (createDoubly_last halloc hfull hok hsmall hone (by omega)).mono fun _ _ _ => trivial
    · obtain ⟨target, doubly, fs', L, -, -, htarget, -, hiff⟩ :=
        createDoubly_iff halloc hfull hok hsmall htwo (show 252 < n by omega) (by omega)
      obtain ⟨w, rfl, htw⟩ := htarget (· = fun _ => t) hstack
      rw [hiff, htw]
      exact ⟨ht, trivial⟩

/-! ### The whole function -/

/-- What a returning `inode_create` has taken.  Only the sector of the inode and those that
uninitialised memory names have changed otherwise. -/
theorem inodeCreate_took (hsmall : 0 < n → 0 < freeCount fs → MapSmall fs)
    (hn : blockCount length = n) :
    Always diskHandler (inodeCreate alloc sector length) fs (fun r fs' =>
      ∃ L, Took fs fs' L ∧ (r = true ↔ 0 < L.length ∨ n = 0) ∧
        (0 < n → 0 < freeCount fs → 0 < L.length) ∧
        (n + indexCount n ≤ freeCount fs → L.length = n + indexCount n) ∧
        ∀ W : Set Sector, (252 < n → ∀ k i, fs.stack k i ∈ W) → sector ∈ W →
          (∀ t ∈ W, t ∉ mapTree fs) → Grew W fs fs' L) := by
  have hcnt : sectorCount length = n := by rw [sectorCount_eq_blockCount (by omega), hn]
  refine Always.intro fun Q h => ?_
  rw [inodeCreate, ensures_bind, ensures_assert (by omega), hcnt] at h
  simp only [ensures_bind] at h
  obtain ⟨d, fs1, hrun1, h, L1, hlen1, h1, hd⟩ := h.and (createDirect_try halloc hfull hok hsmall)
  have hcount1 := h1.freeCount_add
  obtain ⟨q, fs2, hrun2, h, L2, hlen2, h2, hq⟩ :=
    h.and (createIndirect_try halloc hfull h1.ok' fun hn => h1.small_of_pos (hsmall hn))
  have hcount2 := h2.freeCount_add
  have h12 := h1.trans h2
  obtain ⟨o, fs3, -, h, L3, h3, ho, hlen3, hgrew3⟩ :=
    h.and_always (createDoubly_took halloc hfull h2.ok'
      fun hn => h2.small_of_pos (h1.small_of_pos (hsmall hn)))
  rw [ensures_cacheWrite_iff, ensures_ret] at h
  refine ⟨_, _, h.2, (L1 ++ L2) ++ L3, (h12.took.trans h3 h12.size).congr rfl, ?_, ?_, ?_,
    fun W hW hsW htree => ?_⟩
  · rw [hd, hq, ho]
    simp only [length_append, Bool.or_eq_true, decide_eq_true_iff]
    omega
  · intro hpos hfree
    simp only [length_append]
    omega
  · intro hfree
    have hidx : indexCount n = (if 124 < n then 1 else 0) + if 252 < n then 1 + innerCount n else 0 :=
      rfl
    simp only [length_append]
    split_ifs at hlen2 hidx <;> omega
  · -- what is on the stack does not change
    have hW2 : 252 < n → ∀ k i, fs2.stack k i ∈ W := fun hn =>
      always_garbage (P := fun w => ∀ i, w i ∈ W) _
        (always_garbage (P := fun w => ∀ i, w i ∈ W) _ (hW hn) _ _ hrun1) _ _ hrun2
    have h3' := hgrew3 W hW2 fun t ht => by rw [h12.tree]; exact htree t ht
    exact ((h12.mono (Set.empty_subset W)).trans h3').put (.inr hsW) (htree sector hsW)

/-- A call that returns for some content of the stack. -/
theorem inodeCreate_returns (hsmall : 0 < freeCount fs → MapSmall fs)
    (hstack : Stack (fun _ => t) fs) (ht : t < fs.store.size) (hsector : sector < fs.store.size)
    (hn : blockCount length = n) (hret : n < 380 ∨ freeCount fs < 255) :
    Ensures diskHandler (inodeCreate alloc sector length) fs (fun _ _ => True) := by
  have hcnt : sectorCount length = n := by rw [sectorCount_eq_blockCount (by omega), hn]
  rw [inodeCreate, ensures_bind, ensures_assert (by omega), hcnt]
  simp only [ensures_bind]
  refine ((createDirect_try halloc hfull hok fun _ => hsmall).and_always
    (always_stack _ _ hstack)).mono ?_
  rintro d fs1 ⟨⟨L1, hlen1, h1, -⟩, hstack1⟩
  have hcount1 := h1.freeCount_add
  refine ((createIndirect_try halloc hfull h1.ok' fun _ => h1.small_of_pos hsmall).and_always
    (always_stack _ _ hstack1)).mono ?_
  rintro q fs2 ⟨⟨L2, hlen2, h2, -⟩, hstack2⟩
  have hcount2 := h2.freeCount_add
  have hsize : fs2.store.size = fs.store.size := h2.size.trans h1.size
  have hret2 : n < 380 ∨ freeCount fs2 < 2 := by
    split_ifs at hlen2 <;> omega
  refine ((createDoubly_returns halloc hfull h2.ok' (h2.small_of_pos (h1.small_of_pos hsmall))
    hstack2 (by rw [hsize]; exact ht) hret2).and_always
    (always_size _ fs2)).mono ?_
  rintro o fs3 ⟨-, hsize3⟩
  rw [ensures_cacheWrite (by rw [hsize3, hsize]; exact hsector), ensures_ret]
  trivial

/-- A call that fills an inner block does not return. -/
theorem not_ensures_inodeCreate_inner (hsmall : 0 < freeCount fs → MapSmall fs)
    (hn : blockCount length = n) (hge : 380 ≤ n) (hfree : 255 ≤ freeCount fs)
    {Q : Bool → Fs → Prop} : ¬ Ensures diskHandler (inodeCreate alloc sector length) fs Q := by
  have hcnt : sectorCount length = n := by rw [sectorCount_eq_blockCount (by omega), hn]
  intro h
  rw [inodeCreate, ensures_bind, ensures_assert (by omega), hcnt] at h
  simp only [ensures_bind] at h
  obtain ⟨d, fs1, -, h, L1, hlen1, h1, -⟩ := h.and (createDirect_try halloc hfull hok fun _ => hsmall)
  have hcount1 := h1.freeCount_add
  obtain ⟨q, fs2, -, h, L2, hlen2, h2, -⟩ :=
    h.and (createIndirect_try halloc hfull h1.ok' fun _ => h1.small_of_pos hsmall)
  have hcount2 := h2.freeCount_add
  rw [if_pos (by omega)] at hlen2
  exact not_ensures_createDoubly_inner halloc hfull h2.ok' (h2.small_of_pos (h1.small_of_pos hsmall))
    (by omega) hge h

end

end

/-- If `inode_create (sector, length)` returns `true`, a sector was allocated for every block of
`length` bytes and for every index block they need; if it returns `false`, the same sectors are
marked as before. -/
def AllOrNothing (alloc : Prog fsSig (Option Sector)) (fs : Fs) (sector : Sector) (length : ℕ) :
    Prop :=
  Always diskHandler (inodeCreate alloc sector length) fs (fun r fs' =>
    (r = true → ∃ L, Took fs fs' L ∧
      L.length = blockCount length + indexCount (blockCount length)) ∧
    (r = false → ∀ s, Marked fs' s ↔ Marked fs s))

section

variable {alloc : Prog fsSig (Option Sector)} {fs : Fs} {sector : Sector} {length : ℕ}

theorem allOrNothing_of_free (halloc : Allocates alloc) (hfull : Refuses alloc) (hok : MapOk fs)
    (hsmall : 0 < blockCount length → 0 < freeCount fs → MapSmall fs)
    (hfree : blockCount length + indexCount (blockCount length) ≤ freeCount fs ∨ freeCount fs = 0) :
    AllOrNothing alloc fs sector length := by
  refine (inodeCreate_took halloc hfull hok hsmall rfl).mono ?_
  rintro r fs' ⟨L, hL, hr, -, hlen, -⟩
  have hle := hL.length_le
  refine ⟨fun htrue => ⟨L, hL, ?_⟩, fun hfalse s => ?_⟩
  · rcases hfree with hfree | hzero
    · exact hlen hfree
    · -- without a free sector only an empty file succeeds
      have hn : blockCount length = 0 := (hr.mp htrue).resolve_left (by omega)
      rw [hn] at hlen ⊢
      exact hlen (Nat.zero_le _)
  · have hnil : L = [] := by
      rw [← length_eq_zero_iff]
      by_contra hne
      rw [hr.mpr (.inl (by omega))] at hfalse
      cases hfalse
    rw [hL.marked, hnil]
    simp

theorem not_allOrNothing_of_scarce (halloc : Allocates alloc) (hfull : Refuses alloc)
    (hok : MapOk fs) (hsmall : MapSmall fs) (hstack : Stack (fun _ => 0) fs)
    (hsector : sector < fs.store.size) (hpos : 0 < freeCount fs)
    (hneeds : freeCount fs < blockCount length + indexCount (blockCount length))
    (hret : blockCount length < 380 ∨ freeCount fs < 255) :
    ¬ AllOrNothing alloc fs sector length := by
  intro h
  have hn : 0 < blockCount length := by
    by_contra hzero
    rw [Nat.eq_zero_of_not_pos hzero] at hneeds
    exact absurd hneeds (Nat.not_lt_zero _)
  have hsize : 0 < fs.store.size := UInt32.lt_of_le_of_lt UInt32.zero_le hsector
  obtain ⟨r, fs', -, -, ⟨L, hL, hr, hsome, -⟩, hall, -⟩ :=
    (inodeCreate_returns halloc hfull hok (fun _ => hsmall) hstack hsize hsector rfl hret).and_always
      ((inodeCreate_took halloc hfull hok (fun _ _ => hsmall) rfl).and h)
  obtain ⟨L', hL', hlen⟩ := hall (hr.mpr (.inl (hsome hn hpos)))
  have hle := hL'.length_le
  omega

end

/-- A device of eight sectors of which two are free. -/
def scarceFs : Fs :=
  { initFs with
    store := { size := 8, sectors := fun _ => zeros }
    freeMap := Bitmap.eight 0x3f }

theorem mapOk_scarceFs : MapOk scarceFs := ⟨rfl, fun _ hfile => by cases hfile⟩

theorem freeCount_scarceFs : freeCount scarceFs = 2 := by decide

end Pintos.Fs

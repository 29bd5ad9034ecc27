import Pintos.Cache

/-! # What each region of the cache does

One lemma per region of `Cache.lean`, stated with two notions that later proofs use instead
of the loops: `BlockCache.lookup`, the last entry in use that holds a sector (the one every
scan settles on), and `CacheState.view`, what the cache and the device together hold for a
sector.  A scan changes only ages (`Aged`); `storeHit`, `fill` and `evict` put one entry in
place, and `lookup_setEntry_*`, `lookup_fill` say which lookups that moves. -/

namespace Pintos

open CacheState Function Nat

variable {c c' : BlockCache} {s t : Sector} {i j m : Fin cacheSize} {e : CacheEntry}

namespace BlockCache

/-- The last of the first `n` entries that holds `s`. -/
def lookupTo (c : BlockCache) (s : Sector) : (n : ℕ) → n ≤ cacheSize → Option (Fin cacheSize)
  | 0, _ => none
  | i + 1, h =>
    if (c.entries ⟨i, h⟩).sector = s then some ⟨i, h⟩
    else lookupTo c s i (le_of_succ_le h)

/-- The last entry in use that holds `s`. -/
def lookup (c : BlockCache) (s : Sector) : Option (Fin cacheSize) :=
  c.lookupTo s c.entryNum c.entryNum_le

theorem lookupTo_eq_none_iff (c : BlockCache) (s : Sector) : ∀ (n : ℕ) (h : n ≤ cacheSize),
    c.lookupTo s n h = none ↔ ∀ k : Fin cacheSize, k.val < n → (c.entries k).sector ≠ s
  | 0, _ => by simp [lookupTo]
  | i + 1, h => by
    have ih := lookupTo_eq_none_iff c s i (le_of_succ_le h)
    simp only [lookupTo]
    split_ifs with he
    · refine iff_of_false id fun hk => ?_
      exact hk ⟨i, h⟩ (lt_succ_self i) he
    · rw [ih]
      constructor
      · intro hk k hlt
        rcases Nat.lt_succ_iff_lt_or_eq.mp hlt with hlt | heq
        · exact hk k hlt
        · obtain rfl : k = ⟨i, h⟩ := Fin.ext heq
          exact he
      · exact fun hk k hlt => hk k (lt_succ_of_lt hlt)

theorem lookupTo_eq_some_iff (c : BlockCache) (s : Sector) (j : Fin cacheSize) :
    ∀ (n : ℕ) (h : n ≤ cacheSize), c.lookupTo s n h = some j ↔
      j.val < n ∧ (c.entries j).sector = s ∧
        ∀ k : Fin cacheSize, k.val < n → j < k → (c.entries k).sector ≠ s
  | 0, _ => by simp [lookupTo]
  | i + 1, h => by
    have ih := lookupTo_eq_some_iff c s j i (le_of_succ_le h)
    simp only [lookupTo]
    split_ifs with he
    · simp only [Option.some.injEq]
      constructor
      · rintro rfl
        refine ⟨lt_succ_self i, he, fun k hk hlt => ?_⟩
        have : i < k.val := hlt
        omega
      · rintro ⟨hj, -, hk⟩
        by_contra hne
        have : j.val ≠ i := fun heq => hne (Fin.ext heq.symm)
        exact hk ⟨i, h⟩ (lt_succ_self i) (show j.val < i by omega) he
    · rw [ih]
      constructor
      · rintro ⟨hj, hs, hk⟩
        refine ⟨Nat.lt_succ_of_lt hj, hs, fun k hlt hjk => ?_⟩
        rcases Nat.lt_succ_iff_lt_or_eq.mp hlt with hlt | heq
        · exact hk k hlt hjk
        · obtain rfl : k = ⟨i, h⟩ := Fin.ext heq
          exact he
      · rintro ⟨hj, hs, hk⟩
        refine ⟨?_, hs, fun k hlt hjk => hk k (Nat.lt_succ_of_lt hlt) hjk⟩
        rcases Nat.lt_succ_iff_lt_or_eq.mp hj with hlt | heq
        · exact hlt
        · obtain rfl : j = ⟨i, h⟩ := Fin.ext heq
          exact absurd hs he

theorem lookup_eq_none_iff : c.lookup s = none ↔ ∀ k, c.Live k → (c.entries k).sector ≠ s :=
  c.lookupTo_eq_none_iff s _ _

theorem lookup_eq_some_iff :
    c.lookup s = some j ↔
      c.Live j ∧ (c.entries j).sector = s ∧ ∀ k, c.Live k → j < k → (c.entries k).sector ≠ s :=
  c.lookupTo_eq_some_iff s j _ _

theorem exists_lookup (hi : c.Live i) (hs : (c.entries i).sector = s) :
    ∃ j, c.lookup s = some j ∧ i ≤ j := by
  cases hl : c.lookup s with
  | none => exact absurd hs (lookup_eq_none_iff.mp hl i hi)
  | some j =>
    refine ⟨j, rfl, not_lt.mp fun hlt => ?_⟩
    exact (lookup_eq_some_iff.mp hl).2.2 i hi hlt hs

/-- The two caches agree in everything but the ages. -/
structure Aged (c c' : BlockCache) : Prop where
  entryNum : c'.entryNum = c.entryNum
  sector : ∀ i, (c'.entries i).sector = (c.entries i).sector
  write : ∀ i, (c'.entries i).write = (c.entries i).write
  data : ∀ i, (c'.entries i).data = (c.entries i).data

theorem Aged.refl (c : BlockCache) : Aged c c :=
  ⟨rfl, fun _ => rfl, fun _ => rfl, fun _ => rfl⟩

theorem Aged.trans {c'' : BlockCache} (h : Aged c c') (h' : Aged c' c'') : Aged c c'' :=
  ⟨h'.entryNum.trans h.entryNum, fun i => (h'.sector i).trans (h.sector i),
    fun i => (h'.write i).trans (h.write i), fun i => (h'.data i).trans (h.data i)⟩

theorem Aged.live (h : Aged c c') (i : Fin cacheSize) : c'.Live i ↔ c.Live i := by
  unfold Live
  rw [h.entryNum]

theorem Aged.lookup (h : Aged c c') (s : Sector) : c'.lookup s = c.lookup s := by
  cases hl : c.lookup s with
  | none =>
    rw [lookup_eq_none_iff] at hl ⊢
    exact fun k hk => by rw [h.sector]; exact hl k ((h.live k).mp hk)
  | some j =>
    rw [lookup_eq_some_iff] at hl ⊢
    refine ⟨(h.live j).mpr hl.1, by rw [h.sector]; exact hl.2.1, fun k hk hlt => ?_⟩
    rw [h.sector]
    exact hl.2.2 k ((h.live k).mp hk) hlt

/-! ### Putting an entry in place -/

@[simp] theorem setEntry_entryNum (c : BlockCache) (m : Fin cacheSize) (e : CacheEntry) :
    (c.setEntry m e).entryNum = c.entryNum := rfl

@[simp] theorem setEntry_same (c : BlockCache) (m : Fin cacheSize) (e : CacheEntry) :
    (c.setEntry m e).entries m = e := by simp [setEntry]

theorem setEntry_ne (c : BlockCache) (e : CacheEntry) (h : i ≠ m) :
    (c.setEntry m e).entries i = c.entries i := by simp [setEntry, h]

theorem lookup_setEntry_of_ne (ht : e.sector ≠ t) (hm : c.lookup t ≠ some m) :
    (c.setEntry m e).lookup t = c.lookup t := by
  cases hl : c.lookup t with
  | none =>
    rw [lookup_eq_none_iff] at hl ⊢
    intro k hk
    by_cases hkm : k = m
    · subst hkm; simpa using ht
    · rw [setEntry_ne _ _ hkm]; exact hl k hk
  | some j =>
    have hjm : j ≠ m := fun h => hm (h ▸ hl)
    rw [lookup_eq_some_iff] at hl ⊢
    refine ⟨hl.1, by rw [setEntry_ne _ _ hjm]; exact hl.2.1, fun k hk hlt => ?_⟩
    by_cases hkm : k = m
    · subst hkm; simpa using ht
    · rw [setEntry_ne _ _ hkm]; exact hl.2.2 k hk hlt

theorem lookup_setEntry_lost (ht : e.sector ≠ t) (hm : c.lookup t = some m)
    (hfirst : ∀ i, i < m → c.Live i → (c.entries i).sector ≠ t) :
    (c.setEntry m e).lookup t = none := by
  rw [lookup_eq_some_iff] at hm
  rw [lookup_eq_none_iff]
  intro k hk
  rcases lt_trichotomy k m with hlt | rfl | hlt
  · rw [setEntry_ne _ _ hlt.ne]; exact hfirst k hlt hk
  · simpa using ht
  · rw [setEntry_ne _ _ hlt.ne']; exact hm.2.2 k hk hlt

theorem lookup_setEntry_self (hs : e.sector = s) (hm : c.Live m)
    (hlast : ∀ i, m < i → c.Live i → (c.entries i).sector ≠ s) :
    (c.setEntry m e).lookup s = some m := by
  rw [lookup_eq_some_iff]
  refine ⟨hm, by simpa using hs, fun k hk hlt => ?_⟩
  rw [setEntry_ne _ _ hlt.ne']
  exact hlast k hlt hk

theorem lookup_setEntry_later (hj : c.lookup s = some j) (hmj : m < j) :
    (c.setEntry m e).lookup s = some j := by
  rw [lookup_eq_some_iff] at hj ⊢
  refine ⟨hj.1, by rw [setEntry_ne _ _ hmj.ne']; exact hj.2.1, fun k hk hlt => ?_⟩
  rw [setEntry_ne _ _ (hmj.trans hlt).ne']
  exact hj.2.2 k hk hlt

end BlockCache

open BlockCache

/-! ### The contents of a sector -/

variable {st st' : CacheState} {s t : Sector} {i j m : Fin cacheSize} {b : Block}

/-- What cache and device hold for sector `s`: its last entry, or the device's sector. -/
def CacheState.view (st : CacheState) (s : Sector) : Block :=
  match st.cache.lookup s with
  | some j => (st.cache.entries j).data
  | none => st.disk.sectors s

theorem CacheState.view_of_some (h : st.cache.lookup s = some j) :
    st.view s = (st.cache.entries j).data := by
  simp [view, h]

theorem CacheState.view_of_none (h : st.cache.lookup s = none) : st.view s = st.disk.sectors s := by
  simp [view, h]

theorem BlockCache.Aged.view (h : Aged st.cache st'.cache) (hd : st'.disk = st.disk) :
    st'.view = st.view := by
  funext s
  unfold CacheState.view
  rw [h.lookup s, hd]
  cases st.cache.lookup s with
  | none => rfl
  | some j => exact h.data j

/-! ### The scans -/

/-- What both scans do to an entry: a hit is new, every other entry ages. -/
def CacheEntry.touch (e : CacheEntry) (s : Sector) : CacheEntry :=
  if e.sector = s then { e with refCount := 0 } else { e with refCount := e.refCount + 1 }

@[simp] theorem CacheEntry.touch_sector (e : CacheEntry) (s : Sector) :
    (e.touch s).sector = e.sector := by unfold touch; split_ifs <;> rfl

@[simp] theorem CacheEntry.touch_write (e : CacheEntry) (s : Sector) :
    (e.touch s).write = e.write := by unfold touch; split_ifs <;> rfl

@[simp] theorem CacheEntry.touch_data (e : CacheEntry) (s : Sector) :
    (e.touch s).data = e.data := by unfold touch; split_ifs <;> rfl

theorem CacheEntry.touch_refCount_congr {e e' : CacheEntry} (s : Sector)
    (hs : e.sector = e'.sector) (hr : e.refCount = e'.refCount) :
    (e.touch s).refCount = (e'.touch s).refCount := by
  unfold touch
  rw [hs]
  split_ifs
  · rfl
  · exact congrArg (· + 1) hr

theorem readScanTo_entries (c : BlockCache) (s : Sector) : ∀ (n : ℕ) (h : n ≤ cacheSize)
    (j : Fin cacheSize), (readScanTo c s n h).2 j =
      if j.val < n then (c.entries j).touch s else c.entries j
  | 0, _, j => by simp [readScanTo]
  | i + 1, h, j => by
    have ih := readScanTo_entries c s i (le_of_succ_le h)
    have hi : (readScanTo c s i (le_of_succ_le h)).2 ⟨i, h⟩ = c.entries ⟨i, h⟩ := by
      rw [ih]; simp
    simp only [readScanTo, hi]
    by_cases hj : j = ⟨i, h⟩
    · split_ifs with he <;> simp_all [CacheEntry.touch]
    · have hlt : j.val < i + 1 ↔ j.val < i := by
        have : j.val ≠ i := fun heq => hj (Fin.ext heq)
        omega
      split_ifs with he <;> simp_all

theorem readScanTo_found (c : BlockCache) (s : Sector) : ∀ (n : ℕ) (h : n ≤ cacheSize),
    (readScanTo c s n h).1 = (c.lookupTo s n h).map (fun j => (c.entries j).data)
  | 0, _ => rfl
  | i + 1, h => by
    have hi : (readScanTo c s i (le_of_succ_le h)).2 ⟨i, h⟩ = c.entries ⟨i, h⟩ := by
      rw [readScanTo_entries]; simp
    simp only [readScanTo, lookupTo, hi]
    split_ifs with he
    · rfl
    · exact readScanTo_found c s i (le_of_succ_le h)

theorem undoScanTo_entries (c : BlockCache) : ∀ (n : ℕ) (h : n ≤ cacheSize)
    (j : Fin cacheSize), undoScanTo c n h j =
      if j.val < n then { c.entries j with refCount := (c.entries j).refCount - 1 }
      else c.entries j
  | 0, _, j => by simp [undoScanTo]
  | i + 1, h, j => by
    have ih := undoScanTo_entries c i (le_of_succ_le h)
    by_cases hj : j = ⟨i, h⟩
    · subst hj
      simp [undoScanTo, ih]
    · have hlt : j.val < i + 1 ↔ j.val < i := by
        have : j.val ≠ i := fun heq => hj (Fin.ext heq)
        omega
      simp [undoScanTo, ih, hj, hlt]

theorem writeScanTo_entries (c : BlockCache) (s : Sector) : ∀ (n : ℕ) (h : n ≤ cacheSize)
    (j : Fin cacheSize), (writeScanTo c s n h).entries j =
      if j.val < n then (c.entries j).touch s else c.entries j
  | 0, _, j => by simp [writeScanTo]
  | i + 1, h, j => by
    have ih := writeScanTo_entries c s i (le_of_succ_le h)
    have hi : (writeScanTo c s i (le_of_succ_le h)).entries ⟨i, h⟩ = c.entries ⟨i, h⟩ := by
      rw [ih]; simp
    simp only [writeScanTo, hi]
    by_cases hj : j = ⟨i, h⟩
    · split_ifs with he hm <;> simp_all [CacheEntry.touch]
    · have hlt : j.val < i + 1 ↔ j.val < i := by
        have : j.val ≠ i := fun heq => hj (Fin.ext heq)
        omega
      split_ifs with he hm <;> simp_all

theorem writeScanTo_found (c : BlockCache) (s : Sector) : ∀ (n : ℕ) (h : n ≤ cacheSize),
    (writeScanTo c s n h).found = c.lookupTo s n h
  | 0, _ => rfl
  | i + 1, h => by
    have hi : (writeScanTo c s i (le_of_succ_le h)).entries ⟨i, h⟩ = c.entries ⟨i, h⟩ := by
      rw [writeScanTo_entries]; simp
    have ih := writeScanTo_found c s i (le_of_succ_le h)
    simp only [writeScanTo, lookupTo, hi]
    split_ifs with he hm
    · rfl
    · exact ih
    · exact ih

/-- The running maximum of `writeScan` bounds every age seen, and every age before the
index chosen is strictly below the chosen one. -/
theorem writeScanTo_max (c : BlockCache) (s : Sector) : ∀ (n : ℕ) (h : n ≤ cacheSize),
    let r := writeScanTo c s n h
    (∀ i : Fin cacheSize, i.val < n → (c.entries i).sector ≠ s →
      (c.entries i).refCount + 1 ≤ r.max) ∧
    (∀ i, i < r.maxIndex → (c.entries i).sector ≠ s →
      (c.entries i).refCount + 1 < (c.entries r.maxIndex).refCount + 1) ∧
    (r.maxIndex.val < n ∨ r.maxIndex = 0)
  | 0, _ => by
    refine ⟨fun i hi => absurd hi (not_lt_zero _), fun i hi => ?_, .inr rfl⟩
    exact absurd hi (Fin.not_lt_zero i)
  | n + 1, h => by
    obtain ⟨hmax, hidx, hlt⟩ := writeScanTo_max c s n (le_of_succ_le h)
    have hn : (writeScanTo c s n (le_of_succ_le h)).entries ⟨n, h⟩ = c.entries ⟨n, h⟩ := by
      rw [writeScanTo_entries]; simp
    simp only [writeScanTo, hn]
    have last : ∀ i : Fin cacheSize, i.val < n + 1 → i.val < n ∨ i = ⟨n, h⟩ := fun i hi =>
      (Nat.lt_succ_iff_lt_or_eq.mp hi).imp_right fun he => Fin.ext he
    split_ifs with he hm
    · refine ⟨fun i hi hs => ?_, hidx, hlt.imp_left Nat.lt_succ_of_lt⟩
      rcases last i hi with hi | rfl
      · exact hmax i hi hs
      · exact absurd he hs
    · refine ⟨fun i hi hs => ?_, fun i hi hs => ?_, .inl (lt_succ_self n)⟩
      · rcases last i hi with hi | rfl
        · exact Int32.le_of_lt (Int32.lt_of_le_of_lt (hmax i hi hs) hm)
        · exact Int32.le_refl _
      · exact Int32.lt_of_le_of_lt (hmax i hi hs) hm
    · refine ⟨fun i hi hs => ?_, hidx, hlt.imp_left lt_succ_of_lt⟩
      rcases last i hi with hi | rfl
      · exact hmax i hi hs
      · exact Int32.not_lt.mp hm

theorem readScan_found (s : Sector) (st : CacheState) :
    (readScan s st).1 = (st.cache.lookup s).map (fun j => (st.cache.entries j).data) :=
  readScanTo_found st.cache s _ _

theorem readScan_disk (s : Sector) (st : CacheState) : (readScan s st).2.disk = st.disk := rfl

theorem readScan_entries (s : Sector) (st : CacheState) (hj : st.cache.Live j) :
    (readScan s st).2.cache.entries j = (st.cache.entries j).touch s :=
  (readScanTo_entries st.cache s _ _ j).trans (if_pos hj)

theorem readScan_aged (s : Sector) (st : CacheState) :
    Aged st.cache (readScan s st).2.cache := by
  constructor
  · rfl
  all_goals
    intro i
    simp only [readScan, readScanTo_entries]
    split_ifs <;> simp

theorem undoScan_disk (st : CacheState) : (undoScan st).disk = st.disk := rfl

theorem undoScan_refCount (st : CacheState) (hj : st.cache.Live j) :
    ((undoScan st).cache.entries j).refCount = (st.cache.entries j).refCount - 1 := by
  have hj' : j.val < st.cache.entryNum := hj
  simp [undoScan, undoScanTo_entries, hj']

theorem undoScan_aged (st : CacheState) : Aged st.cache (undoScan st).cache := by
  constructor
  · rfl
  all_goals
    intro i
    simp only [undoScan, undoScanTo_entries]
    split_ifs <;> rfl

theorem writeScan_found (s : Sector) (st : CacheState) :
    (writeScan s st).1.1 = st.cache.lookup s :=
  writeScanTo_found st.cache s _ _

theorem writeScan_disk (s : Sector) (st : CacheState) : (writeScan s st).2.disk = st.disk := rfl

theorem writeScan_entries (s : Sector) (st : CacheState) (hj : st.cache.Live j) :
    (writeScan s st).2.cache.entries j = (st.cache.entries j).touch s :=
  (writeScanTo_entries st.cache s _ _ j).trans (if_pos hj)

theorem writeScan_aged (s : Sector) (st : CacheState) :
    Aged st.cache (writeScan s st).2.cache := by
  constructor
  · rfl
  all_goals
    intro i
    simp only [writeScan, writeScanTo_entries]
    split_ifs <;> simp

theorem writeScan_maxIndex (s : Sector) (st : CacheState) :
    (writeScan s st).1.2.val < st.cache.entryNum ∨ (writeScan s st).1.2 = 0 :=
  (writeScanTo_max st.cache s _ _).2.2

theorem writeScan_oldest (s : Sector) (st : CacheState) (hi : i < (writeScan s st).1.2)
    (hs : (st.cache.entries i).sector ≠ s) :
    (st.cache.entries i).refCount ≠ (st.cache.entries (writeScan s st).1.2).refCount := by
  intro heq
  have := (writeScanTo_max st.cache s st.cache.entryNum st.cache.entryNum_le).2.1 i hi hs
  rw [heq] at this
  exact Int32.lt_irrefl this

/-! ### The regions that store -/

/-- The last entry of `s`, if it is after entry `m` and would hide it, holds `b`. -/
def NotHidden (c : BlockCache) (m : Fin cacheSize) (s : Sector) (b : Block) : Prop :=
  ∀ j, m < j → c.lookup s = some j → (c.entries j).data = b

theorem notHidden_of_lookup {c : BlockCache} (h : c.lookup s = some m) (b : Block) :
    NotHidden c m s b := by
  intro j hmj hj
  rw [h] at hj
  exact absurd hmj (Option.some.inj hj ▸ lt_irrefl _)

theorem NotHidden.setEntry {c : BlockCache} (h : NotHidden c m s b) (hm : c.Live m) :
    ∃ j, (c.setEntry m (.stored s b)).lookup s = some j ∧
      ((c.setEntry m (.stored s b)).entries j).data = b := by
  by_cases hlater : ∃ j, m < j ∧ c.lookup s = some j
  · obtain ⟨j, hmj, hj⟩ := hlater
    refine ⟨j, lookup_setEntry_later hj hmj, ?_⟩
    rw [setEntry_ne _ _ hmj.ne']
    exact h j hmj hj
  · refine ⟨m, lookup_setEntry_self rfl hm fun i hi hlive hs => ?_, ?_⟩
    · obtain ⟨j, hj, hij⟩ := exists_lookup hlive hs
      exact hlater ⟨j, lt_of_lt_of_le hi hij, hj⟩
    · simp [CacheEntry.stored]

theorem view_storeHit (hm : st.cache.Live m) (hs : (st.cache.entries m).sector = s)
    (hcopy : NotHidden st.cache m s b) :
    (storeHit m s b st).view = update st.view s b := by
  funext t
  by_cases ht : t = s
  · subst ht
    obtain ⟨j, hj, hdata⟩ := hcopy.setEntry hm
    have hlook : (storeHit m t b st).cache.lookup t = some j := hj
    rw [update_self, view_of_some hlook]
    exact hdata
  · rw [update_of_ne ht]
    have hne : st.cache.lookup t ≠ some m := fun h =>
      ht ((lookup_eq_some_iff.mp h).2.1.symm.trans hs)
    have hlook : (storeHit m s b st).cache.lookup t = st.cache.lookup t :=
      lookup_setEntry_of_ne (e := .stored s b) (Ne.symm ht) hne
    unfold view
    rw [hlook]
    cases h : st.cache.lookup t with
    | none => rfl
    | some k =>
      have hk : k ≠ m := fun hk => hne (hk ▸ h)
      simp [storeHit, setEntry_ne _ _ hk]

theorem fill_full (h : ¬ st.cache.entryNum < cacheSize) (s : Sector) (b : Block) :
    fill s b st = st := dif_neg h

theorem fill_free (h : st.cache.entryNum < cacheSize) (s : Sector) (b : Block) :
    fill s b st = { st with cache :=
      { entryNum := st.cache.entryNum + 1
        entries := update st.cache.entries ⟨st.cache.entryNum, h⟩ (.stored s b)
        entryNum_le := h } } := dif_pos h

theorem fill_entryNum (h : st.cache.entryNum < cacheSize) (s : Sector) (b : Block) :
    (fill s b st).cache.entryNum = st.cache.entryNum + 1 := by
  rw [fill_free h]

theorem fill_disk (s : Sector) (b : Block) (st : CacheState) : (fill s b st).disk = st.disk := by
  unfold fill; split_ifs <;> rfl

theorem fill_new (h : st.cache.entryNum < cacheSize) (s : Sector) (b : Block) :
    (fill s b st).cache.entries ⟨st.cache.entryNum, h⟩ = .stored s b := by
  rw [fill_free h]; simp

theorem fill_old (hi : st.cache.Live i) (s : Sector) (b : Block) :
    (fill s b st).cache.entries i = st.cache.entries i := by
  unfold fill
  split_ifs with h
  · have hne : i ≠ ⟨st.cache.entryNum, h⟩ := fun he => by
      have : i.val < st.cache.entryNum := hi
      rw [he] at this
      exact absurd this (lt_irrefl _)
    simp [hne]
  · rfl

theorem fill_live (h : st.cache.entryNum < cacheSize) :
    (fill s b st).cache.Live i ↔ st.cache.Live i ∨ i = ⟨st.cache.entryNum, h⟩ := by
  unfold Live
  rw [fill_entryNum h]
  exact Nat.lt_succ_iff_lt_or_eq.trans (or_congr_right (Fin.ext_iff (b := ⟨_, h⟩)).symm)

theorem lookup_fill_self (h : st.cache.entryNum < cacheSize) (s : Sector) (b : Block) :
    (fill s b st).cache.lookup s = some ⟨st.cache.entryNum, h⟩ := by
  rw [lookup_eq_some_iff]
  refine ⟨(fill_live h).mpr (.inr rfl), by rw [fill_new h]; rfl, fun k hk hlt => ?_⟩
  rcases (fill_live h).mp hk with hk | rfl
  · exact absurd hlt (lt_asymm hk)
  · exact absurd hlt (lt_irrefl _)

theorem lookup_fill_ne (h : st.cache.entryNum < cacheSize) (ht : t ≠ s) (b : Block) :
    (fill s b st).cache.lookup t = st.cache.lookup t := by
  have hnew : ((fill s b st).cache.entries ⟨st.cache.entryNum, h⟩).sector ≠ t := by
    rw [fill_new h]; exact Ne.symm ht
  cases hl : st.cache.lookup t with
  | none =>
    rw [lookup_eq_none_iff] at hl ⊢
    intro k hk
    rcases (fill_live h).mp hk with hk | rfl
    · rw [fill_old hk]; exact hl k hk
    · exact hnew
  | some j =>
    rw [lookup_eq_some_iff] at hl ⊢
    refine ⟨(fill_live h).mpr (.inl hl.1), by rw [fill_old hl.1]; exact hl.2.1, ?_⟩
    intro k hk hlt
    rcases (fill_live h).mp hk with hk | rfl
    · rw [fill_old hk]; exact hl.2.2 k hk hlt
    · exact hnew

theorem view_fill (h : st.cache.entryNum < cacheSize) (s : Sector) (b : Block) :
    (fill s b st).view = update st.view s b := by
  funext t
  by_cases ht : t = s
  · subst ht
    rw [view_of_some (lookup_fill_self h t b), fill_new h]
    simp [CacheEntry.stored]
  · rw [update_of_ne ht]
    unfold view
    rw [lookup_fill_ne h ht, fill_disk]
    cases hl : st.cache.lookup t with
    | none => rfl
    | some j => simp [fill_old (lookup_eq_some_iff.mp hl).1]

theorem evict_ok (hn : st.cache.entryNum = cacheSize) (hw : (st.cache.entries m).write = true)
    (hv : (st.cache.entries m).sector < st.disk.size) (s : Sector) (b : Block) :
    evict m s b st = .ok
      { cache := st.cache.setEntry m (.stored s b)
        disk := st.disk.write (st.cache.entries m).sector (st.cache.entries m).data } := by
  simp only [evict, if_pos hn, hw, if_true, blockWrite_ok hv]
  rfl

theorem evict_full (hn : st.cache.entryNum = cacheSize) (he : evict m s b st = .ok st') :
    st'.cache = st.cache.setEntry m (.stored s b) ∧ ((st.cache.entries m).write = true →
      st'.disk = st.disk.write (st.cache.entries m).sector (st.cache.entries m).data) := by
  simp only [evict, if_pos hn] at he
  split_ifs at he with hw
  · unfold blockWrite at he
    split_ifs at he with hv
    · cases he
      exact ⟨rfl, fun _ => rfl⟩
    · cases he
  · cases he
    exact ⟨rfl, fun h => absurd h hw⟩

/-- Replacing an entry keeps the contents of every other sector if no earlier entry holds
the sector that is written back, and makes `b` the contents of `s` if a later entry of `s`,
which would hide the new one, holds `b` too. -/
theorem view_evict (hm : st.cache.Live m) (hc : st'.cache = st.cache.setEntry m (.stored s b))
    (hd : st'.disk = st.disk.write (st.cache.entries m).sector (st.cache.entries m).data)
    (hfirst : (st.cache.entries m).sector ≠ s → ∀ i, i < m → st.cache.Live i →
      (st.cache.entries i).sector ≠ (st.cache.entries m).sector)
    (hcopy : NotHidden st.cache m s b) : st'.view = update st.view s b := by
  funext t
  by_cases ht : t = s
  · subst ht
    obtain ⟨j, hj, hdata⟩ := hcopy.setEntry hm
    rw [← hc] at hj hdata
    rw [update_self, view_of_some hj]
    exact hdata
  · rw [update_of_ne ht]
    by_cases hlm : st.cache.lookup t = some m
    · -- the entry written back was the one of `t`: the device now has its data
      have hsec := (lookup_eq_some_iff.mp hlm).2.1
      have hl : st'.cache.lookup t = none := by
        rw [hc]
        exact lookup_setEntry_lost (e := .stored s b) (Ne.symm ht) hlm
          (fun i hi hlive => hsec ▸ hfirst (hsec ▸ ht) i hi hlive)
      rw [view_of_none hl, view_of_some hlm, hd]
      simp [hsec]
    · have hl : st'.cache.lookup t = st.cache.lookup t := by
        rw [hc]; exact lookup_setEntry_of_ne (e := .stored s b) (Ne.symm ht) hlm
      cases hlt : st.cache.lookup t with
      | none =>
        have hne : t ≠ (st.cache.entries m).sector :=
          fun he => lookup_eq_none_iff.mp hlt m hm he.symm
        rw [view_of_none (hl.trans hlt), view_of_none hlt, hd]
        simp [hne]
      | some j =>
        have hj : j ≠ m := fun hj => hlm (hj ▸ hlt)
        rw [view_of_some (hl.trans hlt), view_of_some hlt, hc,
          setEntry_ne _ _ hj]

end Pintos

import Pintos.CacheRegions
import Pintos.Interaction

/-! # The buffer cache refines the device

Run one call after another, the cache is transparent: a client that issues `cache_read`,
`cache_write` and `cache_sync` calls sees a plain array of sectors.

The invariant (`Coherent`) has to allow for one sector held twice: when `cache_write` takes
the last free entry it goes on to evict, and the sector is put in place of the victim as
well.  Both copies have the same age from then on, because every scan treats entries of one
sector alike, and the later copy is the last entry of the table.  Reads and hits settle on
the later copy (`lookup`), and the search for a victim prefers the earlier of two entries of
the same age, so the stale copy is always the one that is evicted first.

`cacheHandler` and `arrayHandler` give the three calls their meaning on the cache and on a
plain device; `cache_simulates` is the refinement, for one call, and `run_simulation` of
`Interaction.lean` carries it to every client. -/

namespace Pintos

variable {st st' : CacheState} {s : Sector} {j : Fin cacheSize}

open BlockCache Interaction Function

/-- The invariant of the cache between calls. -/
structure Coherent (st : CacheState) : Prop where
  dirty : ∀ i, st.cache.Live i → (st.cache.entries i).write = true
  valid : ∀ i, st.cache.Live i → (st.cache.entries i).sector < st.disk.size
  /-- A sector held twice is held by the last entry of a full table, and both copies have
  the same age. -/
  twin : ∀ i j, st.cache.Live i → st.cache.Live j → i < j →
    (st.cache.entries i).sector = (st.cache.entries j).sector →
    st.cache.entryNum = cacheSize ∧ j = Fin.last 31 ∧
      (st.cache.entries i).refCount = (st.cache.entries j).refCount

theorem coherent_init (c : BlockCache) (d : Disk) : Coherent ⟨c.init, d⟩ where
  dirty _ hi := absurd hi (Nat.not_lt_zero _)
  valid _ hi := absurd hi (Nat.not_lt_zero _)
  twin _ _ hi := absurd hi (Nat.not_lt_zero _)

theorem view_init (c : BlockCache) (d : Disk) : (⟨c.init, d⟩ : CacheState).view = d.sectors := rfl

theorem Coherent.aged (h : Coherent st) (ha : Aged st.cache st'.cache) (hd : st'.disk = st.disk)
    (href : ∀ i j, st.cache.Live i → st.cache.Live j →
      (st.cache.entries i).sector = (st.cache.entries j).sector →
      (st.cache.entries i).refCount = (st.cache.entries j).refCount →
      (st'.cache.entries i).refCount = (st'.cache.entries j).refCount) : Coherent st' where
  dirty i hi := by rw [ha.write]; exact h.dirty i ((ha.live i).mp hi)
  valid i hi := by rw [ha.sector, hd]; exact h.valid i ((ha.live i).mp hi)
  twin i j hi hj hij hs := by
    rw [ha.live] at hi hj
    rw [ha.sector, ha.sector] at hs
    obtain ⟨hn, hlast, hr⟩ := h.twin i j hi hj hij hs
    exact ⟨by rw [ha.entryNum]; exact hn, hlast, href i j hi hj hs hr⟩

theorem coherent_readScan (h : Coherent st) (s : Sector) : Coherent (readScan s st).2 := by
  refine h.aged (readScan_aged s st) (readScan_disk s st) fun i j hi hj hs hr => ?_
  rw [readScan_entries s st hi, readScan_entries s st hj]
  exact CacheEntry.touch_refCount_congr s hs hr

theorem coherent_undoScan (h : Coherent st) : Coherent (undoScan st) := by
  refine h.aged (undoScan_aged st) (undoScan_disk st) fun i j hi hj _ hr => ?_
  rw [undoScan_refCount st hi, undoScan_refCount st hj, hr]

theorem coherent_writeScan (h : Coherent st) (s : Sector) : Coherent (writeScan s st).2 := by
  refine h.aged (writeScan_aged s st) (writeScan_disk s st) fun i j hi hj hs hr => ?_
  rw [writeScan_entries s st hi, writeScan_entries s st hj]
  exact CacheEntry.touch_refCount_congr s hs hr

/-! ### `cache_write` -/

theorem cacheWrite_hit (hl : st.cache.lookup s = some j) (b : Block) :
    cacheWrite s b st = .ok (storeHit j s b (writeScan s st).2) := by
  have hf := writeScan_found s st
  rw [hl] at hf
  simp only [cacheWrite, hf]

theorem cacheWrite_miss (hl : st.cache.lookup s = none) (b : Block) :
    cacheWrite s b st =
      if (fill s b (writeScan s st).2).cache.entryNum < cacheSize then
        .ok (fill s b (writeScan s st).2)
      else evict (writeScan s st).1.2 s b (fill s b (writeScan s st).2) := by
  have hf := writeScan_found s st
  rw [hl] at hf
  simp only [cacheWrite, hf]

/-- A hit is stored in the later copy, which keeps its sector: ages of the two copies are
reset together by the scan before. -/
theorem coherent_storeHit (h : Coherent st) (hl : st.cache.lookup s = some j)
    (hr : ∀ i, st.cache.Live i →
      (st.cache.entries i).sector = s → (st.cache.entries i).refCount = 0) (b : Block) :
    Coherent (storeHit j s b st) := by
  obtain ⟨hj, hjs, -⟩ := lookup_eq_some_iff.mp hl
  -- sector, age and validity of every entry are as before
  have hsec : ∀ i, ((storeHit j s b st).cache.entries i).sector = (st.cache.entries i).sector := by
    intro i
    by_cases hi : i = j
    · subst hi; simp [storeHit, CacheEntry.stored, hjs]
    · simp [storeHit, setEntry_ne _ _ hi]
  have href : ∀ i, ((storeHit j s b st).cache.entries i).refCount = (st.cache.entries i).refCount := by
    intro i
    by_cases hi : i = j
    · subst hi; simp [storeHit, CacheEntry.stored, hr i hj hjs]
    · simp [storeHit, setEntry_ne _ _ hi]
  refine ⟨fun i hi => ?_, fun i hi => ?_, fun i k hi hk hik hs => ?_⟩
  · by_cases hij : i = j
    · subst hij; simp [storeHit, CacheEntry.stored]
    · simp only [storeHit, setEntry_ne _ _ hij]; exact h.dirty i hi
  · rw [hsec]; exact h.valid i hi
  · rw [hsec, hsec] at hs
    rw [href, href]
    exact h.twin i k hi hk hik hs

theorem coherent_fill (h : Coherent st) (hn : st.cache.entryNum < cacheSize)
    (hl : st.cache.lookup s = none) (hv : s < st.disk.size) (b : Block) :
    Coherent (fill s b st) := by
  have hmiss := lookup_eq_none_iff.mp hl
  refine ⟨fun i hi => ?_, fun i hi => ?_, fun i j hi hj hij hs => ?_⟩
  · rcases (fill_live hn).mp hi with hi | rfl
    · rw [fill_old hi]; exact h.dirty i hi
    · rw [fill_new hn]; rfl
  · rw [fill_disk]
    rcases (fill_live hn).mp hi with hi | rfl
    · rw [fill_old hi]; exact h.valid i hi
    · rw [fill_new hn]; exact hv
  · rcases (fill_live hn).mp hi with hi | rfl
    · rw [fill_old hi] at hs
      rcases (fill_live hn).mp hj with hj | rfl
      · rw [fill_old hj] at hs
        exact absurd (h.twin i j hi hj hij hs).1 hn.ne
      · rw [fill_new hn] at hs
        exact absurd hs (hmiss i hi)
    · rcases (fill_live hn).mp hj with hj | rfl
      · exact absurd hij (Nat.lt_asymm hj)
      · exact absurd hij (lt_irrefl _)

/-- `evict` on a full table: the invariant allows the sector to be held already, by the last
entry, as it is after `fill` took that entry. -/
theorem coherent_evict (h : Coherent st) {m : Fin cacheSize} {b : Block}
    (hn : st.cache.entryNum = cacheSize) (hv : s < st.disk.size)
    (hfirst : ∀ i, i < m → (st.cache.entries i).sector ≠ (st.cache.entries m).sector)
    (hcopy : ∀ k, k ≠ m → (st.cache.entries k).sector = s →
      k = Fin.last 31 ∧ m < k ∧ st.cache.entries k = .stored s b) :
    ∃ st', evict m s b st = .ok st' ∧ Coherent st' ∧ st'.disk.size = st.disk.size ∧
      st'.view = update st.view s b ∧
      st'.cache = st.cache.setEntry m (.stored s b) := by
  have live : ∀ i, st.cache.Live i := fun i => by unfold Live; rw [hn]; exact i.isLt
  refine ⟨_, evict_ok hn (h.dirty m (live m)) (h.valid m (live m)) s b, ?_, rfl, ?_, rfl⟩
  · refine ⟨fun i hi => ?_, fun i hi => ?_, fun i j hi hj hij hs => ⟨hn, ?_⟩⟩
    · by_cases him : i = m
      · subst him; simp [CacheEntry.stored]
      · simp only [setEntry_ne _ _ him]; exact h.dirty i (live i)
    · by_cases him : i = m
      · subst him; simpa [CacheEntry.stored] using hv
      · simp only [setEntry_ne _ _ him]; exact h.valid i (live i)
    · rcases eq_or_ne i m with rfl | him
      · -- the new entry is the earlier copy
        have hji : j ≠ i := hij.ne'
        simp only [setEntry_same, setEntry_ne _ _ hji] at hs ⊢
        obtain ⟨hlast, -, he⟩ := hcopy j hji hs.symm
        exact ⟨hlast, by rw [he]⟩
      · rcases eq_or_ne j m with rfl | hjm
        · simp only [setEntry_same, setEntry_ne _ _ him] at hs
          exact absurd (hcopy i him hs).2.1 hij.asymm
        · simp only [setEntry_ne _ _ him, setEntry_ne _ _ hjm] at hs ⊢
          exact (h.twin i j (live i) (live j) hij hs).2
  · refine view_evict (live m) rfl rfl (fun _ i hi _ => hfirst i hi) fun j hmj hj => ?_
    obtain ⟨-, hjs, -⟩ := lookup_eq_some_iff.mp hj
    rw [(hcopy j hmj.ne' hjs).2.2]
    rfl

/-- The victim of a miss is never the later of two copies. -/
theorem victim_first (h : Coherent st) (hl : st.cache.lookup s = none) {i : Fin cacheSize}
    (hi : i < (writeScan s st).1.2) (hm : st.cache.Live (writeScan s st).1.2) :
    (st.cache.entries i).sector ≠ (st.cache.entries (writeScan s st).1.2).sector := by
  intro heq
  have hlive : st.cache.Live i := Nat.lt_trans hi hm
  exact writeScan_oldest s st hi (lookup_eq_none_iff.mp hl i hlive)
    (h.twin i _ hlive hm hi heq).2.2

/-- **`cache_write`** from a coherent state stores the block and nothing else. -/
theorem coherent_cacheWrite (h : Coherent st) (hv : s < st.disk.size) (b : Block) :
    ∃ st', cacheWrite s b st = .ok st' ∧ Coherent st' ∧ st'.disk.size = st.disk.size ∧
      st'.view = update st.view s b := by
  have haged := writeScan_aged s st
  have hview : (writeScan s st).2.view = st.view := haged.view (writeScan_disk s st)
  have hlook := haged.lookup s
  have h1 := coherent_writeScan h s
  cases hl : st.cache.lookup s with
  | some j =>
    refine ⟨_, cacheWrite_hit hl b, coherent_storeHit h1 (hlook.trans hl) ?_ b, rfl, ?_⟩
    · intro i hi hs
      rw [haged.sector] at hs
      rw [writeScan_entries s st hi, CacheEntry.touch, if_pos hs]
    · have hfound := lookup_eq_some_iff.mp (hlook.trans hl)
      rw [view_storeHit hfound.1 hfound.2.1 (notHidden_of_lookup (hlook.trans hl) b), hview]
  | none =>
    rw [cacheWrite_miss hl]
    rw [hl] at hlook
    have hmiss := lookup_eq_none_iff.mp hlook
    set st1 := (writeScan s st).2 with hst1
    have hnum : st1.cache.entryNum = st.cache.entryNum := haged.entryNum
    by_cases hn : st1.cache.entryNum < cacheSize
    · have h2 := coherent_fill h1 hn hlook hv b
      have hview2 : (fill s b st1).view = update st.view s b := by
        rw [view_fill hn, hview]
      split_ifs with hroom
      · exact ⟨_, rfl, h2, by rw [fill_disk]; rfl, hview2⟩
      · -- the last free entry was taken: the sector also replaces the oldest entry
        rw [fill_entryNum hn] at hroom
        have hnum' : st1.cache.entryNum = 31 := by
          have : st1.cache.entryNum < 32 := hn
          have : ¬ st1.cache.entryNum + 1 < 32 := hroom
          omega
        have hm : st.cache.Live (writeScan s st).1.2 := by
          unfold Live
          rcases writeScan_maxIndex s st with hm | hm
          · exact hm
          · rw [hm, ← hnum, hnum']; exact Nat.succ_pos _
        have hm1 : st1.cache.Live (writeScan s st).1.2 := (haged.live _).mpr hm
        have hfirst : ∀ i, i < (writeScan s st).1.2 →
            ((fill s b st1).cache.entries i).sector ≠
              ((fill s b st1).cache.entries (writeScan s st).1.2).sector := by
          intro i hi
          have hi1 : st1.cache.Live i := Nat.lt_trans hi hm1
          rw [fill_old hi1, fill_old hm1, haged.sector, haged.sector]
          exact victim_first h hl hi hm
        have hcopy : ∀ k, k ≠ (writeScan s st).1.2 →
            ((fill s b st1).cache.entries k).sector = s → k = Fin.last 31 ∧
              (writeScan s st).1.2 < k ∧ (fill s b st1).cache.entries k = .stored s b := by
          intro k _ hks
          have hk : (fill s b st1).cache.Live k := by
            unfold Live; rw [fill_entryNum hn, hnum']; exact k.isLt
          rcases (fill_live hn).mp hk with hk | rfl
          · rw [fill_old hk] at hks
            exact absurd hks (hmiss k hk)
          · exact ⟨Fin.ext hnum', hm1, fill_new hn s b⟩
        have hfull : (fill s b st1).cache.entryNum = cacheSize := by
          rw [fill_entryNum hn, hnum']
        have hv2 : s < (fill s b st1).disk.size := by rw [fill_disk]; exact hv
        obtain ⟨st', he, hc', hsz, hv', -⟩ := coherent_evict h2 hfull hv2 hfirst hcopy
        refine ⟨st', he, hc', by rw [hsz, fill_disk]; rfl, ?_⟩
        rw [hv', hview2, update_idem]
    · rw [fill_full hn, if_neg hn]
      have hfull : st1.cache.entryNum = cacheSize :=
        le_antisymm st1.cache.entryNum_le (not_lt.mp hn)
      have live : ∀ i, st.cache.Live i := fun i => by
        unfold Live; rw [← hnum, hfull]; exact i.isLt
      have hfirst : ∀ i, i < (writeScan s st).1.2 →
          (st1.cache.entries i).sector ≠ (st1.cache.entries (writeScan s st).1.2).sector := by
        intro i hi
        rw [haged.sector, haged.sector]
        exact victim_first h hl hi (live _)
      obtain ⟨st', he, hc', hsz, hv', -⟩ := coherent_evict h1 (b := b) hfull hv hfirst
        fun k _ hks => absurd hks (hmiss k ((haged.live k).mpr (live k)))
      exact ⟨st', he, hc', hsz, by rw [hv', hview]⟩

/-! ### `cache_read` -/

theorem cacheRead_hit (hl : st.cache.lookup s = some j) :
    cacheRead s st = .ok (((st.cache.entries j).data, true), (readScan s st).2) := by
  have hf := readScan_found s st
  rw [hl] at hf
  simp only [cacheRead, hf, Option.map_some]

theorem cacheRead_miss (hl : st.cache.lookup s = none) (hv : s < st.disk.size) :
    cacheRead s st =
      (cacheWrite s (st.disk.sectors s) (undoScan (readScan s st).2)).map
        (fun st' => ((st.disk.sectors s, false), st')) := by
  have hf := readScan_found s st
  rw [hl] at hf
  have hb : blockRead (undoScan (readScan s st).2).disk s = .ok (st.disk.sectors s) :=
    blockRead_ok hv
  simp only [cacheRead, hf, Option.map_none, hb]
  rfl

/-- **`cache_read`** from a coherent state delivers the contents of the sector and changes
the contents of none. -/
theorem coherent_cacheRead (h : Coherent st) (hv : s < st.disk.size) :
    ∃ found st', cacheRead s st = .ok ((st.view s, found), st') ∧ Coherent st' ∧
      st'.disk.size = st.disk.size ∧ st'.view = st.view := by
  cases hl : st.cache.lookup s with
  | some j =>
    refine ⟨true, _, ?_, coherent_readScan h s, rfl, (readScan_aged s st).view (readScan_disk s st)⟩
    rw [cacheRead_hit hl, CacheState.view_of_some hl]
  | none =>
    have h2 : Coherent (undoScan (readScan s st).2) := coherent_undoScan (coherent_readScan h s)
    have hview : (undoScan (readScan s st).2).view = st.view := by
      rw [(undoScan_aged _).view (undoScan_disk _),
        (readScan_aged s st).view (readScan_disk s st)]
    obtain ⟨st', hw, hc, hsz, hv'⟩ := coherent_cacheWrite h2 hv (st.disk.sectors s)
    refine ⟨false, st', ?_, hc, hsz, ?_⟩
    · rw [cacheRead_miss hl hv, hw, CacheState.view_of_none hl]
      rfl
    · rw [hv', hview, ← CacheState.view_of_none hl, update_eq_self]

/-! ### `cache_sync` -/

/-- The loop of `cache_sync` leaves on the device the data of the last entry of every sector
it has passed. -/
theorem syncTo_sectors (c : BlockCache) : ∀ (n : ℕ) (h : n ≤ cacheSize) (d d' : Disk),
    syncTo c n h d = .ok d' →
    d'.size = d.size ∧ ∀ s, d'.sectors s = match c.lookupTo s n h with
      | some j => (c.entries j).data
      | none => d.sectors s
  | 0, _, d, d', hrun => by
    cases hrun
    exact ⟨rfl, fun s => by simp [lookupTo]⟩
  | i + 1, h, d, d', hrun => by
    simp only [syncTo] at hrun
    cases hd : syncTo c i (Nat.le_of_succ_le h) d with
    | error f => rw [hd] at hrun; cases hrun
    | ok d1 =>
      rw [hd] at hrun
      change blockWrite d1 _ _ = _ at hrun
      obtain ⟨hsz, hs1⟩ := syncTo_sectors c i _ d d1 hd
      unfold blockWrite at hrun
      split_ifs at hrun with hv
      cases hrun
      refine ⟨hsz, fun s => ?_⟩
      simp only [lookupTo]
      split_ifs with hs
      · subst hs; simp
      · simp only [Disk.write_sectors]
        rw [update_of_ne (Ne.symm hs), hs1]

theorem syncTo_ok (c : BlockCache) : ∀ (n : ℕ) (h : n ≤ cacheSize) (d : Disk),
    (∀ i : Fin cacheSize, i.val < n → (c.entries i).sector < d.size) →
    ∃ d', syncTo c n h d = .ok d'
  | 0, _, d, _ => ⟨d, rfl⟩
  | i + 1, h, d, hv => by
    obtain ⟨d', hd'⟩ := syncTo_ok c i (Nat.le_of_succ_le h) d
      (fun k hk => hv k (Nat.lt_succ_of_lt hk))
    have hvi : (c.entries ⟨i, h⟩).sector < d'.size := by
      rw [(syncTo_sectors c i _ d d' hd').1]; exact hv ⟨i, h⟩ (Nat.lt_succ_self i)
    simp only [syncTo, hd']
    exact ⟨_, blockWrite_ok hvi _⟩

/-- `cache_sync` brings the contents of every sector to the device and leaves the cache as
it is. -/
theorem view_cacheSync (he : cacheSync st = .ok st') :
    st'.cache = st.cache ∧ st'.disk.size = st.disk.size ∧ st'.disk.sectors = st.view ∧
      st'.view = st.view := by
  unfold cacheSync at he
  cases hd : syncTo st.cache st.cache.entryNum st.cache.entryNum_le st.disk with
  | error f => rw [hd] at he; cases he
  | ok d =>
    rw [hd] at he
    cases he
    obtain ⟨hsz, hs⟩ := syncTo_sectors _ _ _ _ _ hd
    have hdisk : d.sectors = st.view := funext hs
    refine ⟨rfl, hsz, hdisk, funext fun s => ?_⟩
    unfold CacheState.view
    cases hl : st.cache.lookup s with
    | none =>
      rw [hdisk]
      exact CacheState.view_of_none hl
    | some j => rfl

/-- **`cache_sync`** from a coherent state does not fault. -/
theorem coherent_cacheSync (h : Coherent st) :
    ∃ st', cacheSync st = .ok st' ∧ Coherent st' ∧ st'.disk.size = st.disk.size ∧
      st'.view = st.view ∧ st'.disk.sectors = st.view := by
  obtain ⟨d', hd'⟩ := syncTo_ok st.cache st.cache.entryNum st.cache.entryNum_le st.disk
    (fun i hi => h.valid i hi)
  have he : cacheSync st = .ok { st with disk := d' } := by simp only [cacheSync, hd']; rfl
  obtain ⟨-, hsz, hdisk, hview⟩ := view_cacheSync he
  refine ⟨_, he, ⟨h.dirty, fun i hi => ?_, h.twin⟩, hsz, hview, hdisk⟩
  rw [hsz]
  exact h.valid i hi

/-! ### Clients of the cache -/

/-- The calls a client makes. -/
inductive CacheCall
  | read (sector : Sector)
  | write (sector : Sector) (data : Block)
  | sync

/-- The call names a sector of a device of `size` sectors. -/
def CacheCall.Valid (size : UInt32) : CacheCall → Prop
  | .read s => s < size
  | .write s _ => s < size
  | .sync => True

abbrev callSig : Sig where
  Op := CacheCall
  Res
    | .read _ => Block
    | .write _ _ => Unit
    | .sync => Unit

/-- The calls on the cache. -/
def cacheHandler : Handler callSig CacheState Fault
  | .read s, st => (cacheRead s st).map (fun r => (r.1.1, r.2))
  | .write s b, st => (cacheWrite s b st).map (fun st' => ((), st'))
  | .sync, st => (cacheSync st).map (fun st' => ((), st'))

/-- The calls on a plain array of sectors. -/
def arrayHandler : Handler callSig Disk Fault
  | .read s, d => (blockRead d s).map (fun b => (b, d))
  | .write s b, d => (blockWrite d s b).map (fun d' => ((), d'))
  | .sync, d => .ok ((), d)

/-- The cache and its device hold what the array `d` holds. -/
structure Represents (st : CacheState) (d : Disk) : Prop where
  coherent : Coherent st
  size : st.disk.size = d.size
  view : st.view = d.sectors

theorem represents_init (c : BlockCache) (d : Disk) : Represents ⟨c.init, d⟩ d :=
  ⟨coherent_init c d, rfl, view_init c d⟩

/-- **The cache refines the array of sectors**, call by call. -/
theorem cache_simulates : Simulates cacheHandler arrayHandler Represents := by
  intro e st d r d' hR he
  cases e with
  | read s =>
    by_cases hs : s < d.size
    · rw [arrayHandler, blockRead_ok hs] at he
      cases he
      obtain ⟨found, st', hr, hc, hsz, hv⟩ := coherent_cacheRead hR.coherent (hR.size ▸ hs)
      refine ⟨st', ?_, hc, hsz.trans hR.size, hv.trans hR.view⟩
      rw [cacheHandler, hr, ← hR.view]
      rfl
    · rw [arrayHandler, blockRead_error (UInt32.not_lt.mp hs)] at he
      cases he
  | write s b =>
    by_cases hs : s < d.size
    · rw [arrayHandler, blockWrite_ok hs] at he
      cases he
      obtain ⟨st', hw, hc, hsz, hv⟩ := coherent_cacheWrite hR.coherent (hR.size ▸ hs) b
      refine ⟨st', ?_, hc, hsz.trans hR.size, ?_⟩
      · rw [cacheHandler, hw]; rfl
      · rw [hv, hR.view]; rfl
    · rw [arrayHandler, blockWrite, if_neg hs] at he
      cases he
  | sync =>
    cases he
    obtain ⟨st', hw, hc, hsz, hv, -⟩ := coherent_cacheSync hR.coherent
    refine ⟨st', ?_, hc, hsz.trans hR.size, hv.trans hR.view⟩
    rw [cacheHandler, hw]; rfl

/-- The client that issues `calls` one after another and collects what the reads deliver. -/
def script : List CacheCall → Prog callSig (List Block)
  | [] => pure []
  | .read s :: calls => do
    let b ← Prog.call (S := callSig) (.read s)
    let bs ← script calls
    pure (b :: bs)
  | .write s b :: calls => do
    let _ ← Prog.call (S := callSig) (.write s b)
    script calls
  | .sync :: calls => do
    let _ ← Prog.call (S := callSig) .sync
    script calls

/-- What every sector should hold after `calls`: the block of the last write to it, or what
the device held at the start. -/
def lastWritten (initial : Sector → Block) (calls : List CacheCall) : Sector → Block :=
  calls.foldl (fun held call => match call with
    | .write s b => update held s b
    | _ => held) initial

theorem run_array_script : ∀ (calls : List CacheCall) (d : Disk),
    (∀ call ∈ calls, call.Valid d.size) →
    ∃ out, run arrayHandler (script calls) d =
      .ok (out, { d with sectors := lastWritten d.sectors calls })
  | [], d, _ => ⟨[], rfl⟩
  | .read s :: calls, d, hv => by
    obtain ⟨out, ih⟩ := run_array_script calls d (fun c hc => hv c (List.mem_cons_of_mem _ hc))
    have hs : s < d.size := hv _ List.mem_cons_self
    refine ⟨d.sectors s :: out, ?_⟩
    rw [script, run_bind, run_call, arrayHandler, blockRead_ok hs]
    simp only [Except.map, run_bind, ih]
    rfl
  | .write s b :: calls, d, hv => by
    have hs : s < d.size := hv _ List.mem_cons_self
    obtain ⟨out, ih⟩ := run_array_script calls (d.write s b)
      (fun c hc => hv c (List.mem_cons_of_mem _ hc))
    refine ⟨out, ?_⟩
    rw [script, run_bind, run_call, arrayHandler, blockWrite_ok hs]
    simp only [Except.map, ih]
    rfl
  | .sync :: calls, d, hv => by
    obtain ⟨out, ih⟩ := run_array_script calls d (fun c hc => hv c (List.mem_cons_of_mem _ hc))
    refine ⟨out, ?_⟩
    rw [script, run_bind, run_call, arrayHandler]
    simp only [ih]
    rfl

theorem run_script {d : Disk} (hR : Represents st d) (calls : List CacheCall)
    (hv : ∀ call ∈ calls, call.Valid d.size) :
    ∃ out st', run arrayHandler (script calls) d =
        .ok (out, { d with sectors := lastWritten d.sectors calls }) ∧
      run cacheHandler (script calls) st = .ok (out, st') ∧
      Represents st' { d with sectors := lastWritten d.sectors calls } := by
  obtain ⟨out, hrun⟩ := run_array_script calls d hv
  obtain ⟨st', hrun', hR'⟩ := run_simulation cache_simulates (script calls) hR hrun
  exact ⟨out, st', hrun, hrun', hR'⟩

/-- **Coherence**: after any sequence of calls from `cache_init`, `cache_read` delivers the
block last written to the sector, or what the device held at the start. -/
theorem cacheRead_delivers_lastWritten (c : BlockCache) (d : Disk) (calls : List CacheCall)
    (s : Sector) (hcalls : ∀ call ∈ calls, call.Valid d.size) (hs : s < d.size) :
    ∃ out st found st', run cacheHandler (script calls) ⟨c.init, d⟩ = .ok (out, st) ∧
      cacheRead s st = .ok ((lastWritten d.sectors calls s, found), st') := by
  obtain ⟨out, st, -, hrun, hR⟩ := run_script (represents_init c d) calls hcalls
  obtain ⟨found, st', hr, -⟩ := coherent_cacheRead hR.coherent (hR.size ▸ hs)
  rw [hR.view] at hr
  exact ⟨out, st, found, st', hrun, hr⟩

/-- A block that is written and synced is read back. -/
theorem cacheRead_delivers_lastWritten_synced :
    ∃ out st found st', run cacheHandler (script [.write 0 (fun _ => 7), .sync])
        ⟨BlockCache.zeroed.init, ⟨2, fun _ _ => 0⟩⟩ = .ok (out, st) ∧
      cacheRead 0 st = .ok ((fun _ => 7, found), st') := by
  have := cacheRead_delivers_lastWritten BlockCache.zeroed ⟨2, fun _ _ => 0⟩
    [.write 0 (fun _ => 7), .sync] 0 (by simp [CacheCall.Valid]) (by decide)
  simpa [lastWritten] using this

/-- **Durability**: after any sequence of calls from `cache_init` and one more `cache_sync`
the device holds every sector as last written, and later calls deliver what they would have
delivered without that `cache_sync`. -/
theorem cacheSync_durable (c : BlockCache) (d : Disk) (calls : List CacheCall)
    (hcalls : ∀ call ∈ calls, call.Valid d.size) :
    ∃ out st st', run cacheHandler (script calls) ⟨c.init, d⟩ = .ok (out, st) ∧
      cacheSync st = .ok st' ∧
      (∀ s, st'.disk.sectors s = lastWritten d.sectors calls s) ∧
      ∀ later : List CacheCall, (∀ call ∈ later, call.Valid d.size) →
        ∃ delivered st₁ st₂, run cacheHandler (script later) st = .ok (delivered, st₁) ∧
          run cacheHandler (script later) st' = .ok (delivered, st₂) := by
  obtain ⟨out, st, -, hrun, hR⟩ := run_script (represents_init c d) calls hcalls
  obtain ⟨st', hsync, hc, hsz, hv, hdisk⟩ := coherent_cacheSync hR.coherent
  refine ⟨out, st, st', hrun, hsync, fun s => by rw [hdisk, hR.view], fun later hlater => ?_⟩
  have hR' : Represents st' _ := ⟨hc, hsz.trans hR.size, hv.trans hR.view⟩
  obtain ⟨delivered, st₁, harr, hrun1, -⟩ := run_script hR later hlater
  obtain ⟨st₂, hrun2, -⟩ := run_simulation cache_simulates (script later) hR' harr
  exact ⟨delivered, st₁, st₂, hrun1, hrun2⟩

/-- One block written and never evicted is on the device after the sync. -/
theorem cacheSync_durable_one :
    ∃ out st st', run cacheHandler (script [.write 0 (fun _ => 7)])
        ⟨BlockCache.zeroed.init, ⟨2, fun _ _ => 0⟩⟩ = .ok (out, st) ∧
      cacheSync st = .ok st' ∧ st'.disk.sectors 0 = fun _ => 7 := by
  obtain ⟨out, st, st', hrun, hsync, hdisk, -⟩ := cacheSync_durable BlockCache.zeroed
    ⟨2, fun _ _ => 0⟩ [.write 0 (fun _ => 7)] (by simp [CacheCall.Valid])
  exact ⟨out, st, st', hrun, hsync, by rw [hdisk]; simp [lastWritten]⟩

end Pintos

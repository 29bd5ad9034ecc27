import Pintos.CacheCoherence

/-! # When the cache holds every sector once

The table is meant to hold each sector once and to evict only when it is full.  The code
keeps to this exactly as long as the calls name at most 31 sectors: the call that brings in
the 32nd takes the last free entry, tests `entry_num` again, and goes on to evict, so that
its sector is held twice and another sector is lost although there was room for it
(`uniqueAlong_iff`). -/

namespace Pintos

variable {c c' : BlockCache} {s : Sector} {st st' : CacheState} {b : Block} {calls : List CacheCall}
  {call : CacheCall} {r : callSig.Res call}

open BlockCache Interaction List

/-- No two entries in use hold the same sector. -/
def EntriesDistinct (c : BlockCache) : Prop :=
  ∀ i j, c.Live i → c.Live j → (c.entries i).sector = (c.entries j).sector → i = j

/-- The sectors held by the entries in use. -/
def heldSectors (c : BlockCache) : Finset Sector :=
  (Finset.univ.filter c.Live).image (fun i => (c.entries i).sector)

/-- Every sector held before is still held, if there was a free entry. -/
def KeepsWhileRoom (c c' : BlockCache) : Prop :=
  c.entryNum < cacheSize → heldSectors c ⊆ heldSectors c'

theorem mem_heldSectors : s ∈ heldSectors c ↔ ∃ i, c.Live i ∧ (c.entries i).sector = s := by
  simp [heldSectors]

theorem mem_heldSectors_iff_lookup : s ∈ heldSectors c ↔ c.lookup s ≠ none := by
  rw [mem_heldSectors, Ne, lookup_eq_none_iff]
  push Not
  rfl

theorem card_live (c : BlockCache) : (Finset.univ.filter c.Live).card = c.entryNum := by
  change (Finset.univ.filter (fun i : Fin cacheSize => i.val < c.entryNum)).card = _
  rw [Fin.card_filter_val_lt]
  exact min_eq_right c.entryNum_le

theorem EntriesDistinct.card (h : EntriesDistinct c) : (heldSectors c).card = c.entryNum := by
  rw [heldSectors, Finset.card_image_of_injOn, card_live]
  intro i hi j hj hs
  simp only [Finset.coe_filter, Finset.mem_univ, true_and, Set.mem_ofPred_eq] at hi hj
  exact h i j hi hj hs

/-! ### What a call does to the sectors held -/

/-- The same entries in use, holding the same sectors. -/
structure SameSectors (c c' : BlockCache) : Prop where
  entryNum : c'.entryNum = c.entryNum
  sector : ∀ i, (c'.entries i).sector = (c.entries i).sector

theorem BlockCache.Aged.sameSectors (h : Aged c c') : SameSectors c c' :=
  ⟨h.entryNum, h.sector⟩

theorem SameSectors.trans {c'' : BlockCache} (h : SameSectors c c') (h' : SameSectors c' c'') :
    SameSectors c c'' :=
  ⟨h'.entryNum.trans h.entryNum, fun i => (h'.sector i).trans (h.sector i)⟩

theorem SameSectors.live (h : SameSectors c c') (i : Fin cacheSize) : c'.Live i ↔ c.Live i := by
  unfold Live; rw [h.entryNum]

theorem SameSectors.distinct (h : SameSectors c c') (hd : EntriesDistinct c) :
    EntriesDistinct c' := by
  intro i j hi hj hs
  rw [h.sector, h.sector] at hs
  exact hd i j ((h.live i).mp hi) ((h.live j).mp hj) hs

theorem SameSectors.held (h : SameSectors c c') : heldSectors c' = heldSectors c := by
  ext s
  simp only [mem_heldSectors, h.live, h.sector]

/-- One more entry in use, holding `s`; the others hold what they held. -/
structure Filled (c c' : BlockCache) (s : Sector) : Prop where
  entryNum : c'.entryNum = c.entryNum + 1
  new : ∀ i : Fin cacheSize, i.val = c.entryNum → (c'.entries i).sector = s
  old : ∀ i, c.Live i → (c'.entries i).sector = (c.entries i).sector

theorem Filled.live (h : Filled c c' s) (i : Fin cacheSize) :
    c'.Live i ↔ c.Live i ∨ i.val = c.entryNum := by
  unfold Live; rw [h.entryNum]; exact Nat.lt_succ_iff_lt_or_eq

theorem Filled.distinct (h : Filled c c' s) (hd : EntriesDistinct c) (hs : s ∉ heldSectors c) :
    EntriesDistinct c' := by
  have hnew : ∀ i, c.Live i → (c'.entries i).sector ≠ s := fun i hi he =>
    hs (mem_heldSectors.mpr ⟨i, hi, (h.old i hi).symm.trans he⟩)
  intro i j hi hj he
  rcases (h.live i).mp hi with hi | hi
  · rcases (h.live j).mp hj with hj | hj
    · rw [h.old i hi, h.old j hj] at he
      exact hd i j hi hj he
    · rw [h.new j hj] at he
      exact absurd he (hnew i hi)
  · rcases (h.live j).mp hj with hj | hj
    · rw [h.new i hi] at he
      exact absurd he.symm (hnew j hj)
    · exact Fin.ext (hi.trans hj.symm)

theorem Filled.held (h : Filled c c' s) (hn : c.entryNum < cacheSize) :
    heldSectors c' = insert s (heldSectors c) := by
  ext t
  simp only [mem_heldSectors, Finset.mem_insert, h.live]
  constructor
  · rintro ⟨i, hi | hi, rfl⟩
    · exact .inr ⟨i, hi, (h.old i hi).symm⟩
    · exact .inl (h.new i hi)
  · rintro (rfl | ⟨i, hi, rfl⟩)
    · exact ⟨⟨c.entryNum, hn⟩, .inr rfl, h.new _ rfl⟩
    · exact ⟨i, .inl hi, h.old i hi⟩

/-- The sector a call names. -/
def CacheCall.sector? : CacheCall → Option Sector
  | .read s => some s
  | .write s _ => some s
  | .sync => none

theorem storeHit_sameSectors {j : Fin cacheSize} (hj : st.cache.lookup s = some j) (b : Block) :
    SameSectors st.cache (storeHit j s b st).cache := by
  refine ⟨rfl, fun i => ?_⟩
  by_cases hi : i = j
  · subst hi; simp [storeHit, CacheEntry.stored, (lookup_eq_some_iff.mp hj).2.1]
  · simp [storeHit, setEntry_ne _ _ hi]

theorem fill_filled (h : st.cache.entryNum < cacheSize) (s : Sector) (b : Block) :
    Filled st.cache (fill s b st).cache s := by
  refine ⟨fill_entryNum h s b, fun i hi => ?_, fun i hi => by rw [fill_old hi]⟩
  obtain rfl : i = ⟨st.cache.entryNum, h⟩ := Fin.ext hi
  rw [fill_new h]; rfl

/-- `cache_write` of a sector that is held moves no sector. -/
theorem cacheWrite_held (hs : s ∈ heldSectors st.cache) (he : cacheWrite s b st = .ok st') :
    SameSectors st.cache st'.cache := by
  obtain ⟨j, hj⟩ := Option.ne_none_iff_exists'.mp (mem_heldSectors_iff_lookup.mp hs)
  rw [cacheWrite_hit hj] at he
  cases he
  have haged := writeScan_aged s st
  exact haged.sameSectors.trans (storeHit_sameSectors ((haged.lookup s).trans hj) b)

/-- `cache_write` of a new sector with at least two free entries takes one. -/
theorem cacheWrite_room (hs : s ∉ heldSectors st.cache) (hn : st.cache.entryNum + 1 < cacheSize)
    (he : cacheWrite s b st = .ok st') : Filled st.cache st'.cache s := by
  rw [mem_heldSectors_iff_lookup, not_not] at hs
  have haged := writeScan_aged s st
  have hn1 : (writeScan s st).2.cache.entryNum < cacheSize := by rw [haged.entryNum]; omega
  rw [cacheWrite_miss hs, if_pos (by rw [fill_entryNum hn1, haged.entryNum]; exact hn)] at he
  cases he
  have hf := fill_filled hn1 s b
  refine ⟨by rw [hf.entryNum, haged.entryNum], fun i hi => hf.new i (by rw [haged.entryNum, hi]), ?_⟩
  intro i hi
  rw [hf.old i ((haged.live i).mpr hi), haged.sector]

/-- `cache_write` of a new sector with one free entry leaves the sector in two entries. -/
theorem cacheWrite_last (hs : s ∉ heldSectors st.cache) (hn : st.cache.entryNum + 1 = cacheSize)
    (he : cacheWrite s b st = .ok st') : ¬ EntriesDistinct st'.cache := by
  rw [mem_heldSectors_iff_lookup, not_not] at hs
  have haged := writeScan_aged s st
  have hnum : (writeScan s st).2.cache.entryNum + 1 = cacheSize := by rw [haged.entryNum]; exact hn
  have hn1 : (writeScan s st).2.cache.entryNum < cacheSize := by omega
  have hfull : (fill s b (writeScan s st).2).cache.entryNum = cacheSize := by
    rw [fill_entryNum hn1]; exact hnum
  rw [cacheWrite_miss hs, if_neg (by rw [hfull]; exact lt_irrefl _)] at he
  have hc := (evict_full hfull he).1
  -- the entry just filled and the entry replaced
  set k : Fin cacheSize := ⟨(writeScan s st).2.cache.entryNum, hn1⟩ with hk
  have hm : (writeScan s st).1.2 ≠ k := by
    intro heq
    rcases writeScan_maxIndex s st with hlt | h0
    · rw [heq, ← haged.entryNum] at hlt
      exact lt_irrefl _ hlt
    · have : k.val = 0 := by rw [← heq, h0]; rfl
      have : (writeScan s st).2.cache.entryNum = 0 := this
      have : (writeScan s st).2.cache.entryNum + 1 = 32 := hnum
      omega
  have live : ∀ i, st'.cache.Live i := fun i => by
    unfold Live; rw [hc, setEntry_entryNum, hfull]; exact i.isLt
  intro hd
  refine hm (hd _ _ (live _) (live k) ?_)
  rw [hc, setEntry_same, setEntry_ne _ _ hm.symm, hk, fill_new hn1]

theorem cacheRead_unheld (hs : s ∉ heldSectors st.cache)
    (he : cacheHandler (.read s) st = .ok (b, st')) :
    cacheWrite s b (undoScan (readScan s st).2) = .ok st' := by
  rw [mem_heldSectors_iff_lookup, not_not] at hs
  by_cases hv : s < st.disk.size
  · rw [cacheHandler, cacheRead_miss hs hv] at he
    cases hw : cacheWrite s (st.disk.sectors s) (undoScan (readScan s st).2) with
    | error f => rw [hw] at he; cases he
    | ok st2 =>
      rw [hw] at he
      cases he
      exact hw
  · have hf := readScan_found s st
    rw [hs] at hf
    have hb : blockRead (undoScan (readScan s st).2).disk s = _ :=
      blockRead_error (UInt32.not_lt.mp hv)
    simp only [cacheHandler, cacheRead, hf, Option.map_none, hb] at he
    cases he

/-- A call on a sector that is held moves no sector; any other call comes down to a
`cache_write`, after a change of ages. -/
theorem call_cases (hs : call.sector? = some s) (he : cacheHandler call st = .ok (r, st')) :
    (s ∈ heldSectors st.cache ∧ SameSectors st.cache st'.cache) ∨
    (s ∉ heldSectors st.cache ∧
      ∃ b st1, Aged st.cache st1.cache ∧ cacheWrite s b st1 = .ok st') := by
  cases call with
  | sync => cases hs
  | read t =>
    obtain rfl : t = s := Option.some.inj hs
    by_cases ht : t ∈ heldSectors st.cache
    · obtain ⟨j, hj⟩ := Option.ne_none_iff_exists'.mp (mem_heldSectors_iff_lookup.mp ht)
      rw [cacheHandler, cacheRead_hit hj] at he
      cases he
      exact .inl ⟨ht, (readScan_aged t st).sameSectors⟩
    · exact .inr ⟨ht, r, _, (readScan_aged t st).trans (undoScan_aged _),
        cacheRead_unheld ht he⟩
  | write t b =>
    obtain rfl : t = s := Option.some.inj hs
    have hw : cacheWrite t b st = .ok st' := by
      rw [cacheHandler] at he
      cases hw : cacheWrite t b st with
      | error f => rw [hw] at he; cases he
      | ok st1 => rw [hw] at he; cases he; rfl
    by_cases ht : t ∈ heldSectors st.cache
    · exact .inl ⟨ht, cacheWrite_held ht hw⟩
    · exact .inr ⟨ht, b, st, Aged.refl _, hw⟩

theorem call_sync (hs : call.sector? = none) (he : cacheHandler call st = .ok (r, st')) :
    st'.cache = st.cache := by
  cases call with
  | read t | write t b => cases hs
  | sync =>
    rw [cacheHandler] at he
    cases hd : cacheSync st with
    | error f => rw [hd] at he; cases he
    | ok st1 => rw [hd] at he; cases he; exact (view_cacheSync hd).1

theorem call_room (hs : call.sector? = some s) (he : cacheHandler call st = .ok (r, st'))
    (hnew : s ∉ heldSectors st.cache) (hn : st.cache.entryNum + 1 < cacheSize) :
    Filled st.cache st'.cache s := by
  rcases call_cases hs he with ⟨hheld, -⟩ | ⟨-, b, st1, haged, hw⟩
  · exact absurd hheld hnew
  · have hf := cacheWrite_room (by rw [haged.sameSectors.held]; exact hnew)
      (by rw [haged.entryNum]; exact hn) hw
    refine ⟨by rw [hf.entryNum, haged.entryNum], fun i hi => hf.new i (by rw [haged.entryNum, hi]),
      fun i hi => ?_⟩
    rw [hf.old i ((haged.live i).mpr hi), haged.sector]

theorem call_last (hs : call.sector? = some s) (he : cacheHandler call st = .ok (r, st'))
    (hnew : s ∉ heldSectors st.cache) (hn : st.cache.entryNum + 1 = cacheSize) :
    ¬ EntriesDistinct st'.cache := by
  rcases call_cases hs he with ⟨hheld, -⟩ | ⟨-, b, st1, haged, hw⟩
  · exact absurd hheld hnew
  · exact cacheWrite_last (by rw [haged.sameSectors.held]; exact hnew)
      (by rw [haged.entryNum]; exact hn) hw

/-! ### Runs -/

/-- The blocks a call delivers. -/
def CacheCall.delivered : (call : CacheCall) → callSig.Res call → List Block
  | .read _, b => [b]
  | .write _ _, _ => []
  | .sync, _ => []

theorem run_script_cons (h : Handler callSig CacheState Fault) (call : CacheCall)
    (calls : List CacheCall) (st : CacheState) :
    run h (script (call :: calls)) st =
      match h call st with
      | .error f => .error f
      | .ok (r, st') =>
        (run h (script calls) st').map (fun q => (call.delivered r ++ q.1, q.2)) := by
  cases call with
  | read s =>
    rw [script, run_bind, run_call]
    cases h (.read s) st with
    | error f => rfl
    | ok r =>
      simp only [run_bind]
      cases run h (script calls) r.2 <;> rfl
  | write s b =>
    rw [script, run_bind, run_call]
    cases h (.write s b) st with
    | error f => rfl
    | ok r =>
      simp only []
      cases run h (script calls) r.2 <;> rfl
  | sync =>
    rw [script, run_bind, run_call]
    cases h .sync st with
    | error f => rfl
    | ok r =>
      simp only []
      cases run h (script calls) r.2 <;> rfl

theorem run_script_snoc (h : Handler callSig CacheState Fault) (call : CacheCall) :
    ∀ (calls : List CacheCall) (st st' : CacheState) (out : List Block),
      run h (script (calls ++ [call])) st = .ok (out, st') →
      ∃ out0 st0 r, run h (script calls) st = .ok (out0, st0) ∧ h call st0 = .ok (r, st')
  | [], st, st', out, hr => by
    rw [nil_append, run_script_cons] at hr
    cases he : h call st with
    | error f => rw [he] at hr; cases hr
    | ok r => rw [he] at hr; cases hr; exact ⟨[], st, r.1, rfl, he⟩
  | c :: calls, st, st', out, hr => by
    rw [cons_append, run_script_cons] at hr
    rw [run_script_cons]
    cases he : h c st with
    | error f => rw [he] at hr; cases hr
    | ok r =>
      rw [he] at hr
      cases hq : run h (script (calls ++ [call])) r.2 with
      | error f => simp only [hq] at hr; cases hr
      | ok q =>
        simp only [hq] at hr
        cases hr
        obtain ⟨out0, st0, r', h0, hc⟩ := run_script_snoc h call calls r.2 q.2 q.1 hq
        exact ⟨c.delivered r.1 ++ out0, st0, r', by simp only [h0]; rfl, hc⟩

/-- `st` is the state after `calls` from `cache_init`. -/
def Reaches (c : BlockCache) (d : Disk) (calls : List CacheCall) (st : CacheState) : Prop :=
  ∃ out, run cacheHandler (script calls) ⟨c.init, d⟩ = .ok (out, st)

theorem reaches_nil {d : Disk} : Reaches c d [] st ↔ st = ⟨c.init, d⟩ := by
  constructor
  · rintro ⟨out, h⟩
    cases h
    rfl
  · rintro rfl
    exact ⟨[], rfl⟩

theorem Reaches.snoc {d : Disk} (h : Reaches c d (calls ++ [call]) st') :
    ∃ st r, Reaches c d calls st ∧ cacheHandler call st = .ok (r, st') := by
  obtain ⟨out, h⟩ := h
  obtain ⟨out0, st, r, h0, he⟩ := run_script_snoc cacheHandler call calls _ _ _ h
  exact ⟨st, r, ⟨out0, h0⟩, he⟩

theorem exists_reaches (c : BlockCache) (d : Disk) (calls : List CacheCall)
    (hv : ∀ call ∈ calls, call.Valid d.size) : ∃ st, Reaches c d calls st := by
  obtain ⟨out, st, -, hrun, -⟩ := run_script (represents_init c d) calls hv
  exact ⟨st, out, hrun⟩

/-- The sectors named by a sequence of calls. -/
def touched (calls : List CacheCall) : Finset Sector :=
  (calls.filterMap CacheCall.sector?).toFinset

theorem touched_append_none (h : call.sector? = none) :
    touched (calls ++ [call]) = touched calls := by
  simp [touched, filterMap_append, h]

theorem touched_append_some (h : call.sector? = some s) :
    touched (calls ++ [call]) = insert s (touched calls) := by
  ext t
  simp [touched, filterMap_append, h]

theorem touched_subset (xs ys : List CacheCall) : touched xs ⊆ touched (xs ++ ys) := by
  intro s hs
  simp only [touched, filterMap_append, toFinset_append, Finset.mem_union]
  exact .inl hs

/-- One call on a cache that holds `T`, each sector once, and stays below 32 sectors. -/
theorem step_unique (hd : EntriesDistinct st.cache) (hT : heldSectors st.cache = touched calls)
    (hcard : (touched (calls ++ [call])).card ≤ 31) (he : cacheHandler call st = .ok (r, st')) :
    EntriesDistinct st'.cache ∧ heldSectors st'.cache = touched (calls ++ [call]) ∧
      heldSectors st.cache ⊆ heldSectors st'.cache := by
  cases hs : call.sector? with
  | none =>
    rw [call_sync hs he, touched_append_none hs]
    exact ⟨hd, hT, subset_rfl⟩
  | some s =>
    rw [touched_append_some hs] at hcard ⊢
    by_cases hheld : s ∈ heldSectors st.cache
    · rcases call_cases hs he with ⟨-, hsame⟩ | ⟨hn, -⟩
      · rw [Finset.insert_eq_of_mem (hT ▸ hheld), hsame.held]
        exact ⟨hsame.distinct hd, hT, subset_rfl⟩
      · exact absurd hheld hn
    · have hnum : st.cache.entryNum + 1 < cacheSize := by
        rw [Finset.card_insert_of_notMem (hT ▸ hheld), ← hT, hd.card] at hcard
        exact Nat.lt_succ_of_le hcard
      have hf := call_room hs he hheld hnum
      have hheld' := hf.held (Nat.lt_of_succ_lt hnum)
      refine ⟨hf.distinct hd hheld, by rw [hheld', hT], ?_⟩
      rw [hheld']
      exact Finset.subset_insert _ _

/-- As long as the calls name at most 31 sectors, the cache holds just these, once each. -/
theorem unique_of_touched {d : Disk} (calls : List CacheCall) (hcard : (touched calls).card ≤ 31)
    (h : Reaches c d calls st) :
    EntriesDistinct st.cache ∧ heldSectors st.cache = touched calls := by
  induction calls using List.reverseRecOn generalizing st with
  | nil =>
    rw [reaches_nil] at h
    subst h
    refine ⟨fun i _ hi => absurd hi (Nat.not_lt_zero _), ?_⟩
    ext s
    simp only [mem_heldSectors, touched, filterMap_nil, toFinset_nil,
      Finset.notMem_empty, iff_false]
    rintro ⟨i, hi, -⟩
    exact absurd hi (Nat.not_lt_zero _)
  | append_singleton calls call ih =>
    obtain ⟨st0, r, h0, he⟩ := h.snoc
    have hle := (Finset.card_le_card (touched_subset calls [call])).trans hcard
    obtain ⟨hd, hT⟩ := ih hle h0
    obtain ⟨hd', hT', -⟩ := step_unique hd hT hcard he
    exact ⟨hd', hT'⟩

theorem exists_call_32nd (calls : List CacheCall) (hcard : 31 < (touched calls).card) :
    ∃ pre call post s, calls = pre ++ call :: post ∧ call.sector? = some s ∧
      (touched pre).card = 31 ∧ s ∉ touched pre := by
  induction calls using List.reverseRecOn with
  | nil => simp [touched] at hcard
  | append_singleton calls call ih =>
    by_cases hlt : 31 < (touched calls).card
    · obtain ⟨pre, call', post, s, rfl, hs, hpre⟩ := ih hlt
      exact ⟨pre, call', post ++ [call], s, by simp, hs, hpre⟩
    · cases hs : call.sector? with
      | none => rw [touched_append_none hs] at hcard; exact absurd hcard hlt
      | some s =>
        rw [touched_append_some hs] at hcard
        by_cases hmem : s ∈ touched calls
        · rw [Finset.insert_eq_of_mem hmem] at hcard; exact absurd hcard hlt
        · rw [Finset.card_insert_of_notMem hmem] at hcard
          exact ⟨calls, call, [], s, by simp, hs, by omega, hmem⟩

/-- The property along a run: in every state reached no sector is held twice, so that a full
cache holds 32 sectors, and no call drops a sector while there is a free entry. -/
def UniqueAlong (c : BlockCache) (d : Disk) (calls : List CacheCall) : Prop :=
  (∀ pre post st, calls = pre ++ post → Reaches c d pre st →
    EntriesDistinct st.cache ∧
      (st.cache.entryNum = cacheSize → (heldSectors st.cache).card = cacheSize)) ∧
  (∀ pre call post st st', calls = pre ++ call :: post → Reaches c d pre st →
    Reaches c d (pre ++ [call]) st' → KeepsWhileRoom st.cache st'.cache)

/-- The call that names the 32nd sector leaves it in two entries. -/
theorem not_uniqueAlong (c : BlockCache) (d : Disk) (calls : List CacheCall)
    (hv : ∀ call ∈ calls, call.Valid d.size) (hcard : 31 < (touched calls).card) :
    ¬ UniqueAlong c d calls := by
  rintro ⟨hstate, -⟩
  obtain ⟨pre, call, post, s, rfl, hs, hpre, hnew⟩ := exists_call_32nd calls hcard
  obtain ⟨st', h'⟩ := exists_reaches c d (pre ++ [call]) fun call' hc => hv call' (by
    simp only [mem_append, mem_cons] at hc ⊢
    tauto)
  obtain ⟨st, r, h, he⟩ := h'.snoc
  obtain ⟨hd, hT⟩ := unique_of_touched pre hpre.le h
  have hnum : st.cache.entryNum + 1 = cacheSize := by rw [← hd.card, hT, hpre]
  exact call_last hs he (hT ▸ hnew) hnum (hstate (pre ++ [call]) post st' (by simp) h').1

/-- **Uniqueness holds along a run exactly if its calls name at most 31 sectors.** -/
theorem uniqueAlong_iff (c : BlockCache) (d : Disk) (calls : List CacheCall)
    (hv : ∀ call ∈ calls, call.Valid d.size) :
    UniqueAlong c d calls ↔ (touched calls).card ≤ 31 := by
  constructor
  · exact fun h => not_lt.mp fun hcard => not_uniqueAlong c d calls hv hcard h
  · intro hcard
    have hle : ∀ xs ys, calls = xs ++ ys → (touched xs).card ≤ 31 := by
      rintro xs ys rfl
      exact (Finset.card_le_card (touched_subset xs ys)).trans hcard
    refine ⟨fun pre post st heq h => ?_, fun pre call post st st' heq h h' _ => ?_⟩
    · obtain ⟨hd, -⟩ := unique_of_touched pre (hle pre post heq) h
      exact ⟨hd, fun hn => hd.card.trans hn⟩
    · obtain ⟨hd, hT⟩ := unique_of_touched pre (hle pre _ heq) h
      obtain ⟨st0, r, h0, he⟩ := h'.snoc
      have hst : st0 = st := by
        obtain ⟨o1, h1⟩ := h0
        obtain ⟨o2, h2⟩ := h
        rw [h1] at h2
        exact (Prod.mk.inj (Except.ok.inj h2)).2
      subst hst
      exact (step_unique hd hT (hle (pre ++ [call]) post (by simp [heq])) he).2.2

/-- One write leaves one entry. -/
theorem uniqueAlong_iff_single :
    UniqueAlong BlockCache.zeroed ⟨2, fun _ _ => 0⟩ [.write 0 (fun _ => 7)] ↔
      (touched [.write 0 (fun _ => 7)]).card ≤ 31 :=
  uniqueAlong_iff _ _ _ (by simp [CacheCall.Valid])

/-- Writing the sectors `0, …, 31` leaves sector 31 in two entries. -/
theorem not_uniqueAlong_32_writes :
    ¬ UniqueAlong BlockCache.zeroed ⟨64, fun _ _ => 0⟩
      ((List.range 32).map fun i => .write (UInt32.ofNat i) (fun _ => 0)) := by
  apply not_uniqueAlong
  · intro call hcall
    obtain ⟨i, hi, rfl⟩ := mem_map.mp hcall
    have hlt : i < 32 := mem_range.mp hi
    change UInt32.ofNat i < 64
    rw [UInt32.lt_iff_toNat_lt, UInt32.toNat_ofNat_of_lt' (hlt.trans (by decide))]
    exact hlt.trans (by decide)
  · decide

end Pintos

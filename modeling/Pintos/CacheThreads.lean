import Pintos.CacheCoherence

/-! # The buffer cache under interleaving

Threads call `cache_read`, `cache_write` and `cache_sync` on one cache.  A step of a thread
is one region between acquiring and releasing a lock, one `block_read`, or the unlocked test
of `entry_num`; the regions are those of `Cache.lean`, and `Pc` says which of them is next,
with the locals that are still needed.

* `exec_uninterrupted`: a call whose steps are not interleaved with others is the function of
  `Cache.lean`.
* The code drops its lock between the regions of a call, so an update can be lost: a
  `cache_read` that missed may store the block it took from the device over a newer one.
  `StepOk` says what a step relies on in the state before it; in every run whose steps
  meet it a completed `cache_write` is what later reads deliver (`delivers_of_stepsOk`), and a run that
  does not may deliver the old block (`not_delivers_reader_overwrites`). -/

namespace Pintos

open BlockCache Function List

/-! ### Threads -/

/-- Who called `cache_write`: a caller outside, or `cache_read` after a miss. -/
inductive Origin
  | caller
  | reader
deriving DecidableEq

/-- Where a thread is: outside the cache, with what its last call delivered, or before one
of the steps of a call. -/
inductive Pc
  | idle (delivered : Option Block)
  | readScan (s : Sector)
  | undoScan (s : Sector)
  | blockRead (s : Sector)
  | writeScan (o : Origin) (s : Sector) (b : Block)
  | storeHit (o : Origin) (replace : Fin cacheSize) (s : Sector) (b : Block)
  | fill (o : Origin) (maxIndex : Fin cacheSize) (s : Sector) (b : Block)
  | testFull (o : Origin) (maxIndex : Fin cacheSize) (s : Sector) (b : Block)
  | evict (o : Origin) (maxIndex : Fin cacheSize) (s : Sector) (b : Block)
  | sync

/-- The first step of a call. -/
def CacheCall.entry : CacheCall → Pc
  | .read s => .readScan s
  | .write s b => .writeScan .caller s b
  | .sync => .sync

/-- Where a thread is after `cache_write` returned; inside `cache_read`, that returns too. -/
def Origin.returned (o : Origin) (b : Block) : Pc :=
  match o with
  | .caller => .idle none
  | .reader => .idle (some b)

/-- One step of a thread; there is none when it is idle, or when the kernel panics. -/
def advance : Pc → CacheState → Option (Pc × CacheState)
  | .idle _, _ => none
  | .readScan s, st =>
    match (readScan s st).1 with
    | some b => some (.idle (some b), (readScan s st).2)
    | none => some (.undoScan s, (readScan s st).2)
  | .undoScan s, st => some (.blockRead s, undoScan st)
  | .blockRead s, st =>
    match blockRead st.disk s with
    | .ok b => some (.writeScan .reader s b, st)
    | .error _ => none
  | .writeScan o s b, st =>
    match (writeScan s st).1.1 with
    | some replace => some (.storeHit o replace s b, (writeScan s st).2)
    | none => some (.fill o (writeScan s st).1.2 s b, (writeScan s st).2)
  | .storeHit o replace s b, st => some (o.returned b, storeHit replace s b st)
  | .fill o maxIndex s b, st => some (.testFull o maxIndex s b, fill s b st)
  | .testFull o maxIndex s b, st =>
    if st.cache.entryNum < cacheSize then some (o.returned b, st)
    else some (.evict o maxIndex s b, st)
  | .evict o maxIndex s b, st =>
    match evict maxIndex s b st with
    | .ok st' => some (o.returned b, st')
    | .error _ => none
  | .sync, st =>
    match cacheSync st with
    | .ok st' => some (.idle none, st')
    | .error _ => none

/-- The threads and the cache they share. -/
structure Threads (ι : Type) where
  shared : CacheState
  pc : ι → Pc

/-- What happens next: a thread makes a call, or takes a step of the one it is in. -/
inductive Event (ι : Type)
  | call (i : ι) (c : CacheCall)
  | step (i : ι)

variable {ι : Type} [DecidableEq ι]

namespace Threads

/-- After `cache_init` no thread is in a call. -/
def start (c : BlockCache) (d : Disk) : Threads ι :=
  { shared := ⟨c.init, d⟩, pc := fun _ => .idle none }

def next (σ : Threads ι) : Event ι → Option (Threads ι)
  | .call i c =>
    match σ.pc i with
    | .idle _ => some { σ with pc := update σ.pc i c.entry }
    | _ => none
  | .step i =>
    match advance (σ.pc i) σ.shared with
    | some (p, st) => some { shared := st, pc := update σ.pc i p }
    | none => none

/-- An interleaving, as the list of its events. -/
def exec (σ : Threads ι) : List (Event ι) → Option (Threads ι)
  | [] => some σ
  | e :: evs =>
    match σ.next e with
    | some σ' => σ'.exec evs
    | none => none

end Threads

/-! ### Calls that are not interleaved -/

variable {p p' : Pc} {st st' : CacheState} {s : Sector} {b B : Block} {σ σ' : Threads ι} {i : ι}

section

attribute [local simp] Threads.exec Threads.next advance CacheCall.entry Origin.returned cacheHandler
  cacheRead replicate_succ bind Except.bind Except.map Except.toOption

variable (pc : ι → Pc) (i : ι) (st : CacheState)

/-- From the first region of `cache_write` on, a thread that is not interrupted runs
`cacheWrite`. -/
theorem exec_writeScan (s : Sector) (b : Block) (o : Origin) :
    ∃ n, Threads.exec ⟨st, update pc i (.writeScan o s b)⟩ (replicate n (.step i)) =
      (cacheWrite s b st).toOption.map fun st' => ⟨st', update pc i (o.returned b)⟩ := by
  unfold cacheWrite
  cases hf : (writeScan s st).1.1 with
  | some r => exact ⟨2, by simp [hf]⟩
  | none =>
    by_cases hn : (fill s b (writeScan s st).2).cache.entryNum < cacheSize
    · exact ⟨3, by simp [hf, hn]⟩
    · refine ⟨4, ?_⟩
      cases he : evict (writeScan s st).1.2 s b (fill s b (writeScan s st).2) <;>
        simp [hf, hn, he]

/-- Where a thread is after a call. -/
@[simp]
def CacheCall.returned : (c : CacheCall) → callSig.Res c → Pc
  | .read _, b => .idle (some b)
  | .write _ _, _ | .sync, _ => .idle none

/-- **A call that no other thread interrupts** is the function of `Cache.lean`, if that one does not
fault, wherever the other threads are. -/
theorem exec_uninterrupted (x : Option Block) (c : CacheCall) :
    ∃ n, Threads.exec ⟨st, update pc i (.idle x)⟩ (.call i c :: replicate n (.step i)) =
      (cacheHandler c st).toOption.map fun q => ⟨q.2, update pc i (c.returned q.1)⟩ := by
  cases c with
  | sync => exact ⟨1, by cases h : cacheSync st <;> simp [h]⟩
  | write s b =>
    obtain ⟨n, hn⟩ := exec_writeScan pc i st s b .caller
    exact ⟨n, by cases h : cacheWrite s b st <;> simp [h, hn]⟩
  | read s =>
    cases hf : (readScan s st).1 with
    | some b => exact ⟨1, by simp [hf]⟩
    | none =>
      cases hb : blockRead (undoScan (readScan s st).2).disk s with
      | error f => exact ⟨3, by simp [hf, hb]⟩
      | ok b =>
        obtain ⟨n, hn⟩ := exec_writeScan pc i (undoScan (readScan s st).2) s b .reader
        refine ⟨n + 3, ?_⟩
        cases hw : cacheWrite s b (undoScan (readScan s st).2) <;> simp [hf, hb, hw, hn]

end

/-! ### What a step relies on -/

/-- The `cache_write` a thread is in, with its origin and arguments. -/
def Pc.writing : Pc → Option (Origin × Sector × Block)
  | .writeScan o s b => some (o, s, b)
  | .storeHit o _ s b => some (o, s, b)
  | .fill o _ s b => some (o, s, b)
  | .testFull o _ s b => some (o, s, b)
  | .evict o _ s b => some (o, s, b)
  | _ => none

/-- What the next step of a thread stores in the cache. -/
def Pc.storing (st : CacheState) : Pc → Option (Origin × Sector × Block)
  | .storeHit o _ s b => some (o, s, b)
  | .fill o _ s b => if st.cache.entryNum < cacheSize then some (o, s, b) else none
  | .evict o _ s b => if st.cache.entryNum = cacheSize then some (o, s, b) else none
  | _ => none

/-- What the code takes for granted at a step, although it let go of the lock before:

* `block_read`: the device is up to date on the sector;
* the store after a hit: the entry still holds the sector;
* the eviction: no earlier entry holds the sector that is evicted;
* either store, called from outside: no later entry of the sector hides the one stored. -/
def Pc.Ok (st : CacheState) : Pc → Prop
  | .blockRead s => st.disk.sectors s = st.view s
  | .storeHit o r s b =>
    (st.cache.entries r).sector = s ∧ (o = .caller → NotHidden st.cache r s b)
  | .evict o m s b => st.cache.entryNum = cacheSize →
      ((st.cache.entries m).sector ≠ s → ∀ i, i < m → st.cache.Live i →
        (st.cache.entries i).sector ≠ (st.cache.entries m).sector) ∧
      (o = .caller → NotHidden st.cache m s b)
  | _ => True

/-- The state before a step is as the step relies on; and when it stores a block for a
caller outside, no `cache_read` of the same sector is past its `block_read` with another
block. -/
def Threads.StepOk (σ : Threads ι) : Event ι → Prop
  | .call _ _ => True
  | .step i => (σ.pc i).Ok σ.shared ∧
      ∀ s b, (σ.pc i).storing σ.shared = some (.caller, s, b) →
        ∀ j b', j ≠ i → (σ.pc j).writing = some (.reader, s, b') → b' = b

/-- Every step of the run is taken in a state it relies on. -/
def Threads.StepsOk (σ : Threads ι) : List (Event ι) → Prop
  | [] => True
  | e :: evs => σ.StepOk e ∧ ∀ σ', σ.next e = some σ' → σ'.StepsOk evs

/-! ### One step -/

/-- What holds between the steps: entries in use are dirty, a `cache_read` past its
`block_read` has the current contents of its sector, and a hit is at an entry in use. -/
structure Threads.Inv (σ : Threads ι) : Prop where
  dirty : ∀ k, σ.shared.cache.Live k → (σ.shared.cache.entries k).write = true
  reader : ∀ i s b, (σ.pc i).writing = some (.reader, s, b) → b = σ.shared.view s
  live : ∀ i o r s b, σ.pc i = .storeHit o r s b → σ.shared.cache.Live r

section

variable (h : advance p st = some (p', st'))
include h

/-- What a step can do to the cache: change the ages, sync, or store in one of three ways. -/
theorem advance_shared : (p.storing st = none ∧ Aged st.cache st'.cache ∧ st'.disk = st.disk) ∨
    (p.storing st = none ∧ cacheSync st = .ok st') ∨
    (∃ o r s b, p = .storeHit o r s b ∧ st' = storeHit r s b st) ∨
    (∃ o m s b, p = .fill o m s b ∧ st.cache.entryNum < cacheSize ∧ st' = fill s b st) ∨
    (∃ o m s b, p = .evict o m s b ∧ st.cache.entryNum = cacheSize ∧
      evict m s b st = .ok st') := by
  cases p with
  | idle x => cases h
  | readScan s =>
    simp only [advance] at h
    split at h <;> cases h <;> exact .inl ⟨rfl, readScan_aged s st, rfl⟩
  | undoScan s => cases h; exact .inl ⟨rfl, undoScan_aged st, rfl⟩
  | blockRead s =>
    simp only [advance] at h
    split at h <;> cases h
    exact .inl ⟨rfl, Aged.refl _, rfl⟩
  | writeScan o s b =>
    simp only [advance] at h
    split at h <;> cases h <;> exact .inl ⟨rfl, writeScan_aged s st, rfl⟩
  | storeHit o r s b => cases h; exact .inr (.inr (.inl ⟨o, r, s, b, rfl, rfl⟩))
  | fill o m s b =>
    cases h
    by_cases hn : st.cache.entryNum < cacheSize
    · exact .inr (.inr (.inr (.inl ⟨o, m, s, b, rfl, hn, rfl⟩)))
    · rw [fill_full hn]
      exact .inl ⟨if_neg hn, Aged.refl _, rfl⟩
  | testFull o m s b =>
    simp only [advance] at h
    split_ifs at h <;> cases h <;> exact .inl ⟨rfl, Aged.refl _, rfl⟩
  | evict o m s b =>
    simp only [advance] at h
    split at h
    · rename_i st1 he
      cases h
      by_cases hn : st.cache.entryNum = cacheSize
      · exact .inr (.inr (.inr (.inr ⟨o, m, s, b, rfl, hn, he⟩)))
      · rw [evict, if_neg hn] at he
        cases he
        exact .inl ⟨if_neg hn, Aged.refl _, rfl⟩
    · cases h
  | sync =>
    simp only [advance] at h
    split at h
    · rename_i st1 he
      cases h
      exact .inr (.inl ⟨rfl, he⟩)
    · cases h

theorem advance_entryNum : st.cache.entryNum ≤ st'.cache.entryNum := by
  rcases advance_shared h with ⟨-, haged, -⟩ | ⟨-, hs⟩ | ⟨o, r, s, b, -, rfl⟩ |
    ⟨o, m, s, b, -, hn, rfl⟩ | ⟨o, m, s, b, -, hn, he⟩
  · exact haged.entryNum.ge
  · rw [(view_cacheSync hs).1]
  · exact le_rfl
  · rw [fill_entryNum hn]; exact Nat.le_succ _
  · rw [(evict_full hn he).1, setEntry_entryNum]

theorem advance_dirty (hd : ∀ k, st.cache.Live k → (st.cache.entries k).write = true) :
    ∀ k, st'.cache.Live k → (st'.cache.entries k).write = true := by
  have hset : ∀ m s b k, st.cache.Live k →
      ((st.cache.setEntry m (.stored s b)).entries k).write = true := by
    intro m s b k hk
    by_cases hkm : k = m
    · subst hkm; simp [CacheEntry.stored]
    · rw [setEntry_ne _ _ hkm]; exact hd k hk
  rcases advance_shared h with ⟨-, haged, -⟩ | ⟨-, hs⟩ | ⟨o, r, s, b, -, rfl⟩ |
    ⟨o, m, s, b, -, hn, rfl⟩ | ⟨o, m, s, b, -, hn, he⟩
  · intro k hk
    rw [haged.write]
    exact hd k ((haged.live k).mp hk)
  · rw [(view_cacheSync hs).1]; exact hd
  · exact fun k hk => hset r s b k hk
  · intro k hk
    rcases (fill_live hn).mp hk with hk | rfl
    · rw [fill_old hk]; exact hd k hk
    · rw [fill_new hn]; rfl
  · rw [(evict_full hn he).1]
    exact fun k hk => hset m s b k hk

/-- **Effect of a step on the contents**: in a state it relies on, a step that stores `b` for
sector `s` makes `b` its contents, and no step changes anything else. -/
theorem advance_view (hok : p.Ok st) (hd : ∀ k, st.cache.Live k → (st.cache.entries k).write = true)
    (hreader : ∀ s b, p.writing = some (.reader, s, b) → b = st.view s)
    (hlive : ∀ o r s b, p = .storeHit o r s b → st.cache.Live r) :
    st'.view = match p.storing st with
      | some (_, s, b) => update st.view s b
      | none => st.view := by
  -- a reader stores what the last copy holds, so nothing hides it either
  have hhidden : ∀ o m s b, p.writing = some (o, s, b) →
      (o = .caller → NotHidden st.cache m s b) → NotHidden st.cache m s b := by
    intro o m s b hp hcaller
    cases o with
    | caller => exact hcaller rfl
    | reader =>
      intro j _ hj
      rw [hreader s b hp, CacheState.view_of_some hj]
  rcases advance_shared h with ⟨hn, haged, hdisk⟩ | ⟨hn, hs⟩ | ⟨o, r, s, b, rfl, rfl⟩ |
    ⟨o, m, s, b, rfl, hn, rfl⟩ | ⟨o, m, s, b, rfl, hn, he⟩
  · rw [hn]; exact haged.view hdisk
  · rw [hn]; exact (view_cacheSync hs).2.2.2
  · exact view_storeHit (hlive o r s b rfl) hok.1 (hhidden o r s b rfl hok.2)
  · simp only [Pc.storing, if_pos hn]
    exact view_fill hn s b
  · simp only [Pc.storing, if_pos hn]
    obtain ⟨hc, hdisk⟩ := evict_full hn he
    have hm : st.cache.Live m := by unfold Live; rw [hn]; exact m.isLt
    exact view_evict hm hc (hdisk (hd m hm)) (hok hn).1 (hhidden o m s b rfl (hok hn).2)

/-- A step that is in `cache_write` was so before, or has just read the device. -/
theorem advance_writing {o : Origin} (hw : p'.writing = some (o, s, b)) :
    (p.writing = some (o, s, b) ∧ (p.storing st = none ∨ p.storing st = some (o, s, b))) ∨
    (p = .blockRead s ∧ o = .reader ∧ b = st.disk.sectors s ∧ st' = st) := by
  cases p with
  | idle x => cases h
  | readScan t => simp only [advance] at h; split at h <;> cases h <;> cases hw
  | undoScan t => cases h; cases hw
  | blockRead t =>
    simp only [advance, blockRead] at h
    split_ifs at h
    cases h
    cases hw
    exact .inr ⟨rfl, rfl, rfl, rfl⟩
  | writeScan o' t b' =>
    simp only [advance] at h
    split at h <;> cases h <;> cases hw <;> exact .inl ⟨rfl, .inl rfl⟩
  | storeHit o' r t b' => cases h; cases o' <;> cases hw
  | fill o' m t b' =>
    cases h
    cases hw
    refine .inl ⟨rfl, ?_⟩
    simp only [Pc.storing]
    split_ifs
    · exact .inr rfl
    · exact .inl rfl
  | testFull o' m t b' =>
    simp only [advance] at h
    split_ifs at h <;> cases h
    · cases o' <;> cases hw
    · cases hw; exact .inl ⟨rfl, .inl rfl⟩
  | evict o' m t b' =>
    simp only [advance] at h
    split at h <;> cases h
    cases o' <;> cases hw
  | sync => simp only [advance] at h; split at h <;> cases h; cases hw

end

theorem storing_writing {q : Origin × Sector × Block} (h : p.storing st = some q) :
    p.writing = some q := by
  cases p with
  | storeHit o r s b => exact h
  | fill o m s b | evict o m s b => simp only [Pc.storing] at h; split_ifs at h; exact h
  | _ => cases h

theorem advance_storeHit {o : Origin} {r : Fin cacheSize}
    (h : advance p st = some (.storeHit o r s b, st')) : st'.cache.Live r := by
  cases p with
  | writeScan o' t b' =>
    simp only [advance] at h
    split at h <;> cases h
    rename_i hf
    rw [writeScan_found] at hf
    exact ((writeScan_aged s st).live r).mpr (lookup_eq_some_iff.mp hf).1
  | idle x | undoScan t | fill o' m t b' => cases h
  | readScan t | blockRead t | sync => simp only [advance] at h; split at h <;> cases h
  | storeHit o' r' t b' => cases o' <;> cases h
  | testFull o' m t b' => simp only [advance] at h; split_ifs at h <;> cases o' <;> cases h
  | evict o' m t b' => simp only [advance] at h; split at h <;> cases o' <;> cases h

/-! ### The system -/

variable {e : Event ι}

namespace Threads

theorem next_call {c : CacheCall} (h : σ.next (.call i c) = some σ') :
    (∃ x, σ.pc i = .idle x) ∧ σ'.shared = σ.shared ∧
      σ'.pc = update σ.pc i c.entry := by
  simp only [next] at h
  split at h
  · rename_i x hx
    cases h
    exact ⟨⟨x, hx⟩, rfl, rfl⟩
  · cases h

theorem pc_cases {p : Pc} (h : σ'.pc = update σ.pc i p) (j : ι) :
    (j = i ∧ σ'.pc j = p) ∨ (j ≠ i ∧ σ'.pc j = σ.pc j) := by
  rw [h]
  rcases eq_or_ne j i with rfl | hji
  · exact .inl ⟨rfl, update_self ..⟩
  · exact .inr ⟨hji, update_of_ne hji ..⟩

theorem next_step (h : σ.next (.step i) = some σ') :
    ∃ p, advance (σ.pc i) σ.shared = some (p, σ'.shared) ∧ σ'.pc = update σ.pc i p := by
  simp only [next] at h
  split at h
  · rename_i p st hp
    cases h
    exact ⟨p, hp, rfl⟩
  · cases h

omit [DecidableEq ι] in
theorem Inv.step_view (hI : σ.Inv) (hok : σ.StepOk (.step i))
    (h : advance (σ.pc i) σ.shared = some (p, st)) :
    st.view = match (σ.pc i).storing σ.shared with
      | some (_, s, b) => update σ.shared.view s b
      | none => σ.shared.view :=
  advance_view h hok.1 hI.dirty (hI.reader i) (hI.live i)

omit [DecidableEq ι] in
/-- Only a store for a caller outside changes the contents of a sector. -/
theorem Inv.view_of_not_caller (hI : σ.Inv) (hok : σ.StepOk (.step i))
    (h : advance (σ.pc i) σ.shared = some (p, st)) (s : Sector) :
    st.view s = σ.shared.view s ∨
      ∃ b, (σ.pc i).storing σ.shared = some (.caller, s, b) ∧ st.view s = b := by
  have hview := hI.step_view hok h
  cases hs : (σ.pc i).storing σ.shared with
  | none =>
    rw [hs] at hview
    exact .inl (congrFun hview s)
  | some q =>
    obtain ⟨o, t, b⟩ := q
    rw [hs] at hview
    by_cases hst : s = t
    · subst hst
      have hb : st.view s = b := (congrFun hview s).trans (update_self ..)
      cases o with
      | caller => exact .inr ⟨b, rfl, hb⟩
      | reader => exact .inl (hb.trans (hI.reader i s b (storing_writing hs)))
    · exact .inl ((congrFun hview s).trans (update_of_ne hst ..))

omit [DecidableEq ι] in
theorem inv_start (c : BlockCache) (d : Disk) : (start c d : Threads ι).Inv where
  dirty := fun _ hk => absurd hk (Nat.not_lt_zero _)
  reader := fun _ _ _ h => by cases h
  live := fun _ _ _ _ _ h => by cases h

theorem inv_call (hI : σ.Inv) {c : CacheCall} (h : σ.next (.call i c) = some σ') : σ'.Inv := by
  obtain ⟨-, hst, hpc⟩ := next_call h
  refine ⟨by rw [hst]; exact hI.dirty, fun j s b hj => ?_, fun j o r s b hj => ?_⟩
  · rw [hst]
    rcases pc_cases hpc j with ⟨rfl, hpcj⟩ | ⟨hji, hpcj⟩
    · rw [hpcj] at hj
      cases c <;> cases hj
    · rw [hpcj] at hj
      exact hI.reader j s b hj
  · rw [hst]
    rcases pc_cases hpc j with ⟨rfl, hpcj⟩ | ⟨hji, hpcj⟩
    · rw [hpcj] at hj
      cases c <;> cases hj
    · rw [hpcj] at hj
      exact hI.live j o r s b hj

/-- **Step lemma**: a step in a state it relies on keeps the invariant. -/
theorem inv_step (hI : σ.Inv) (hok : σ.StepOk (.step i)) (h : σ.next (.step i) = some σ') :
    σ'.Inv := by
  obtain ⟨p, hp, hpc⟩ := next_step h
  refine ⟨advance_dirty hp hI.dirty, fun j s b hj => ?_, fun j o r s b hj => ?_⟩
  · rcases pc_cases hpc j with ⟨rfl, hpcj⟩ | ⟨hji, hpcj⟩
    · rw [hpcj] at hj
      rcases advance_writing hp hj with ⟨hw, hs⟩ | ⟨hb, -, rfl, hst⟩
      · rcases hI.view_of_not_caller hok hp s with hv | ⟨b', hs', -⟩
        · rw [hv]; exact hI.reader j s b hw
        · rcases hs with hs | hs <;> rw [hs] at hs' <;> cases hs'
      · have hup := hok.1
        rw [hb] at hup
        rw [hst]
        exact hup
    · rw [hpcj] at hj
      rcases hI.view_of_not_caller hok hp s with hv | ⟨b', hs', hv⟩
      · rw [hv]; exact hI.reader j s b hj
      · rw [hv]; exact hok.2 s b' hs' j b hji hj
  · rcases pc_cases hpc j with ⟨rfl, hpcj⟩ | ⟨hji, hpcj⟩
    · rw [hpcj] at hj
      exact advance_storeHit (hj ▸ hp)
    · rw [hpcj] at hj
      exact lt_of_lt_of_le (hI.live j o r s b hj) (advance_entryNum hp)

/-! ### Runs -/

theorem StepsOk.append {σ₁ : Threads ι} {xs ys : List (Event ι)} (h : σ.StepsOk (xs ++ ys))
    (hx : σ.exec xs = some σ₁) : σ.StepsOk xs ∧ σ₁.StepsOk ys := by
  induction xs generalizing σ with
  | nil => cases hx; exact ⟨trivial, h⟩
  | cons e xs ih =>
    simp only [exec] at hx
    cases he : σ.next e with
    | none => rw [he] at hx; cases hx
    | some σ₂ =>
      rw [he] at hx
      have h2 := ih (h.2 σ₂ he) hx
      refine ⟨⟨h.1, fun σ' he' => ?_⟩, h2.2⟩
      rw [he] at he'
      exact Option.some.inj he' ▸ h2.1

/-- **Run rule**: what every step of the events considered keeps holds along the run. -/
theorem exec_invariant {P : Threads ι → Prop} {E : Event ι → Prop}
    (hstep : ∀ σ e σ', P σ → E e → σ.StepOk e → σ.next e = some σ' → P σ') :
    ∀ {evs : List (Event ι)} {σ σ' : Threads ι}, P σ → (∀ e ∈ evs, E e) → σ.StepsOk evs →
      σ.exec evs = some σ' → P σ' := by
  intro evs
  induction evs with
  | nil => intro σ σ' hP _ _ h; cases h; exact hP
  | cons e evs ih =>
    intro σ σ' hP hE hok h
    simp only [exec] at h
    cases he : σ.next e with
    | none => rw [he] at h; cases h
    | some σ₁ =>
      rw [he] at h
      exact ih (hstep σ e σ₁ hP (hE e mem_cons_self) hok.1 he)
        (fun e' he' => hE e' (mem_cons_of_mem _ he')) (hok.2 σ₁ he) h

theorem inv_next (hI : σ.Inv) (hok : σ.StepOk e) (h : σ.next e = some σ') : σ'.Inv := by
  cases e with
  | call i c => exact inv_call hI h
  | step i => exact inv_step hI hok h

/-! ### The only writer of a sector -/

/-- Every `cache_write` of `s` in progress that was called from outside carries `B`. -/
def OnlyWrites (σ : Threads ι) (s : Sector) (B : Block) : Prop :=
  ∀ i b, (σ.pc i).writing = some (.caller, s, b) → b = B

/-- `e` is not a call of `cache_write` on `s`. -/
def NoWrite (s : Sector) (e : Event ι) : Prop := ∀ i b, e ≠ .call i (.write s b)

theorem OnlyWrites.next (hO : σ.OnlyWrites s B) (he : NoWrite s e) (h : σ.next e = some σ') :
    σ'.OnlyWrites s B := by
  intro j b hj
  cases e with
  | call i c =>
    obtain ⟨-, -, hpc⟩ := next_call h
    rcases pc_cases hpc j with ⟨rfl, hpcj⟩ | ⟨hji, hpcj⟩
    · rw [hpcj] at hj
      cases c with
      | write t b' => cases hj; exact absurd rfl (he j b)
      | read t | sync => cases hj
    · rw [hpcj] at hj
      exact hO j b hj
  | step i =>
    obtain ⟨p, hp, hpc⟩ := next_step h
    rcases pc_cases hpc j with ⟨rfl, hpcj⟩ | ⟨hji, hpcj⟩
    · rw [hpcj] at hj
      rcases advance_writing hp hj with ⟨hw, -⟩ | ⟨-, ho, -⟩
      · exact hO j b hw
      · cases ho
    · rw [hpcj] at hj
      exact hO j b hj

theorem view_next (hI : σ.Inv) (hO : σ.OnlyWrites s B) (hok : σ.StepOk e) (h : σ.next e = some σ')
    (hv : σ.shared.view s = B) : σ'.shared.view s = B := by
  cases e with
  | call i c => rw [(next_call h).2.1]; exact hv
  | step i =>
    obtain ⟨p, hp, -⟩ := next_step h
    rcases hI.view_of_not_caller hok hp s with heq | ⟨b, hs, hb⟩
    · rw [heq]; exact hv
    · rw [hb]; exact hO i b (storing_writing hs)

/-- A `cache_write (s, B)` in progress that has not stored its block yet. -/
inductive Pending (st : CacheState) (s : Sector) (B : Block) : Pc → Prop
  | writeScan : Pending st s B (.writeScan .caller s B)
  | storeHit (r : Fin cacheSize) : Pending st s B (.storeHit .caller r s B)
  | fill (m : Fin cacheSize) : Pending st s B (.fill .caller m s B)
  | testFull (m : Fin cacheSize) (h : st.cache.entryNum = cacheSize) :
      Pending st s B (.testFull .caller m s B)
  | evict (m : Fin cacheSize) (h : st.cache.entryNum = cacheSize) :
      Pending st s B (.evict .caller m s B)

theorem full_of_le (h : st.cache.entryNum ≤ st'.cache.entryNum)
    (hn : st.cache.entryNum = cacheSize) : st'.cache.entryNum = cacheSize :=
  le_antisymm st'.cache.entryNum_le (hn ▸ h)

theorem Pending.of_le (h : Pending st s B p) (hle : st.cache.entryNum ≤ st'.cache.entryNum) :
    Pending st' s B p := by
  cases h with
  | writeScan => exact .writeScan
  | storeHit r => exact .storeHit r
  | fill m => exact .fill m
  | testFull m hn => exact .testFull m (full_of_le hle hn)
  | evict m hn => exact .evict m (full_of_le hle hn)

/-- The call that has not stored yet stores now or is still pending: it cannot return. -/
theorem Pending.advance (hp : Pending st s B p) (h : advance p st = some (p', st')) :
    Pending st' s B p' ∨ p.storing st = some (.caller, s, B) := by
  cases hp with
  | writeScan =>
    simp only [Pintos.advance] at h
    split at h <;> cases h
    · exact .inl (.storeHit _)
    · exact .inl (.fill _)
  | storeHit r => exact .inr rfl
  | fill m =>
    cases h
    by_cases hn : st.cache.entryNum < cacheSize
    · exact .inr (if_pos hn)
    · refine .inl (.testFull m ?_)
      rw [fill_full hn]
      exact le_antisymm st.cache.entryNum_le (not_lt.mp hn)
  | testFull m hn =>
    simp only [Pintos.advance, hn, lt_irrefl, if_false] at h
    cases h
    exact .inl (.evict m hn)
  | evict m hn => exact .inr (if_pos hn)

/-- `w` has stored `B` in `s` or is about to, and nobody else writes `s`. -/
structure Writing (w : ι) (s : Sector) (B : Block) (σ : Threads ι) : Prop where
  inv : σ.Inv
  only : σ.OnlyWrites s B
  stored : σ.shared.view s = B ∨ Pending σ.shared s B (σ.pc w)

theorem Writing.next {w : ι} (hW : Writing w s B σ) (he : NoWrite s e) (hok : σ.StepOk e)
    (h : σ.next e = some σ') : Writing w s B σ' := by
  refine ⟨inv_next hW.inv hok h, hW.only.next he h, ?_⟩
  rcases hW.stored with hv | hp
  · exact .inl (view_next hW.inv hW.only hok h hv)
  · cases e with
    | call i c =>
      obtain ⟨⟨x, hx⟩, hst, hpc⟩ := next_call h
      have hwi : w ≠ i := by
        rintro rfl
        rw [hx] at hp
        cases hp
      rw [hst, hpc, update_of_ne hwi]
      exact .inr hp
    | step i =>
      obtain ⟨p, hadv, hpc⟩ := next_step h
      rw [hpc]
      by_cases hwi : w = i
      · subst hwi
        rw [update_self]
        rcases hp.advance hadv with hp' | hs
        · exact .inr hp'
        · left
          have hview := hW.inv.step_view hok hadv
          rw [hs] at hview
          exact (congrFun hview s).trans (update_self ..)
      · rw [update_of_ne hwi]
        exact .inr (hp.of_le (advance_entryNum hadv))

/-! ### A read that starts afterwards -/

/-- A `cache_read (s)` in progress, or one that has delivered `B`. -/
inductive Reading (s : Sector) (B : Block) : Pc → Prop
  | readScan : Reading s B (.readScan s)
  | undoScan : Reading s B (.undoScan s)
  | blockRead : Reading s B (.blockRead s)
  | write {p : Pc} {b : Block} (h : p.writing = some (.reader, s, b)) : Reading s B p
  | delivered : Reading s B (.idle (some B))

/-- With `B` the contents of `s`, a read of `s` can only end with `B`. -/
theorem Reading.advance (hR : Reading s B p) (hv : st.view s = B)
    (hreader : ∀ b, p.writing = some (.reader, s, b) → b = st.view s)
    (h : advance p st = some (p', st')) : Reading s B p' := by
  cases hR with
  | readScan =>
    simp only [Pintos.advance] at h
    split at h <;> cases h
    · rename_i b hb
      rw [readScan_found, Option.map_eq_some_iff] at hb
      obtain ⟨j, hj, rfl⟩ := hb
      rw [← CacheState.view_of_some hj, hv]
      exact .delivered
    · exact .undoScan
  | undoScan => cases h; exact .blockRead
  | blockRead =>
    simp only [Pintos.advance] at h
    split at h <;> cases h
    exact .write rfl
  | delivered => cases h
  | @write p b hw =>
    obtain rfl : b = B := (hreader b hw).trans hv
    cases p with
    | writeScan o t b' =>
      cases hw
      simp only [Pintos.advance] at h
      split at h <;> cases h <;> exact .write rfl
    | storeHit o r t b' => cases hw; cases h; exact .delivered
    | fill o m t b' => cases hw; cases h; exact .write rfl
    | testFull o m t b' =>
      cases hw
      simp only [Pintos.advance] at h
      split_ifs at h <;> cases h
      · exact .delivered
      · exact .write rfl
    | evict o m t b' =>
      cases hw
      simp only [Pintos.advance] at h
      split at h <;> cases h
      exact .delivered
    | _ => cases hw

/-- `B` is the contents of `s` for good, and `r` reads `s`. -/
structure ReadingAfter (r : ι) (s : Sector) (B : Block) (σ : Threads ι) : Prop where
  inv : σ.Inv
  only : σ.OnlyWrites s B
  view : σ.shared.view s = B
  reading : Reading s B (σ.pc r)

theorem ReadingAfter.next {r : ι} (hR : ReadingAfter r s B σ) (he : NoWrite s e)
    (hr : ∀ c, e ≠ .call r c) (hok : σ.StepOk e) (h : σ.next e = some σ') :
    ReadingAfter r s B σ' := by
  refine ⟨inv_next hR.inv hok h, hR.only.next he h, view_next hR.inv hR.only hok h hR.view, ?_⟩
  cases e with
  | call i c =>
    have hri : r ≠ i := fun hri => hr c (hri ▸ rfl)
    rw [(next_call h).2.2, update_of_ne hri]
    exact hR.reading
  | step i =>
    obtain ⟨p, hadv, hpc⟩ := next_step h
    rw [hpc]
    by_cases hri : r = i
    · subst hri
      rw [update_self]
      exact hR.reading.advance hR.view (fun b => hR.inv.reader r s b) hadv
    · rw [update_of_ne hri]
      exact hR.reading

/-- A run `evs` from `σ₀` in which thread `w` makes and completes the call
`cache_write (s, B)` while no other `cache_write` of `s` from outside is in progress or made
later, and after that thread `r` makes and completes the call `cache_read (s)`, which
delivers `x`. -/
def WriteThenRead (σ₀ : Threads ι) (evs : List (Event ι)) (w r : ι) (s : Sector)
    (B x : Block) : Prop :=
  ∃ evs₁ evs₂ evs₃ evs₄ σ₁ σ₂ σ₃ σ₄ y,
    evs = evs₁ ++ (.call w (.write s B) :: evs₂ ++ (evs₃ ++ .call r (.read s) :: evs₄)) ∧
    σ₀.exec evs₁ = some σ₁ ∧ σ₁.exec (.call w (.write s B) :: evs₂) = some σ₂ ∧
    σ₂.exec evs₃ = some σ₃ ∧ σ₃.exec (.call r (.read s) :: evs₄) = some σ₄ ∧
    (∀ i b, (σ₁.pc i).writing ≠ some (.caller, s, b)) ∧
    (∀ e ∈ evs₂ ++ evs₃ ++ evs₄, NoWrite s e) ∧
    σ₂.pc w = .idle y ∧ (∀ c, .call r c ∉ evs₄) ∧ σ₄.pc r = .idle (some x)

/-- No update is lost: every such read delivers what was written. -/
def Delivers (σ₀ : Threads ι) (evs : List (Event ι)) : Prop :=
  ∀ w r s B x, WriteThenRead σ₀ evs w r s B x → x = B

end Threads

open Threads

/-- **No lost update** in any run whose steps are taken in states they rely on. -/
theorem delivers_of_stepsOk (c : BlockCache) (d : Disk) (evs : List (Event ι))
    (hok : (start c d).StepsOk evs) : Delivers (start c d) evs := by
  rintro w r s B x ⟨evs1, evs2, evs3, evs4, σ₁, σ₂, σ₃, σ₄, y, rfl, h1, h2, h3, h4, hquiet,
    hno, hw, hr, hx⟩
  obtain ⟨hok1, hok'⟩ := hok.append h1
  obtain ⟨hok2, hok'⟩ := hok'.append h2
  obtain ⟨hok3, hok4⟩ := hok'.append h3
  have hI1 : σ₁.Inv := exec_invariant (E := fun _ => True)
    (fun σ e σ' hI _ hok h => inv_next hI hok h) (inv_start c d) (fun _ _ => trivial) hok1 h1
  -- the write is called, and later completed
  simp only [exec] at h2
  cases hc : σ₁.next (.call w (.write s B)) with
  | none => rw [hc] at h2; cases h2
  | some σ =>
    rw [hc] at h2
    obtain ⟨-, hst, hpc⟩ := next_call hc
    have hW : Writing w s B σ := by
      refine ⟨inv_call hI1 hc, fun i b hi => ?_, .inr ?_⟩
      · rw [hpc] at hi
        by_cases hiw : i = w
        · subst hiw
          rw [update_self] at hi
          cases hi
          rfl
        · rw [update_of_ne hiw] at hi
          exact absurd hi (hquiet i b)
      · rw [hpc, update_self]
        exact .writeScan
    have hW2 : Writing w s B σ₂ := exec_invariant
      (fun σ e σ' hW he hok h => hW.next he hok h) hW
      (fun e he => hno e (by simp [he])) (hok2.2 σ hc) h2
    have hv2 : σ₂.shared.view s = B := by
      refine hW2.stored.resolve_right fun hp => ?_
      rw [hw] at hp
      cases hp
    have hW3 : (σ₃.Inv ∧ σ₃.OnlyWrites s B) ∧ σ₃.shared.view s = B := exec_invariant
      (P := fun σ => (σ.Inv ∧ σ.OnlyWrites s B) ∧ σ.shared.view s = B)
      (fun σ e σ' hP he hok h => ⟨⟨inv_next hP.1.1 hok h, hP.1.2.next he h⟩,
        view_next hP.1.1 hP.1.2 hok h hP.2⟩) ⟨⟨hW2.inv, hW2.only⟩, hv2⟩
      (fun e he => hno e (by simp [he])) hok3 h3
    -- the read is called in a state with contents `B`
    simp only [exec] at h4
    cases hc' : σ₃.next (.call r (.read s)) with
    | none => rw [hc'] at h4; cases h4
    | some σ' =>
      rw [hc'] at h4
      have hR : ReadingAfter r s B σ' := by
        refine ⟨inv_call hW3.1.1 hc', hW3.1.2.next (fun _ _ h => by cases h) hc', ?_, ?_⟩
        · rw [(next_call hc').2.1]; exact hW3.2
        · rw [(next_call hc').2.2, update_self]
          exact .readScan
      have hR4 : ReadingAfter r s B σ₄ := exec_invariant
        (E := fun e => NoWrite s e ∧ ∀ c, e ≠ .call r c)
        (fun σ e σ' hR he hok h => hR.next he.1 he.2 hok h) hR
        (fun e he => ⟨hno e (by simp [he]), fun c hec => hr c (hec ▸ he)⟩)
        (hok4.2 σ' hc') h4
      have hread := hR4.reading
      rw [hx] at hread
      cases hread with
      | delivered => rfl
      | write h => cases h

/-- One thread writes sector 0, then another reads it: every step is taken in a state it
relies on, and the read delivers the block. -/
theorem delivers_of_stepsOk_two_threads :
    let σ₀ : Threads Bool := start .zeroed ⟨2, fun _ _ => 0⟩
    let evs : List (Event Bool) := [.call true (.write 0 fun _ => 1), .step true, .step true,
      .step true, .call false (.read 0), .step false]
    WriteThenRead σ₀ evs true false 0 (fun _ => 1) (fun _ => 1) ∧ Delivers σ₀ evs := by
  refine ⟨⟨[], [.step true, .step true, .step true], [], [.step false], _, _, _, _, _, rfl, rfl,
    rfl, rfl, rfl, ?_, ?_, rfl, ?_, rfl⟩, delivers_of_stepsOk _ _ _ ?_⟩
  · intro i b h
    cases h
  · simp [NoWrite]
  · simp
  · refine ⟨trivial, fun σ h => ?_⟩
    cases h
    refine ⟨⟨trivial, fun s b h => by cases h⟩, fun σ h => ?_⟩
    cases h
    refine ⟨⟨trivial, fun s b h j b' hj hw => ?_⟩, fun σ h => ?_⟩
    · cases j
      · cases hw
      · exact absurd rfl hj
    cases h
    refine ⟨⟨trivial, fun s b h => by cases h⟩, fun σ h => ?_⟩
    cases h
    refine ⟨trivial, fun σ h => ?_⟩
    cases h
    exact ⟨⟨trivial, fun s b h => by cases h⟩, fun σ h => trivial⟩

/-- A reader that missed sector 0 stores the old block over the one that was written while
it was between `block_read` and `cache_write`: a later read delivers the old block. -/
theorem not_delivers_reader_overwrites :
    ¬ Delivers (start .zeroed ⟨2, fun _ _ => 0⟩ : Threads Bool)
      [.call false (.read 0), .step false, .step false, .step false,
        .call true (.write 0 fun _ => 1), .step true, .step true, .step true,
        .step false, .step false, .call false (.read 0), .step false] := by
  intro h
  have hold : (fun _ => 0 : Block) = fun _ => 1 := by
    refine h true false 0 (fun _ => 1) (fun _ => 0)
      ⟨[.call false (.read 0), .step false, .step false, .step false],
        [.step true, .step true, .step true], [.step false, .step false], [.step false],
        _, _, _, _, _, rfl, rfl, rfl, rfl, rfl, ?_, ?_, rfl, ?_, rfl⟩
    · intro i b h
      cases i <;> cases h
    · simp [NoWrite]
    · simp
  exact absurd (congrFun hold 0) (by decide)

end Pintos

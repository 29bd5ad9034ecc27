import Pintos.FreeMapRuns
import Pintos.Interleaving

/-! # `free_map_allocate` under interleaving

`free_map_allocate` takes no lock.  A thread that allocates a sector first searches the free map,
then marks the bit that it found, and then writes the map to its file; if that fails it takes the
mark back.  Each of these is a step here (`AllocPc`, `allocStep`), and a call that is not
interrupted is the function of `Inode.lean` (`exec_freeMapAllocate`).

Between the search and the mark another thread can find the same bit
(`not_distinct_both_scan`).  In every run in which no thread searches while another one is about
to mark the bit it found, the sectors that are returned are different (`distinct_of_scansAlone`). -/

namespace Pintos.Fs

open Function Interaction Interleaving

/-- Where a thread is in `free_map_allocate (1, _)`. -/
inductive AllocPc
  | scan
  | flip (idx : ℕ)
  | write (idx : ℕ)
  | undo (idx : ℕ)
  | done (result : Option Sector)

/-- One step; `written` is what `bitmap_write` returns when it is its turn. -/
def allocStep (written : Bool) : AllocPc → Bitmap → Option (AllocPc × Bitmap)
  | .scan, b =>
    match bitmapScan b 0 1 false with
    | .ok (some idx) => some (.flip idx, b)
    | .ok none => some (.done none, b)
    | .error _ => none
  | .flip idx, b =>
    match bitmapSetMultiple b idx 1 true with
    | .ok b' => some (.write idx, b')
    | .error _ => none
  | .write idx, b => some (if written then .done (some (UInt32.ofNat idx)) else .undo idx, b)
  | .undo idx, b =>
    match bitmapSetMultiple b idx 1 false with
    | .ok b' => some (.done none, b')
    | .error _ => none
  | .done _, _ => none

/-- Every thread is about to call. -/
def allocStart (ι : Type) (b : Bitmap) : Conf ι AllocPc Bitmap := ⟨b, fun _ => .scan⟩

/-- The sectors that were returned are different. -/
def Distinct {ι : Type} (c : Conf ι AllocPc Bitmap) : Prop :=
  ∀ t t' s, t ≠ t' → c.pc t = .done (some s) → c.pc t' ≠ .done (some s)

/-- A thread searches only if no other one is between its search and its mark. -/
def ScansAlone {ι : Type} (c : Conf ι AllocPc Bitmap) (ev : ι × Bool) : Prop :=
  c.pc ev.1 = .scan → ∀ t, t ≠ ev.1 → ∀ idx, c.pc t ≠ .flip idx

/-! ### A call that is not interrupted -/

/-- The bit that a thread has marked. -/
def AllocPc.holds : AllocPc → Option ℕ
  | .write idx => some idx
  | .undo idx => some idx
  | .done (some s) => some s.toNat
  | _ => none

/-- The bit that a thread holds is marked, the one that it is about to mark is free. -/
def AllocPc.Sound (b : Bitmap) : AllocPc → Prop
  | .flip idx => idx < b.bitCnt ∧ b.get idx = false
  | p => ∀ idx, p.holds = some idx → idx < b.bitCnt ∧ b.get idx = true

/-- Two threads hold different bits, and they are not both about to mark one. -/
def AllocPc.Apart (p p' : AllocPc) : Prop :=
  (∀ idx, p.holds = some idx → p'.holds ≠ some idx) ∧ ∀ idx idx', p = .flip idx → p' ≠ .flip idx'

structure AllocInv {ι : Type} (c : Conf ι AllocPc Bitmap) : Prop where
  sound : ∀ t, (c.pc t).Sound c.shared
  apart : ∀ t t', t ≠ t' → (c.pc t).Apart (c.pc t')

variable {p p' : AllocPc}

theorem AllocPc.Apart.symm (h : p.Apart p') : p'.Apart p :=
  ⟨fun idx h1 h2 => h.1 idx h2 h1, fun idx idx' h1 h2 => h.2 idx' idx h2 h1⟩

theorem AllocPc.apart_of_none (hholds : p.holds = none) (hflip : ∀ idx, p ≠ .flip idx) :
    p.Apart p' := by
  refine ⟨fun idx hidx => ?_, fun idx idx' hidx => absurd hidx (hflip idx)⟩
  rw [hholds] at hidx
  cases hidx

variable {b : Bitmap}

theorem AllocPc.Sound.marked (h : p.Sound b) {idx : ℕ} (hp : p.holds = some idx) :
    idx < b.bitCnt ∧ b.get idx = true := by
  cases p with
  | flip j => cases hp
  | scan | write j | undo j | done r => exact h idx hp

variable {b' : Bitmap}

section

variable {ι : Type} [DecidableEq ι]

theorem setMultiple_one {idx : ℕ} {value : Bool} (hidx : idx < b.bitCnt)
    (h : bitmapSetMultiple b idx 1 value = .ok b') :
    b'.bitCnt = b.bitCnt ∧ ∀ j, b'.get j = if j = idx then value else b.get j := by
  obtain ⟨b1, hb1, hcnt, hget⟩ := bitmapSetMultiple_ok (show idx + 1 ≤ b.bitCnt by omega) value
  obtain rfl : b1 = b' := Except.ok.inj (hb1.symm.trans h)
  refine ⟨hcnt, fun j => ?_⟩
  rw [hget]
  by_cases hj : j = idx
  · rw [if_pos (by omega), if_pos hj]
  · rw [if_neg (by omega), if_neg hj]

theorem allocStep_cases {written : Bool} (h : allocStep written p b = some (p', b')) :
    (p = .scan ∧ b' = b ∧ ((∃ idx, p' = .flip idx ∧ idx < b.bitCnt ∧ b.get idx = false) ∨
      p' = .done none)) ∨
    (∃ idx, p = .flip idx ∧ p' = .write idx ∧ bitmapSetMultiple b idx 1 true = .ok b') ∨
    (∃ idx, p = .write idx ∧ b' = b ∧
      (p' = .done (some (UInt32.ofNat idx)) ∨ p' = .undo idx)) ∨
    (∃ idx, p = .undo idx ∧ p' = .done none ∧ bitmapSetMultiple b idx 1 false = .ok b') := by
  cases p with
  | scan =>
    obtain ⟨found, hscan, hsome, -⟩ := bitmapScan_spec (Nat.zero_le b.bitCnt) 1 false
    simp only [allocStep, hscan] at h
    cases found with
    | none =>
      cases h
      exact .inl ⟨rfl, rfl, .inr rfl⟩
    | some idx =>
      cases h
      obtain ⟨-, hlt, hget⟩ := (hsome idx rfl).1
      exact .inl ⟨rfl, rfl, .inl ⟨idx, rfl, hlt, hget 0 Nat.one_pos⟩⟩
  | flip idx =>
    cases hset : bitmapSetMultiple b idx 1 true with
    | error f => simp only [allocStep, hset] at h; cases h
    | ok b1 =>
      simp only [allocStep, hset] at h
      cases h
      exact .inr (.inl ⟨idx, rfl, rfl, hset⟩)
  | write idx =>
    cases written with
    | true => cases h; exact .inr (.inr (.inl ⟨idx, rfl, rfl, .inl rfl⟩))
    | false => cases h; exact .inr (.inr (.inl ⟨idx, rfl, rfl, .inr rfl⟩))
  | undo idx =>
    cases hset : bitmapSetMultiple b idx 1 false with
    | error f => simp only [allocStep, hset] at h; cases h
    | ok b1 =>
      simp only [allocStep, hset] at h
      cases h
      exact .inr (.inr (.inr ⟨idx, rfl, rfl, hset⟩))
  | done r => cases h

theorem AllocPc.Sound.congr (h : p.Sound b) (hcnt : b'.bitCnt = b.bitCnt)
    (hget : ∀ j, p.holds = some j ∨ p = .flip j → b'.get j = b.get j) : p.Sound b' := by
  cases p with
  | flip j =>
    refine ⟨hcnt ▸ h.1, ?_⟩
    rw [hget j (.inr rfl)]
    exact h.2
  | scan | write j | undo j | done r =>
    intro i hi
    rw [hcnt, hget i (.inl hi)]
    exact h i hi

theorem AllocInv.update {c : Conf ι AllocPc Bitmap} (h : AllocInv c) {t : ι} (hp : p.Sound b)
    (hother : ∀ t', t' ≠ t → (c.pc t').Sound b) (hapart : ∀ t', t' ≠ t → p.Apart (c.pc t')) :
    AllocInv ⟨b, update c.pc t p⟩ :=
  ⟨(forall_update_iff c.pc fun _ q => q.Sound b).mpr ⟨hp, hother⟩,
    pairwise_update AllocPc.Apart (fun _ _ => AllocPc.Apart.symm) h.apart hapart⟩

theorem allocInv_next {c c' : Conf ι AllocPc Bitmap} {ev : ι × Bool} (h : AllocInv c)
    (hok : ScansAlone c ev) (hn : next allocStep c ev = some c') : AllocInv c' := by
  obtain ⟨p, b, hstep, rfl⟩ := next_eq_some hn
  have hsound := h.sound ev.1
  have hother := fun t' (_ : t' ≠ ev.1) => h.sound t'
  have hapart := fun t' (hne : t' ≠ ev.1) => h.apart ev.1 t' hne.symm
  rcases allocStep_cases hstep with ⟨hp, rfl, hp'⟩ | ⟨idx, hp, rfl, hset⟩ | ⟨idx, hp, rfl, hp'⟩ |
    ⟨idx, hp, rfl, hset⟩
  · rcases hp' with ⟨idx, rfl, hfree⟩ | rfl
    · refine h.update hfree hother fun t' hne => ⟨fun j hj => ?_, fun j j' _ => hok hp t' hne j'⟩
      cases hj
    · refine h.update (fun j hj => ?_) hother fun t' _ => AllocPc.apart_of_none rfl (by simp)
      cases hj
  · -- the bit that is marked was free, so that no other thread holds it
    rw [hp] at hsound hapart
    obtain ⟨hcnt, hget⟩ := setMultiple_one hsound.1 hset
    have hne : ∀ t' j, (c.pc t').holds = some j → j ≠ idx := by
      rintro t' j hj rfl
      have hmark := ((h.sound t').marked hj).2
      rw [hsound.2] at hmark
      cases hmark
    refine h.update (fun j hj => ?_) (fun t' ht' => (h.sound t').congr hcnt fun j hj => ?_)
      fun t' ht' => ⟨fun j hj hj' => ?_, fun j j' hj => ?_⟩
    · cases hj
      rw [hcnt, hget, if_pos rfl]
      exact ⟨hsound.1, rfl⟩
    · rcases hj with hj | hj
      · rw [hget, if_neg (hne t' j hj)]
      · exact absurd hj ((hapart t' ht').2 idx j rfl)
    · exact hne t' j hj' (Option.some.inj hj).symm
    · cases hj
  · rw [hp] at hsound hapart
    have hround : (UInt32.ofNat idx).toNat = idx :=
      UInt32.toNat_ofNat_of_lt' (lt_trans (hsound idx rfl).1 c.shared.bitCnt_lt)
    have hholds : p.holds = some idx := by
      rcases hp' with rfl | rfl
      · rw [AllocPc.holds, hround]
      · rfl
    have hflip : ∀ j, p ≠ .flip j := by
      rintro j rfl
      rcases hp' with hp' | hp' <;> cases hp'
    refine h.update ?_ hother fun t' hne => ⟨fun j hj => ?_, fun j j' hj => absurd hj (hflip j)⟩
    · rcases hp' with rfl | rfl
      · intro j hj
        exact hsound j (hholds.symm.trans hj)
      · exact hsound
    · exact (hapart t' hne).1 j (hholds.symm.trans hj)
  · -- the bit that is given back is held by nobody else
    rw [hp] at hsound hapart
    obtain ⟨hcnt, hget⟩ := setMultiple_one (hsound idx rfl).1 hset
    refine h.update (fun j hj => ?_) (fun t' ht' => (h.sound t').congr hcnt fun j hj => ?_)
      fun t' _ => AllocPc.apart_of_none rfl (by simp)
    · cases hj
    · have hne : j ≠ idx := by
        rintro rfl
        rcases hj with hj | hj
        · exact (hapart t' ht').1 j rfl hj
        · have hfree := h.sound t'
          rw [hj] at hfree
          have hmark := (hsound j rfl).2
          rw [hfree.2] at hmark
          cases hmark
      rw [hget, if_neg hne]

end

/-- **Concurrent allocation is exclusive** in every run in which no thread searches the free map
while another one is about to mark the bit that it found. -/
theorem distinct_of_scansAlone {ι : Type} [DecidableEq ι] (b : Bitmap) (evs : List (ι × Bool))
    (c : Conf ι AllocPc Bitmap) (hok : StepsMeet allocStep ScansAlone (allocStart ι b) evs)
    (hexec : exec allocStep (allocStart ι b) evs = some c) : Distinct c := by
  have hstart : AllocInv (allocStart ι b) := by
    refine ⟨fun t idx hidx => ?_, fun t t' _ => AllocPc.apart_of_none rfl (by simp [allocStart])⟩
    cases hidx
  have hinv := exec_invariant (fun c ev c' h hok hn => allocInv_next h hok hn) evs hstart hok hexec
  intro t t' s hne ht ht'
  exact (hinv.apart t t' hne).1 s.toNat (by rw [ht]; rfl) (by rw [ht']; rfl)

/-- Two threads that allocate one after the other. -/
def serialAllocs : List (Bool × Bool) :=
  [(false, true), (false, true), (false, true), (true, true), (true, true), (true, true)]

theorem distinct_of_scansAlone_serial : ∃ c,
    exec allocStep (allocStart Bool (Bitmap.eight 3)) serialAllocs = some c ∧ Distinct c := by
  have hok : StepsMeet allocStep ScansAlone (allocStart Bool (Bitmap.eight 3)) serialAllocs := by
    repeat' first
      | exact trivial
      | refine stepsMeet_cons ?_ rfl ?_
      | (rintro h t ht idx h'; cases t <;> first | exact ht rfl | cases h')
  exact ⟨_, rfl, distinct_of_scansAlone _ _ _ hok rfl⟩

/-- Two threads that both search before either of them marks. -/
def bothScan : List (Bool × Bool) :=
  [(false, true), (true, true), (false, true), (true, true), (false, true), (true, true)]

theorem not_distinct_both_scan : ∃ c,
    exec allocStep (allocStart Bool (Bitmap.eight 3)) bothScan = some c ∧ ¬ Distinct c := by
  refine ⟨_, rfl, fun h => ?_⟩
  exact h false true 2 (by decide) rfl rfl

end Pintos.Fs

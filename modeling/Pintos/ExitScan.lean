import Pintos.WaitScan

/-! # `handle_exit` without interruption

`handle_exit` scans `wait_list` and unlinks records on the way: after `e = list_remove (e)` the
cursor is already at the next record, and the loop then moves it once more.

* **`Exits now v s pc s'`**: the steps of `handle_exit (v)` from `pc`, one after another and
  without a step of another process, end the scan in `s'`.
* **`scan`**: the fate of each record, as a function of the list.
* **`ExitDone`**: every record of the process is accounted for, and no other is touched.
* **`exits_done_iff`**: for which lists that is so. -/

namespace Pintos.Process

open Heap List

/-- A run of `handle_exit` to the end of its scan. -/
inductive Exits (now : Tid) (v : ℤ) : Shared → ExitPc → Shared → Prop
  | leave (s : Shared) : Exits now v s .leave s
  | step {s s₁ s' : Shared} {pc pc₁ : ExitPc}
      (h : handleExit now v s pc = .next (.exit v pc₁) none s₁) (rest : Exits now v s₁ pc₁ s') :
      Exits now v s pc s'

/-! ### The fate of the records -/

section Fate

variable (now : Tid) (v : ℤ)

/-- The record is of the process, as a child or as a parent. -/
def Related (w : WaitStatus) : Prop := w.childPid = now ∨ w.parentPid = now

instance (w : WaitStatus) : Decidable (Related now w) := instDecidableOr

/-- What the process does to one record. -/
def touch (w : WaitStatus) : WaitStatus :=
  if w.childPid = now then
    { w with returnVal := v, refCnt := w.refCnt - 1, endP := w.endP + 1 }
  else if w.parentPid = now then { w with refCnt := w.refCnt - 1 }
  else w

/-- What becomes of each record; `none` is a record that is unlinked and freed.  The one behind
it is passed over. -/
def scan : List (StatusPtr × WaitStatus) → List (StatusPtr × Option WaitStatus)
  | [] => []
  | [(e, w)] => [(e, if (touch now v w).refCnt = 0 then none else some (touch now v w))]
  | (e, w) :: (e₁, w₁) :: rest =>
    if (touch now v w).refCnt = 0 then (e, none) :: (e₁, some w₁) :: scan rest
    else (e, some (touch now v w)) :: scan ((e₁, w₁) :: rest)

/-- The last reference to the record goes away. -/
def Gone (w : WaitStatus) : Prop := Related now w ∧ w.refCnt = 1

instance (w : WaitStatus) : Decidable (Gone now w) := instDecidableAnd

/-- What should become of a record. -/
def intended (r : StatusPtr × WaitStatus) : StatusPtr × Option WaitStatus :=
  (r.1, if Gone now r.2 then none else some (touch now v r.2))

/-- No record the scan stops at is without references although it is not of the process, and
behind a record that goes away there is none of the process. -/
def Covered : List (StatusPtr × WaitStatus) → Prop
  | [] => True
  | [(_, w)] => Related now w ∨ w.refCnt ≠ 0
  | (_, w) :: (e₁, w₁) :: rest =>
    (Related now w ∨ w.refCnt ≠ 0) ∧
      if Gone now w then ¬Related now w₁ ∧ Covered rest else Covered ((e₁, w₁) :: rest)

variable {now v}

variable {w : WaitStatus}

theorem touch_refCnt {now : Tid} (v : ℤ) (h : Related now w) :
    (touch now v w).refCnt = w.refCnt - 1 := by
  unfold touch
  split
  · rfl
  · rename_i hchild
    rw [if_pos (h.resolve_left hchild)]

theorem touch_of_not (h : ¬Related now w) : touch now v w = w := by
  unfold Related at h
  rw [not_or] at h
  rw [touch, if_neg h.1, if_neg h.2]

/-- A record that the scan stops at meets its fate unless it is without references and not of the
process. -/
theorem visited_iff (now : Tid) (v : ℤ) :
    (if (touch now v w).refCnt = 0 then none else some (touch now v w)) =
      (if Gone now w then none else some (touch now v w)) ↔ Related now w ∨ w.refCnt ≠ 0 := by
  unfold Gone
  by_cases hrel : Related now w
  · rw [touch_refCnt v hrel]
    simp only [hrel, true_and, true_or, sub_eq_zero]
  · rw [touch_of_not hrel]
    by_cases hzero : w.refCnt = 0
    · simp [hrel, hzero]
    · simp [hrel, hzero]

theorem passed_iff :
    some w = (if Gone now w then none else some (touch now v w)) ↔ ¬Related now w := by
  by_cases hrel : Related now w
  · have hne : touch now v w ≠ w := by
      intro heq
      have hcnt := touch_refCnt v hrel
      rw [heq] at hcnt
      omega
    refine iff_of_false ?_ (fun h => h hrel)
    by_cases hgone : Gone now w
    · rw [if_pos hgone]
      exact nofun
    · rw [if_neg hgone]
      exact fun h => hne (Option.some.inj h).symm
  · rw [if_neg (fun hgone => hrel hgone.1), touch_of_not hrel]
    exact iff_of_true rfl hrel

/-- **The scan** gives every record its fate just on the lists that are covered. -/
theorem scan_eq_iff (l : List (StatusPtr × WaitStatus)) :
    scan now v l = l.map (intended now v) ↔ Covered now l := by
  fun_induction scan now v l with
  | case1 => simp [Covered]
  | case2 e w =>
    simp only [map_cons, map_nil, intended, List.cons.injEq, and_true, Prod.mk.injEq,
      true_and, Covered]
    exact visited_iff now v
  | case3 e w e1 w1 rest hzero ih =>
    have hvisit := visited_iff now v (w := w)
    rw [if_pos hzero] at hvisit
    simp only [map_cons, intended, List.cons.injEq, Prod.mk.injEq, true_and, ih, hvisit,
      passed_iff, Covered]
    by_cases hrel : Related now w
    · have hgone : Gone now w := by
        rw [touch_refCnt v hrel] at hzero
        exact ⟨hrel, by omega⟩
      simp only [hrel, true_or, true_and, if_pos hgone]
    · have hcnt : w.refCnt = 0 := by rwa [touch_of_not hrel] at hzero
      simp only [hrel, hcnt, ne_eq, not_true_eq_false, or_self, false_and]
  | case4 e w e1 w1 rest hzero ih =>
    have hvisit := visited_iff now v (w := w)
    rw [if_neg hzero] at hvisit
    have hgone : ¬Gone now w := by
      rintro ⟨hrel, hone⟩
      rw [touch_refCnt v hrel] at hzero
      omega
    rw [map_cons, List.cons.injEq, ih, Covered, if_neg hgone]
    simp only [intended, Prod.mk.injEq, true_and, hvisit]

end Fate

/-! ### The steps of one round -/

variable {l pre : List StatusPtr}

section Round

variable {now : Tid} {v : ℤ} {s s' : Shared} {e : StatusPtr} {w : WaitStatus}

theorem store_store {α : Type} (h : Heap α) (p : ℕ) (a b : α) :
    (h.store p a).store p b = h.store p b := by
  simp only [store, Function.update_self, Function.update_idem, Option.map_map]
  rfl

theorem Shared.store_store (s : Shared) (e : StatusPtr) (w w' : WaitStatus) :
    (s.store e w).store e w' = s.store e w' := by
  unfold Shared.store
  rw [Process.store_store]

theorem access_of_cell {f : WaitStatus → Outcome} (h : s.statuses.cells e = some w) :
    s.access e f = f w := by
  unfold Shared.access
  rw [h]

theorem cell_store (w' : WaitStatus) (h : s.statuses.cells e = some w) :
    (s.store e w').statuses.cells e = some w' := store_self h

/-- The state when the process has dealt with the record. -/
def touched (now : Tid) (v : ℤ) (s : Shared) (e : StatusPtr) (w : WaitStatus) : Shared :=
  if Related now w then s.store e (touch now v w) else s

theorem cell_touched (now : Tid) (v : ℤ) (h : s.statuses.cells e = some w) :
    (touched now v s e w).statuses.cells e = some (touch now v w) := by
  unfold touched
  split
  · exact cell_store _ h
  · rename_i hrel
    rw [touch_of_not hrel, h]

/-- `lock_acquire`, `ref_cnt --`, `lock_release`. -/
theorem exits_lock (own : Bool) (hcell : s.statuses.cells e = some w) (hfree : w.refCntLock = false)
    (rest : Exits now v (s.store e { w with refCnt := w.refCnt - 1 })
      (if own then .up e else .check e) s') : Exits now v s (.lock e own) s' := by
  have hacquire : handleExit now v s (.lock e own) =
      .next (.exit v (.dec e own)) none (s.store e { w with refCntLock := true }) := by
    rw [handleExit, access_of_cell hcell, hfree]
    rfl
  have hdec : handleExit now v (s.store e { w with refCntLock := true }) (.dec e own) =
      .next (.exit v (.unlock e own)) none
        (s.store e { w with refCnt := w.refCnt - 1, refCntLock := true }) := by
    rw [handleExit, access_of_cell (cell_store _ hcell), Shared.store_store]
  have hrelease : handleExit now v
      (s.store e { w with refCnt := w.refCnt - 1, refCntLock := true }) (.unlock e own) =
      .next (.exit v (if own then .up e else .check e)) none
        (s.store e { w with refCnt := w.refCnt - 1 }) := by
    rw [handleExit, access_of_cell (cell_store _ hcell), Shared.store_store, ← hfree]
  exact .step hacquire (.step hdec (.step hrelease rest))

/-- From the record to the test of its reference count. -/
theorem exits_visit (hcell : s.statuses.cells e = some w) (hfree : w.refCntLock = false)
    (rest : Exits now v (touched now v s e w) (.check e) s') : Exits now v s (.readChild e) s' := by
  have hread : handleExit now v s (.readChild e) =
      .next (.exit v (if w.childPid = now then .setReturn e else .readParent e)) none s := by
    rw [handleExit, access_of_cell hcell]
  refine .step hread ?_
  by_cases hchild : w.childPid = now
  · rw [if_pos hchild]
    have hrel : Related now w := .inl hchild
    rw [touched, if_pos hrel, touch, if_pos hchild] at rest
    have hset : handleExit now v s (.setReturn e) =
        .next (.exit v (.lock e true)) none (s.store e { w with returnVal := v }) := by
      rw [handleExit, access_of_cell hcell]
    refine .step hset (exits_lock true (cell_store _ hcell) hfree ?_)
    rw [if_pos rfl, Shared.store_store]
    have hup : handleExit now v (s.store e { w with returnVal := v, refCnt := w.refCnt - 1 })
        (.up e) = .next (.exit v (.check e)) none
          (s.store e { w with returnVal := v, refCnt := w.refCnt - 1, endP := w.endP + 1 }) := by
      rw [handleExit, access_of_cell (cell_store _ hcell), Shared.store_store]
    exact .step hup rest
  · rw [if_neg hchild]
    have hread' : handleExit now v s (.readParent e) =
        .next (.exit v (if w.parentPid = now then .lock e false else .check e)) none s := by
      rw [handleExit, access_of_cell hcell]
    refine .step hread' ?_
    by_cases hparent : w.parentPid = now
    · rw [if_pos hparent]
      have hrel : Related now w := .inr hparent
      rw [touched, if_pos hrel, touch, if_neg hchild, if_pos hparent] at rest
      exact exits_lock false hcell hfree rest
    · rw [if_neg hparent]
      have hrel : ¬Related now w := not_or.mpr ⟨hchild, hparent⟩
      rw [touched, if_neg hrel] at rest
      exact rest

/-- Where the scan goes on, with the records `l` before it. -/
def scanAt : List StatusPtr → ExitPc
  | [] => .leave
  | e :: _ => .readChild e

theorem exitAt_head (l : List StatusPtr) :
    exitAt v s l.head? = .next (.exit v (scanAt l)) none s := by
  cases l with
  | nil => rfl
  | cons e l => rfl

theorem not_mem_front (hnodup : (pre ++ e :: l).Nodup) : e ∉ pre :=
  fun hmem => (nodup_append.mp hnodup).2.2 e hmem e mem_cons_self rfl

theorem listNext_eq (hlist : s.waitList = pre ++ e :: l) (hnodup : s.waitList.Nodup) :
    s.listNext e w = l.head? := by
  have hmem : e ∈ s.waitList := by
    rw [hlist]
    exact mem_append_right _ mem_cons_self
  have hpre : e ∉ pre := not_mem_front (hlist ▸ hnodup)
  rw [Shared.listNext, if_pos hmem, hlist, succ_append hpre]

theorem exits_next (hcell : s.statuses.cells e = some w) (hlist : s.waitList = pre ++ e :: l)
    (hnodup : s.waitList.Nodup) (rest : Exits now v s (scanAt l) s') :
    Exits now v s (.next e) s' := by
  refine .step ?_ rest
  rw [handleExit, access_of_cell hcell, listNext_eq hlist hnodup, exitAt_head]

theorem touched_waitList (now : Tid) (v : ℤ) (s : Shared) (e : StatusPtr) (w : WaitStatus) :
    (touched now v s e w).waitList = s.waitList := by
  unfold touched
  split
  · rfl
  · rfl

variable {st : StatusPtr}

theorem touched_cells_of_ne (h : st ≠ e) :
    (touched now v s e w).statuses.cells st = s.statuses.cells st := by
  unfold touched
  split
  · exact store_of_ne h
  · rfl

/-- **A round that keeps the record**: the scan goes on with the next. -/
theorem exits_keep (hcell : s.statuses.cells e = some w) (hfree : w.refCntLock = false)
    (hcnt : (touch now v w).refCnt ≠ 0) (hlist : s.waitList = pre ++ e :: l)
    (hnodup : s.waitList.Nodup) (rest : Exits now v (touched now v s e w) (scanAt l) s') :
    Exits now v s (.readChild e) s' := by
  have hcell1 := cell_touched now v hcell
  rw [← touched_waitList now v s e w] at hlist hnodup
  refine exits_visit hcell hfree (.step ?_ (exits_next hcell1 hlist hnodup rest))
  rw [handleExit, access_of_cell hcell1, if_neg hcnt]

/-- The state when a record has been unlinked and freed. -/
def unlinked (s : Shared) (e : StatusPtr) (w : WaitStatus) : Shared := (s.listRemove e w).free e

theorem unlinked_waitList (hlist : s.waitList = pre ++ e :: l) (hnodup : s.waitList.Nodup) :
    (unlinked s e w).waitList = pre ++ l := by
  have hpre : e ∉ pre := not_mem_front (hlist ▸ hnodup)
  show s.waitList.erase e = pre ++ l
  rw [hlist, erase_append_right _ hpre, erase_cons_head]

theorem unlinked_cells_of_ne (h : st ≠ e) :
    (unlinked s e w).statuses.cells st = s.statuses.cells st := by
  show ((s.statuses.store e _).free e).cells st = _
  rw [free_of_ne h, store_of_ne h]

theorem unlinked_cells_self : (unlinked s e w).statuses.cells e = none := free_self

/-- **A round that unlinks and frees the record**: the cursor is at its successor, and moves
on. -/
theorem exits_unlink (hcell : s.statuses.cells e = some w) (hfree : w.refCntLock = false)
    (hcnt : (touch now v w).refCnt = 0) (hlist : s.waitList = pre ++ e :: l)
    (hnodup : s.waitList.Nodup) (hlive : ∀ e1 ∈ l, ∃ w1, s.statuses.cells e1 = some w1)
    (rest : Exits now v (unlinked (touched now v s e w) e (touch now v w)) (scanAt l.tail) s') :
    Exits now v s (.readChild e) s' := by
  refine exits_visit hcell hfree ?_
  have hcell1 := cell_touched now v hcell
  have hother : ∀ e1 ∈ l, ∃ w1, (touched now v s e w).statuses.cells e1 = some w1 := by
    intro e1 he1
    have hne : e1 ≠ e := by
      rintro rfl
      rw [hlist] at hnodup
      exact (nodup_cons.mp (nodup_append.mp hnodup).2.1).1 he1
    rw [touched_cells_of_ne hne]
    exact hlive e1 he1
  rw [← touched_waitList now v s e w] at hlist hnodup
  generalize touched now v s e w = s1 at *
  generalize touch now v w = u at *
  have hmem : e ∈ s1.waitList := by
    rw [hlist]
    exact mem_append_right _ mem_cons_self
  have hpre : e ∉ pre := not_mem_front (hlist ▸ hnodup)
  have hcheck : handleExit now v s1 (.check e) = .next (.exit v (.remove e)) none s1 := by
    rw [handleExit, access_of_cell hcell1, if_pos hcnt]
  have hremove : handleExit now v s1 (.remove e) =
      .next (.exit v (.free e l.head?)) none (s1.listRemove e u) := by
    rw [handleExit, access_of_cell hcell1, if_pos hmem, hlist, succ_append hpre]
  refine .step hcheck (.step hremove ?_)
  have hcell' : ∃ w', (s1.listRemove e u).statuses.cells e = some w' :=
    ⟨_, store_self hcell1⟩
  obtain ⟨w', hcell'⟩ := hcell'
  cases l with
  | nil =>
    have hfree : handleExit now v (s1.listRemove e u) (.free e none) =
        .next (.exit v .leave) none (unlinked s1 e u) := by
      rw [handleExit, access_of_cell hcell']
      rfl
    exact .step hfree rest
  | cons e1 l =>
    have hfree : handleExit now v (s1.listRemove e u) (.free e (some e1)) =
        .next (.exit v (.next e1)) none (unlinked s1 e u) := by
      rw [handleExit, access_of_cell hcell']
      rfl
    obtain ⟨w1, hw1⟩ := hother e1 mem_cons_self
    have hlist1 := unlinked_waitList (w := u) hlist hnodup
    have hnodup1 : (unlinked s1 e u).waitList.Nodup := hnodup.erase e
    have hne : e1 ≠ e := by
      rintro rfl
      rw [hlist] at hnodup
      exact (nodup_cons.mp (nodup_append.mp hnodup).2.1).1 mem_cons_self
    rw [← unlinked_cells_of_ne (w := u) hne] at hw1
    exact .step hfree (exits_next hw1 hlist1 hnodup1 rest)

end Round

/-! ### The whole scan -/

/-- The records of `wait_list`, front to back; no process is inside a `ref_cnt_lock`. -/
structure OnList (s : Shared) (recs : List (StatusPtr × WaitStatus)) : Prop where
  list : s.waitList = recs.map Prod.fst
  nodup : s.waitList.Nodup
  cells : ∀ r ∈ recs, s.statuses.cells r.1 = some r.2
  unlocked : ∀ r ∈ recs, r.2.refCntLock = false

/-- The records of `l` have the fates `out` in `s'`. -/
structure Fates (pre : List StatusPtr) (l : List (StatusPtr × WaitStatus))
    (out : List (StatusPtr × Option WaitStatus)) (s s' : Shared) : Prop where
  list : s'.waitList = pre ++ (out.filter (·.2.isSome)).map Prod.fst
  cells : ∀ r ∈ out, s'.statuses.cells r.1 = r.2
  frame : ∀ st ∉ l.map Prod.fst, s'.statuses.cells st = s.statuses.cells st

section Scan

variable {now : Tid} {v : ℤ}

variable {s s' : Shared} {e : StatusPtr} {w : WaitStatus}
  {out : List (StatusPtr × Option WaitStatus)} {recs : List (StatusPtr × WaitStatus)}

theorem Fates.keep {l : List (StatusPtr × WaitStatus)} (hcell : s.statuses.cells e = some w)
    (he : e ∉ l.map Prod.fst) (h : Fates (pre ++ [e]) l out (touched now v s e w) s') :
    Fates pre ((e, w) :: l) ((e, some (touch now v w)) :: out) s s' := by
  refine ⟨?_, ?_, ?_⟩
  · rw [h.list]
    simp
  · intro r hr
    cases mem_cons.mp hr with
    | inl heq =>
      subst heq
      rw [h.frame e he]
      exact cell_touched now v hcell
    | inr hr => exact h.cells r hr
  · intro st hst
    rw [map_cons, mem_cons, not_or] at hst
    rw [h.frame st hst.2, touched_cells_of_ne hst.1]

/-- The fates after a round that frees the record `e`: the records `skip` behind it are as they
were. -/
theorem Fates.unlink {u : WaitStatus} (skip l : List (StatusPtr × WaitStatus))
    (hnodup : (((e, w) :: (skip ++ l)).map Prod.fst).Nodup)
    (hcells : ∀ r ∈ skip, s.statuses.cells r.1 = some r.2)
    (h : Fates (pre ++ skip.map Prod.fst) l out (unlinked (touched now v s e w) e u) s') :
    Fates pre ((e, w) :: (skip ++ l)) ((e, none) :: (skip.map (fun r => (r.1, some r.2)) ++ out))
      s s' := by
  rw [map_cons, nodup_cons, map_append, nodup_append] at hnodup
  obtain ⟨he, -, -, hdisj⟩ := hnodup
  rw [mem_append, not_or] at he
  refine ⟨?_, ?_, ?_⟩
  · rw [h.list]
    simp [filter_map, Function.comp_def]
  · intro r hr
    rw [mem_cons, mem_append, mem_map] at hr
    rcases hr with rfl | ⟨r, hr, rfl⟩ | hr
    · rw [h.frame e he.2]
      exact unlinked_cells_self
    · have hmem : r.1 ∈ skip.map Prod.fst := mem_map_of_mem hr
      have hre : r.1 ≠ e := ne_of_mem_of_not_mem hmem he.1
      rw [h.frame r.1 fun hl => hdisj _ hmem _ hl rfl, unlinked_cells_of_ne hre,
        touched_cells_of_ne hre]
      exact hcells r hr
    · exact h.cells r hr
  · intro st hst
    simp only [map_cons, map_append, mem_cons, mem_append, not_or] at hst
    rw [h.frame st hst.2.2, unlinked_cells_of_ne hst.1, touched_cells_of_ne hst.1]

/-- **The scan ends**, with the fates that `scan` gives. -/
theorem exits_scan (now : Tid) (v : ℤ) (recs : List (StatusPtr × WaitStatus)) :
    ∀ {s : Shared} {pre : List StatusPtr}, s.waitList = pre ++ recs.map Prod.fst →
      s.waitList.Nodup → (∀ r ∈ recs, s.statuses.cells r.1 = some r.2) →
      (∀ r ∈ recs, r.2.refCntLock = false) →
      ∃ s', Exits now v s (scanAt (recs.map Prod.fst)) s' ∧
        Fates pre recs (scan now v recs) s s' := by
  have hnil : ∀ (s : Shared) (pre : List StatusPtr), s.waitList = pre → Fates pre [] [] s s :=
    fun s pre hlist => ⟨by simpa using hlist, nofun, fun _ _ => rfl⟩
  fun_induction scan now v recs with
  | case1 =>
    intro s pre hlist hnodup hcells hfree
    exact ⟨s, .leave s, hnil s pre (by simpa using hlist)⟩
  | case2 e w =>
    intro s pre hlist hnodup hcells hfree
    have hcell := hcells (e, w) mem_cons_self
    have hunlocked := hfree (e, w) mem_cons_self
    have hlist1 := (touched_waitList now v s e w).trans hlist
    by_cases hzero : (touch now v w).refCnt = 0
    · rw [if_pos hzero]
      refine ⟨_, exits_unlink hcell hunlocked hzero hlist hnodup nofun (.leave _), ?_⟩
      have hlist2 := unlinked_waitList (w := touch now v w) hlist1
        (touched_waitList now v s e w ▸ hnodup)
      exact Fates.unlink [] [] (nodup_singleton e) nofun (hnil _ _ hlist2)
    · rw [if_neg hzero]
      refine ⟨_, exits_keep hcell hunlocked hzero hlist hnodup (.leave _), ?_⟩
      exact .keep hcell nofun (hnil _ _ hlist1)
  | case3 e w e1 w1 rest hzero ih =>
    intro s pre hlist hnodup hcells hfree
    have hcell := hcells (e, w) mem_cons_self
    have hlist1 := (touched_waitList now v s e w).trans hlist
    have hnodup1 : (touched now v s e w).waitList.Nodup := by rwa [touched_waitList]
    have hrecs := (nodup_append.mp (hlist ▸ hnodup)).2.1
    have hlive : ∀ e' ∈ ((e1, w1) :: rest).map Prod.fst, ∃ w', s.statuses.cells e' = some w' := by
      intro e' he'
      obtain ⟨r, hr, rfl⟩ := mem_map.mp he'
      exact ⟨r.2, hcells r (mem_cons_of_mem _ hr)⟩
    have hlist2 : (unlinked (touched now v s e w) e (touch now v w)).waitList =
        (pre ++ [e1]) ++ rest.map Prod.fst := by
      rw [unlinked_waitList hlist1 hnodup1, append_assoc]
      rfl
    obtain ⟨s', hrun, hfates⟩ := ih hlist2 (hnodup1.erase e) (fun r hr => by
        have hmem : r ∈ (e1, w1) :: rest := mem_cons_of_mem _ hr
        have hre : r.1 ≠ e := ne_of_mem_of_not_mem (mem_map_of_mem hmem) (nodup_cons.mp hrecs).1
        rw [unlinked_cells_of_ne hre, touched_cells_of_ne hre]
        exact hcells r (mem_cons_of_mem _ hmem))
      (fun r hr => hfree r (mem_cons_of_mem _ (mem_cons_of_mem _ hr)))
    refine ⟨s', exits_unlink hcell (hfree (e, w) mem_cons_self) hzero hlist hnodup hlive hrun, ?_⟩
    refine Fates.unlink [(e1, w1)] rest hrecs (fun r hr => hcells r ?_) hfates
    rw [mem_singleton.mp hr]
    exact mem_cons_of_mem _ mem_cons_self
  | case4 e w e1 w1 rest hzero ih =>
    intro s pre hlist hnodup hcells hfree
    have hcell := hcells (e, w) mem_cons_self
    have hnodup1 : (touched now v s e w).waitList.Nodup := by rwa [touched_waitList]
    have hne := (nodup_cons.mp (nodup_append.mp (hlist ▸ hnodup)).2.1).1
    have hlist2 : (touched now v s e w).waitList =
        (pre ++ [e]) ++ ((e1, w1) :: rest).map Prod.fst := by
      rw [touched_waitList, hlist, append_assoc]
      rfl
    obtain ⟨s', hrun, hfates⟩ := ih hlist2 hnodup1 (fun r hr => by
        rw [touched_cells_of_ne (ne_of_mem_of_not_mem (mem_map_of_mem hr) hne)]
        exact hcells r (mem_cons_of_mem _ hr))
      (fun r hr => hfree r (mem_cons_of_mem _ hr))
    exact ⟨s', exits_keep hcell (hfree (e, w) mem_cons_self) hzero hlist hnodup hrun,
      hfates.keep hcell hne⟩

theorem scan_fst (now : Tid) (v : ℤ) (l : List (StatusPtr × WaitStatus)) :
    (scan now v l).map Prod.fst = l.map Prod.fst := by
  fun_induction scan now v l with
  | case1 => rfl
  | case2 e w => rfl
  | case3 e w e1 w1 rest hzero ih => simp only [map_cons, ih]
  | case4 e w e1 w1 rest hzero ih => simp only [map_cons] at ih ⊢; rw [ih]

/-- **Exit bookkeeping.**  Every record of the process is accounted for (`touch`), just those
whose last reference goes away are unlinked and freed, and the others are as they were, in the
same order. -/
structure ExitDone (now : Tid) (v : ℤ) (recs : List (StatusPtr × WaitStatus)) (s s' : Shared) :
    Prop where
  list : s'.waitList = (recs.filter fun r => ¬Gone now r.2).map Prod.fst
  cells : ∀ r ∈ recs, s'.statuses.cells r.1 =
    if Gone now r.2 then none else some (touch now v r.2)
  frame : ∀ st ∉ s.waitList, s'.statuses.cells st = s.statuses.cells st

theorem kept_intended (l : List (StatusPtr × WaitStatus)) :
    ((l.map (intended now v)).filter (·.2.isSome)).map Prod.fst =
      (l.filter fun r => ¬Gone now r.2).map Prod.fst := by
  induction l with
  | nil => rfl
  | cons r l ih =>
    rw [map_cons]
    by_cases hgone : Gone now r.2
    · rw [filter_cons_of_neg (by simp [intended, hgone]), ih,
        filter_cons_of_neg (by simp [hgone])]
    · rw [filter_cons_of_pos (by simp [intended, hgone]),
        filter_cons_of_pos (by simp [hgone]), map_cons, map_cons, ih]
      rfl

theorem Fates.exitDone_iff (hlist : s.waitList = recs.map Prod.fst)
    (h : Fates [] recs (scan now v recs) s s') :
    ExitDone now v recs s s' ↔ scan now v recs = recs.map (intended now v) := by
  constructor
  · intro hdone
    -- both lists say what the cells of `s'` hold
    have hscan : (scan now v recs).map (fun r => (r.1, s'.statuses.cells r.1)) =
        scan now v recs := by
      rw [map_congr_left fun r hr => by rw [h.cells r hr]]
      exact map_id _
    have hrecs : recs.map (fun r => (r.1, s'.statuses.cells r.1)) =
        recs.map (intended now v) := by
      apply map_congr_left
      intro r hr
      rw [hdone.cells r hr]
      rfl
    rw [← hscan, ← hrecs]
    have hfst := congrArg (List.map fun st => (st, s'.statuses.cells st)) (scan_fst now v recs)
    rwa [map_map, map_map] at hfst
  · intro heq
    have hlist' := h.list
    have hcells := h.cells
    rw [heq] at hlist' hcells
    refine ⟨?_, ?_, ?_⟩
    · rw [hlist', nil_append, kept_intended]
    · intro r hr
      exact hcells (intended now v r) (mem_map_of_mem hr)
    · rw [hlist]
      exact h.frame

/-- `handle_exit` comes to the end of its scan. -/
theorem exits_begin (now : Tid) (v : ℤ) (h : OnList s recs) :
    ∃ s', Exits now v s .begin s' ∧ Fates [] recs (scan now v recs) s s' := by
  obtain ⟨s', hrun, hfates⟩ := exits_scan now v recs
    (h.list.trans (nil_append _).symm) h.nodup h.cells h.unlocked
  refine ⟨s', .step ?_ hrun, hfates⟩
  rw [handleExit, h.list, exitAt_head]

/-- **When `handle_exit` covers every record.**  Whatever `wait_list` holds, the scan of a
`handle_exit` that is not interrupted ends, and its outcome is as it should be if and only if the
list is covered. -/
theorem exits_done_iff (now : Tid) (v : ℤ) (s : Shared) (recs : List (StatusPtr × WaitStatus))
    (h : OnList s recs) :
    ∃ s', Exits now v s .begin s' ∧ (ExitDone now v recs s s' ↔ Covered now recs) := by
  obtain ⟨s', hrun, hfates⟩ := exits_begin now v h
  exact ⟨s', hrun, (hfates.exitDone_iff h.list).trans (scan_eq_iff recs)⟩

end Scan

/-- Such a run is one of the system in which only the process itself makes steps. -/
theorem Exits.runs {now : Tid} {v : ℤ} {s s' : Shared} {pc : ExitPc} (h : Exits now v s pc s')
    (c : System) :
    Runs now (c.moved now (.exit v pc) none s) (c.moved now (.exit v .leave) none s') := by
  induction h with
  | leave s => exact Runs.refl ..
  | @step s s1 s' pc pc1 h1 _ ih =>
    have hout : outcome .go now s (.exit v pc) = .next (.exit v pc1) none s1 := h1
    exact (Runs.next (Runs.refl ..) hout).trans ih

/-! ### Two lists -/

/-- Three records: the process 7 is the child of 1 and the parent of 8, and 9 is a child of 1. -/
def sampleRecords : List (StatusPtr × WaitStatus) :=
  [(0, ⟨0, 7, 1, 0, 2, false, none⟩), (1, ⟨0, 8, 7, 0, 1, false, none⟩),
    (2, ⟨0, 9, 1, 0, 2, false, none⟩)]

/-- Two records of children of 7 that have exited. -/
def adjacentRecords : List (StatusPtr × WaitStatus) :=
  [(0, ⟨0, 8, 7, 1, 1, false, none⟩), (1, ⟨0, 9, 7, 1, 1, false, none⟩)]

/-- The state with the given records, at the addresses 0, 1 and so on. -/
def sharedOf (recs : List (StatusPtr × WaitStatus)) : Shared where
  statuses :=
    { next := recs.length
      cells := fun p => recs[p]?.map Prod.snd
      fresh := fun p hp => by rw [List.getElem?_eq_none hp]; rfl }
  waitList := recs.map Prod.fst
  execLock := none
  temporary := 0
  loadVal := 0
  nextTid := 10
  allList := [1, 7]
  workDir := fun _ => false
  garbage := fun _ => noStatus

theorem onList_sampleRecords : OnList (sharedOf sampleRecords) sampleRecords where
  list := rfl
  nodup := by decide
  cells := by simp [sampleRecords, sharedOf]
  unlocked := by simp [sampleRecords]

theorem onList_adjacentRecords : OnList (sharedOf adjacentRecords) adjacentRecords where
  list := rfl
  nodup := by decide
  cells := by simp [adjacentRecords, sharedOf]
  unlocked := by simp [adjacentRecords]

theorem exits_done_iff_sampleRecords : ∃ s', Exits 7 3 (sharedOf sampleRecords) .begin s' ∧
    ExitDone 7 3 sampleRecords (sharedOf sampleRecords) s' := by
  obtain ⟨s', hrun, hiff⟩ := exits_done_iff 7 3 _ _ onList_sampleRecords
  refine ⟨s', hrun, hiff.mpr ?_⟩
  simp [sampleRecords, Covered, Related, Gone]

/-- Behind the record that is unlinked the other one is passed over: it stays in the list, with
its reference. -/
theorem not_exits_done : ¬∀ (now : Tid) (v : ℤ) (s : Shared) (recs : List (StatusPtr × WaitStatus)),
    OnList s recs → ∀ s', Exits now v s .begin s' → ExitDone now v recs s s' := by
  intro hall
  obtain ⟨s', hrun, hfates⟩ := exits_begin 7 3 onList_adjacentRecords
  have hdone := hall 7 3 _ _ onList_adjacentRecords s' hrun
  have hcovered := (scan_eq_iff _).mp ((hfates.exitDone_iff rfl).mp hdone)
  simp [adjacentRecords, Covered, Related, Gone] at hcovered

end Pintos.Process

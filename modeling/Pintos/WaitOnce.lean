import Pintos.ExecLoad
import Pintos.WaitScan

/-! # Each exit status is collected once, by the parent

Runs in which the scans of `wait_list` are not interrupted, except where `process_wait` waits at
`sema_down` (`ScansAlone`).

* `Pc.mayDec`: the process may still decrement `ref_cnt` of an element; an element whose two
  processes may both decrement it has a count of at least 2, and so on (`Refs`).  So an element at
  which a process waits is not unlinked by another one.
* `Knows`: what a process has found out about the element that it uses.
* `Once`: the invariant.  There is at most one status for a child, it is in the list or its parent
  has it, and it is gone when the parent has collected it.
* **`collected_once`**: the result for every such run. -/

namespace Pintos.Process

open Heap Interleaving List Option Process.System

/-! ### Scans that are not interrupted -/

def WaitPc.inScan : WaitPc → Bool
  | .begin => false
  | .down _ => false
  | _ => true

def ExitPc.inScan : ExitPc → Bool
  | .begin => false
  | .leave => false
  | _ => true

/-- The process is in a scan of `wait_list`, and does not wait at `sema_down`. -/
def Pc.inScan : Pc → Bool
  | .wait _ pc => pc.inScan
  | .exit _ pc => pc.inScan
  | _ => false

/-- A process takes a step only if no other one is in a scan. -/
def ScansAlone (c : System) (ev : Tid × Choice) : Prop :=
  ∀ j, j ≠ ev.1 → (c.at j).inScan = false

/-! ### Reference counts -/

def ExitPc.mayDec (l : List StatusPtr) (e : StatusPtr) : ExitPc → Prop
  | .begin => True
  | .readChild x => e = x ∨ e ∈ after l x
  | .readParent x => e = x ∨ e ∈ after l x
  | .setReturn x => e = x ∨ e ∈ after l x
  | .lock x _ => e = x ∨ e ∈ after l x
  | .dec x _ => e = x ∨ e ∈ after l x
  | .unlock x _ => e ∈ after l x
  | .up x => e ∈ after l x
  | .check x => e ∈ after l x
  | .remove x => e ∈ after l x
  | .free _ none => False
  | .free _ (some x) => e ∈ after l x
  | .next x => e ∈ after l x
  | .leave => False

/-- The process may still decrement the count of `e`: it has not called `handle_exit`, or its scan
has not got past `e`. -/
def Pc.mayDec (l : List StatusPtr) (e : StatusPtr) : Pc → Prop
  | .exit _ pc => pc.mayDec l e
  | .dead => False
  | _ => True

/-- The count of `e` is at least the number of processes that may still decrement it. -/
structure Refs (c : System) (e : StatusPtr) (w : WaitStatus) : Prop where
  both : (c.at w.childPid).mayDec c.shared.waitList e →
    (c.at w.parentPid).mayDec c.shared.waitList e → 2 ≤ w.refCnt
  one : (c.at w.childPid).mayDec c.shared.waitList e ∨
    (c.at w.parentPid).mayDec c.shared.waitList e → 1 ≤ w.refCnt

/-! ### The invariant -/

def Listed (c : System) (e : StatusPtr) (w : WaitStatus) : Prop :=
  e ∈ c.shared.waitList ∧ c.shared.statuses.cells e = some w

/-- There is a status at `e` that satisfies `Q`. -/
def Cell (c : System) (e : StatusPtr) (Q : WaitStatus → Prop) : Prop :=
  ∃ w, c.shared.statuses.cells e = some w ∧ Q w

/-- No status for `t` is in the list, and none was collected. -/
structure Unclaimed (c : System) (t : Tid) : Prop where
  listed : ∀ e w, Listed c e w → w.childPid ≠ t
  collected : ∀ j v, .collected t v ∉ c.history j

def ExitPc.Knows (c : System) (i : Tid) (v : ℤ) : ExitPc → Prop
  | .setReturn e => Cell c e fun w => w.childPid = i
  | .lock e true => Cell c e fun w => w.childPid = i ∧ w.returnVal = v
  | .lock e false => Cell c e fun w => w.parentPid = i
  | .dec e true => Cell c e fun w => w.childPid = i ∧ w.returnVal = v
  | .dec e false => Cell c e fun w => w.parentPid = i
  | .unlock e true => Cell c e fun w => w.childPid = i ∧ w.returnVal = v
  | .up e => Cell c e fun w => w.childPid = i ∧ w.returnVal = v
  | .remove e => Cell c e fun w => w.refCnt = 0
  | _ => True

/-- What the process `i` knows where it is. -/
def Knows (c : System) (i : Tid) : Pc → Prop
  | .execute (.malloc t) => .created t ∈ c.history i ∧ Unclaimed c t
  | .execute (.fill t st f) => .created t ∈ c.history i ∧ Unclaimed c t ∧ Cell c st (f.Before i t)
  | .execute (.push t st) =>
    .created t ∈ c.history i ∧ Unclaimed c t ∧ Cell c st (WaitStatus.IsNew i t)
  | .wait t (.readParent e) => Cell c e fun w => w.childPid = t
  | .wait t (.down e) => Cell c e fun w => w.childPid = t ∧ w.parentPid = i
  | .wait t (.remove e) => Cell c e fun w => w.childPid = t ∧ w.parentPid = i ∧
      .exited w.returnVal ∈ c.history t
  | .wait t (.readVal st) => .created t ∈ c.history i ∧ Unclaimed c t ∧
      Cell c st fun w => .exited w.returnVal ∈ c.history t
  | .wait t (.free _ v) => .created t ∈ c.history i ∧ Unclaimed c t ∧ .exited v ∈ c.history t
  | .exit v pc => .exited v ∈ c.history i ∧ pc.Knows c i v
  | _ => True

/-- A status of the list. -/
structure Valid (c : System) (e : StatusPtr) (w : WaitStatus) : Prop where
  created : .created w.childPid ∈ c.history w.parentPid
  told : 0 < w.endP → .exited w.returnVal ∈ c.history w.childPid
  uncollected : ∀ j v, .collected w.childPid v ∉ c.history j
  refs : Refs c e w

def Event.isCollected (t : Tid) : Event → Bool
  | .collected t' _ => t' == t
  | _ => false

/-- The process has called `handle_exit`. -/
def Pc.exiting : Pc → Bool
  | .exit _ _ => true
  | .dead => true
  | _ => false

structure Once (c : System) : Prop where
  list : ListInv c
  tids : TidInv c
  alone : ∀ i j, (c.at i).inScan = true → (c.at j).inScan = true → i = j
  knows : ∀ i, Knows c i (c.at i)
  valid : ∀ e w, Listed c e w → Valid c e w
  distinct : ∀ e e' w w', Listed c e w → Listed c e' w' → w.childPid = w'.childPid → e = e'
  created : ∀ i t, .created t ∈ c.history i → t < c.shared.nextTid ∧ i ≠ t
  creator : ∀ i j t, .created t ∈ c.history i → .created t ∈ c.history j → i = j
  collected : ∀ i t v, .collected t v ∈ c.history i →
    .created t ∈ c.history i ∧ .exited v ∈ c.history t
  once : ∀ i t, (c.history i).countP (Event.isCollected t) ≤ 1
  notYet : ∀ i v, (c.at i).exiting = false → .exited v ∉ c.history i
  exit : ∀ i v v', .exited v ∈ c.history i → .exited v' ∈ c.history i → v = v'

/-! ### Positions in the list -/

section after

variable {l : List StatusPtr} {e x y : StatusPtr}

theorem after_of_succ (hl : l.Nodup) (h : succ l x = some y) : after l x = y :: after l y := by
  induction l with
  | nil => cases h
  | cons z l ih =>
    obtain ⟨hz, hl⟩ := nodup_cons.mp hl
    rcases eq_or_ne z x with rfl | hzx
    · rw [succ, after_cons_self] at h
      cases l with
      | nil => cases h
      | cons u l =>
        obtain rfl : u = y := some.inj h
        rw [after_cons_self, after_cons_of_ne (fun hzu => hz (by simp [hzu])), after_cons_self]
    · rw [succ, after_cons_of_ne hzx] at h
      have hzy : z ≠ y := by
        rintro rfl
        exact hz (mem_of_succ h)
      rw [after_cons_of_ne hzx, after_cons_of_ne hzy]
      exact ih hl h

theorem mem_after_erase (hx : x ≠ y) (h : e ∈ after (l.erase x) y) : e ∈ after l y := by
  induction l with
  | nil => exact h
  | cons z l ih =>
    rcases eq_or_ne z x with rfl | hzx
    · rw [erase_cons_head] at h
      rwa [after_cons_of_ne hx]
    · rw [erase_cons_tail (by simpa using hzx)] at h
      rcases eq_or_ne z y with rfl | hzy
      · rw [after_cons_self] at h ⊢
        exact mem_of_mem_erase h
      · rw [after_cons_of_ne hzy] at h ⊢
        exact ih h

end after

variable {q : Pc} {s : Shared} {now : Tid} {w : WaitStatus}

/-- A process only goes on: what it may decrement after a step it could decrement before. -/
theorem mayDec_use {s' : Shared} {pc : Pc} {new : Option Event} {x : StatusPtr}
    (hnodup : s.waitList.Nodup) (hiter : ∀ e, q.iter = some e → e ∈ s.waitList)
    (h : Use now s x w q pc new s') {e : StatusPtr} (hpc : pc.mayDec s'.waitList e) :
    q.mayDec s.waitList e := by
  cases h with
  | exitChild | exitUnlock | exitCheck => split at hpc <;> exact hpc
  | exitParent =>
    split at hpc
    · exact hpc
    · exact .inr hpc
  | exitReturn | exitLock | exitUp | exitFree | exitLast => exact hpc
  | exitDec => exact .inr hpc
  | exitRemove =>
    cases hs : succ s.waitList x with
    | none =>
      rw [hs] at hpc
      exact hpc.elim
    | some y =>
      rw [hs] at hpc
      have hmem : e ∈ after s.waitList y := mem_after_erase (succ_ne hnodup hs).symm hpc
      change e ∈ after s.waitList x
      rw [after_of_succ hnodup hs]
      exact mem_cons_of_mem _ hmem
  | exitNext hnext =>
    rw [Shared.listNext, if_pos (hiter x rfl)] at hnext
    change e ∈ after s.waitList x
    rw [after_of_succ hnodup hnext]
    exact mem_cons.mpr hpc
  | exitEnd => exact hpc.elim
  | _ => trivial

theorem mayDec_step {ch : Choice} {s' : Shared} {pc : Pc} {new : Option Event}
    (hnodup : s.waitList.Nodup) (hiter : ∀ e, q.iter = some e → e ∈ s.waitList)
    (h : outcome ch now s q = .next pc new s') {e : StatusPtr} (hpc : pc.mayDec s'.waitList e) :
    q.mayDec s.waitList e := by
  cases outcome_step h with
  | use _ hstep => exact mayDec_use hnodup hiter hstep hpc
  | leave => exact hpc.elim
  | _ => trivial

/-! ### What a step leaves -/

/-- What the step of `i` from `c` to `c'` leaves of the statuses. -/
structure Framed (c c' : System) (i : Tid) : Prop where
  /-- A status that `i` does not use is the same. -/
  cells : ∀ e w, c.shared.statuses.cells e = some w → (c.at i).iter ≠ some e →
    (c.at i).owned ≠ some e → c'.shared.statuses.cells e = some w
  /-- A listed status names the same processes. -/
  ids : ∀ e w, Listed c e w →
    Cell c' e fun w' => w'.childPid = w.childPid ∧ w'.parentPid = w.parentPid
  /-- A status that is listed afterwards was listed before, or `i` has inserted it. -/
  back : ∀ e w', Listed c' e w' →
    (∃ w, Listed c e w ∧ (w' = w ∨ ((c.at i).iter = some e ∧ Edit w (c.at i) w'))) ∨
      ∃ t, c.at i = .execute (.push t e) ∧ c.shared.statuses.cells e = some w'

variable {w' : WaitStatus}

theorem Edit.ids (h : Edit w q w') : w'.childPid = w.childPid ∧ w'.parentPid = w.parentPid := by
  cases h <;> exact ⟨rfl, rfl⟩

variable {j t : Tid} {v : ℤ}

section step

variable {c : System} {i : Tid} {ch : Choice} {pc : Pc} {new : Option Event} {s' : Shared}

theorem framed (hc : ListInv c) (h : outcome ch i c.shared (c.at i) = .next pc new s') :
    Framed c (c.moved i pc new s') i := by
  have hstep := outcome_listStep (hc.iter i) h
  have hshared : (c.moved i pc new s').shared = s' := rfl
  have hiter : ∀ e, (c.at i).unlinks = some e → (c.at i).iter = some e := fun e =>
    Pc.iter_of_unlinks
  obtain ⟨hnodup, hlive, hlisted, howned, -⟩ := hc
  cases hstep with
  | quiet cells list iter owned | push t st pushes cells list iter owned =>
    constructor <;> grind [Listed, Cell]
  | alloc w cells list iter owned => constructor <;> grind [Listed, Cell, alloc_of_live]
  | fill st w w' own live cells list iter owned =>
    constructor <;> grind [Listed, Cell, store_of_ne]
  | edit e w w' stands live write cells list iter owned =>
    have hids := write.ids
    constructor <;> grind [Listed, Cell, store_self, store_of_ne]
  | unlink e w unlinks live cells list iter owned =>
    constructor <;> grind [Listed, Cell, store_self, store_of_ne]
  | free st own cells list iter owned => constructor <;> grind [Listed, Cell, free_of_ne]

theorem outcome_new (h : outcome ch now s q = .next pc new s') :
    (∀ t, new = some (.created t) → q = .execute .create ∧ t = s.nextTid ∧ s'.nextTid = s.nextTid + 1) ∧
      (∀ t v, new = some (.collected t v) → ∃ st, q = .wait t (.free st v)) ∧
      s.nextTid ≤ s'.nextTid := by
  cases outcome_step h with
  | create =>
    refine ⟨fun t ht => ?_, fun _ _ ht => (by cases ht), by simp⟩
    cases ht
    exact ⟨rfl, rfl, rfl⟩
  | use _ hstep =>
    cases hstep with
    | waitFree =>
      refine ⟨fun _ ht => (by cases ht), fun t v ht => ?_, le_rfl⟩
      cases ht
      exact ⟨_, rfl⟩
    | _ => exact ⟨fun _ ht => (by cases ht), fun _ _ ht => (by cases ht), le_rfl⟩
  | _ => exact ⟨fun _ ht => (by cases ht), fun _ _ ht => (by cases ht), le_rfl⟩

/-- A process calls `handle_exit` once. -/
theorem outcome_exited (h : outcome ch now s q = .next pc new s') :
    (pc.exiting = false → q.exiting = false ∧ ∀ v, new ≠ some (.exited v)) ∧
      ∀ v, new = some (.exited v) → q.exiting = false := by
  have hquiet : ∀ {b : Bool}, (b = false → b = false ∧ ∀ v, none ≠ some (Event.exited v)) ∧
      ∀ v, none = some (Event.exited v) → b = false := fun {b} =>
    ⟨fun hb => ⟨hb, fun v hv => by cases hv⟩, fun v hv => by cases hv⟩
  cases outcome_step h with
  | notLoaded | exit => exact ⟨fun hpc => (by cases hpc), fun _ _ => rfl⟩
  | use _ hstep =>
    cases hstep with
    | waitFree | waitEnd => exact ⟨fun _ => ⟨rfl, fun v hv => by cases hv⟩, fun _ _ => rfl⟩
    | _ => exact hquiet
  | _ => first | exact hquiet | exact ⟨fun _ => ⟨rfl, fun v hv => by cases hv⟩, fun _ _ => rfl⟩

/-- A process that waits at a status keeps its count above zero, so that only the process itself
unlinks it. -/
theorem Once.unlinksAlone (hc : Once c) (halone : ScansAlone c (i, ch)) : UnlinksAlone c (i, ch) := by
  intro e he j hj hiter
  have hmem : e ∈ c.shared.waitList := hc.list.iter j e hiter
  -- The other process is not in a scan, so that it waits at `sema_down`.
  obtain ⟨t, hdown⟩ : ∃ t, c.at j = .wait t (.down e) := by
    have hout := halone j hj
    generalize c.at j = q at hiter hout
    cases q with
    | wait t q =>
      cases q with
      | begin => cases hiter
      | down x =>
        cases hiter
        exact ⟨t, rfl⟩
      | _ => cases hout
    | exit v q =>
      cases q with
      | begin | leave => cases hiter
      | _ => cases hout
    | _ => cases hiter
  have hknows := hc.knows j
  rw [hdown] at hknows
  obtain ⟨w, hw, -, hparent⟩ : Cell c e fun w => w.childPid = t ∧ w.parentPid = j := hknows
  have hi := hc.knows i
  generalize hq : c.at i = q at he hi
  cases q with
  | wait t' q =>
    cases q <;> cases he
    obtain ⟨w', hw', -, hparent', -⟩ := hi
    obtain rfl : w = w' := some.inj (hw.symm.trans hw')
    exact hj (hparent.symm.trans hparent')
  | exit v q =>
    cases q <;> cases he
    obtain ⟨w', hw', hzero⟩ := hi.2
    obtain rfl : w = w' := some.inj (hw.symm.trans hw')
    have hone := (hc.valid e w ⟨hmem, hw⟩).refs.one (.inr (by rw [hparent, hdown]; trivial))
    rw [hzero] at hone
    exact absurd hone (by decide)
  | _ => cases he

/-- A child stays unclaimed if the step neither inserts nor collects its status. -/
theorem Unclaimed.step (hc : Once c) (h : outcome ch i c.shared (c.at i) = .next pc new s')
    (hpush : ∀ e, c.at i ≠ .execute (.push t e)) (hnew : ∀ v, new ≠ some (.collected t v))
    (ht : Unclaimed c t) : Unclaimed (c.moved i pc new s') t := by
  have hi := hc.knows i
  refine ⟨fun e w' hw' hchild => ?_, fun k v hk => ?_⟩
  · rcases (framed hc.list h).back e w' hw' with ⟨w, hw, hedit⟩ | ⟨t', hpush', hcell⟩
    · refine ht.listed e w hw ?_
      rcases hedit with rfl | ⟨-, hedit⟩
      · exact hchild
      · exact hedit.ids.1.symm.trans hchild
    · rw [hpush'] at hi
      obtain ⟨-, -, w, hw, hisNew⟩ := hi
      obtain rfl : w = w' := some.inj (hw.symm.trans hcell)
      rw [hisNew.childPid] at hchild
      exact hpush e (hchild ▸ hpush')
  · rcases of_mem_moved_history hk with ⟨rfl, he⟩ | hold
    · exact hnew v he
    · exact ht.collected k v hold

theorem Unclaimed.other (hc : Once c) (h : outcome ch i c.shared (c.at i) = .next pc new s')
    (hj : j ≠ i) (hcreated : .created t ∈ c.history j) (ht : Unclaimed c t) :
    Unclaimed (c.moved i pc new s') t := by
  have hi := hc.knows i
  have hcreator : .created t ∉ c.history i := fun hi => hj (hc.creator _ _ _ hcreated hi)
  refine ht.step hc h (fun e hpush => ?_) (fun v hnew => ?_)
  · rw [hpush] at hi
    exact hcreator hi.1
  · obtain ⟨st, hfree⟩ := (outcome_new h).2.1 t v hnew
    rw [hfree] at hi
    exact hcreator hi.1

theorem Once.knows_other (hc : Once c) (halone : ScansAlone c (i, ch))
    (h : outcome ch i c.shared (c.at i) = .next pc new s') (hj : j ≠ i) :
    Knows (c.moved i pc new s') j (c.at j) := by
  have hknows := hc.knows j
  have hout := halone j hj
  have hframe := framed hc.list h
  have hhist : ∀ {x k}, x ∈ c.history k → x ∈ (c.moved i pc new s').history k := fun hx =>
    mem_moved_history hx
  -- The status that the process makes is used by no other one.
  have hkeep : ∀ {st : StatusPtr} {Q : WaitStatus → Prop}, (c.at j).owned = some st → Cell c st Q →
      Cell (c.moved i pc new s') st Q := by
    rintro st Q hown ⟨w, hw, hQ⟩
    refine ⟨w, hframe.cells st w hw (fun hit => ?_) (fun how => ?_), hQ⟩
    · exact (hc.list.owned j st hown).2 (hc.list.iter i st hit)
    · exact hj (hc.list.apart j i st hown how)
  cases hq : c.at j with
  | execute q =>
    rw [hq] at hknows hkeep
    cases q with
    | malloc t => exact ⟨hhist hknows.1, hknows.2.other hc h hj hknows.1⟩
    | fill t st f | push t st =>
      exact ⟨hhist hknows.1, hknows.2.1.other hc h hj hknows.1, hkeep rfl hknows.2.2⟩
    | _ => trivial
  | wait t q =>
    rw [hq] at hknows hout
    cases q with
    | begin => trivial
    | down e =>
      obtain ⟨w, hw, hchild, hparent⟩ : Cell c e fun w => w.childPid = t ∧ w.parentPid = j :=
        hknows
      have hmem : e ∈ c.shared.waitList := hc.list.iter j e (by rw [hq]; rfl)
      obtain ⟨w', hw', hchild', hparent'⟩ := hframe.ids e w ⟨hmem, hw⟩
      exact ⟨w', hw', hchild'.trans hchild, hparent'.trans hparent⟩
    | _ => cases hout
  | exit v q =>
    rw [hq] at hknows hout
    cases q with
    | begin | leave => exact ⟨hhist hknows.1, trivial⟩
    | _ => cases hout
  | _ => trivial

variable {e : StatusPtr}

/-- No status for the child is left in the list when its parent has unlinked one. -/
theorem Once.unclaimed_remove (hc : Once c) (hq : c.at i = .wait t (.remove e))
    (hw : Listed c e w) (hchild : w.childPid = t)
    (hout : outcome ch i c.shared (c.at i) = .next pc none (c.shared.listRemove e w)) :
    Unclaimed (c.moved i pc none (c.shared.listRemove e w)) t := by
  refine ⟨fun e' w' hw' hchild' => ?_, fun k v hk => ?_⟩
  · rcases (framed hc.list hout).back e' w' hw' with ⟨u, hu, hedit⟩ | ⟨t', hpush, -⟩
    · have hu' : u.childPid = w'.childPid := by
        rcases hedit with rfl | ⟨-, hedit⟩
        · rfl
        · exact hedit.ids.1.symm
      have he : e' = e := hc.distinct e' e u w hu hw (hu'.trans (hchild'.trans hchild.symm))
      exact hc.list.nodup.not_mem_erase (he ▸ hw'.1)
    · rw [hq] at hpush
      cases hpush
  · rcases of_mem_moved_history hk with ⟨-, he⟩ | hold
    · cases he
    · exact (hc.valid e w hw).uncollected k v (hchild ▸ hold)

theorem Once.knows_use (hc : Once c) (hout : outcome ch i c.shared (c.at i) = .next pc new s')
    (hq : c.at i = q) (hw : c.shared.statuses.cells e = some w)
    (h : Use i c.shared e w q pc new s') : Knows (c.moved i pc new s') i pc := by
  have hknows := hc.knows i
  have hiter := hc.list.iter i
  rw [hq] at hknows hiter
  have hhist : ∀ {pc x k}, x ∈ c.history k → x ∈ (c.moved i pc new s').history k := fun hx =>
    mem_moved_history hx
  have hcell : ∀ {Q : WaitStatus → Prop}, Cell c e Q → Q w := by
    rintro Q ⟨w', hw', hQ⟩
    cases hw.symm.trans hw'
    exact hQ
  cases h with
  | fill =>
    rename_i f
    obtain ⟨hcreated, hun, hbefore⟩ := hknows
    have hun' := hun.step hc hout (fun e he => by rw [hq] at he; cases he)
      (fun v he => by cases he)
    have hmade : (f.after _ e).Made i (f.set i _ w) := Field.made_after (hcell hbefore)
    cases f <;> exact ⟨hhist hcreated, hun', _, store_self hw, hmade⟩
  | waitChild =>
    split
    · exact ⟨w, hw, ‹_›⟩
    · trivial
  | waitParent =>
    split
    · exact ⟨w, hw, hcell hknows, ‹_›⟩
    · trivial
  | waitDown hend =>
    obtain ⟨hchild, hparent⟩ := hcell hknows
    have htold := (hc.valid e w ⟨hiter e rfl, hw⟩).told (Nat.pos_of_ne_zero hend)
    rw [hchild] at htold
    exact ⟨_, store_self hw, hchild, hparent, hhist htold⟩
  | waitRemove hmem =>
    obtain ⟨hchild, hparent, htold⟩ := hcell hknows
    have hcreated := (hc.valid e w ⟨hmem, hw⟩).created
    rw [hchild, hparent] at hcreated
    exact ⟨hhist hcreated, hc.unclaimed_remove hq ⟨hmem, hw⟩ hchild hout, _, store_self hw,
      hhist htold⟩
  | waitVal =>
    obtain ⟨hcreated, hun, htold⟩ := hknows
    exact ⟨hhist hcreated, hun.step hc hout (fun e he => by rw [hq] at he; cases he)
      (fun v he => by cases he), hhist (hcell htold)⟩
  | exitChild | exitParent | exitCheck =>
    split
    · exact ⟨hhist hknows.1, w, hw, ‹_›⟩
    · exact ⟨hhist hknows.1, trivial⟩
  | exitReturn => exact ⟨hhist hknows.1, _, store_self hw, hcell hknows.2, rfl⟩
  | exitLock =>
    rename_i own _
    cases own <;> exact ⟨hhist hknows.1, _, store_self hw, hcell hknows.2⟩
  | exitDec | exitUnlock =>
    rename_i own
    cases own with
    | true => exact ⟨hhist hknows.1, _, store_self hw, hcell hknows.2⟩
    | false => exact ⟨hhist hknows.1, trivial⟩
  | _ => first | trivial | exact ⟨hhist hknows.1, trivial⟩

theorem Once.knows_self (hc : Once c) (h : outcome ch i c.shared (c.at i) = .next pc new s') :
    Knows (c.moved i pc new s') i pc := by
  have hknows := hc.knows i
  generalize hq : c.at i = q at hknows
  have hout : outcome ch i c.shared q = .next pc new s' := hq ▸ h
  cases outcome_step hout with
  | use hw hstep => exact hc.knows_use h hq hw hstep
  | create =>
    refine ⟨by simp, fun e w hw hchild => ?_, fun k v hk => ?_⟩
    · have := (hc.created _ _ (hc.valid e w hw).created).1
      rw [hchild] at this
      exact lt_irrefl _ this
    · rcases of_mem_moved_history hk with ⟨-, he⟩ | hold
      · cases he
      · exact lt_irrefl _ (hc.created _ _ (hc.collected _ _ _ hold).1).1
  | malloc =>
    exact ⟨mem_moved_history hknows.1, hknows.2.step hc h
      (fun e he => by rw [hq] at he; cases he) (fun v he => by cases he), _, alloc_self, trivial⟩
  | exit | notLoaded => exact ⟨by simp, trivial⟩
  | exitBegin | exitNone => exact ⟨mem_moved_history hknows.1, trivial⟩
  | _ => trivial

theorem mayDec_of_not_inScan {l l' : List StatusPtr} (hq : q.inScan = false)
    (h : q.mayDec l e) : q.mayDec l' e := by
  cases q with
  | exit v q =>
    cases q with
    | begin => trivial
    | leave => exact h
    | _ => cases hq
  | dead => exact h
  | _ => trivial

section

variable (hc : Once c)
include hc

section

variable (halone : ScansAlone c (i, ch)) (h : outcome ch i c.shared (c.at i) = .next pc new s')
include halone h

theorem Once.mayDec_mono {x : Tid}
    (hx : ((c.moved i pc new s').at x).mayDec s'.waitList e) :
    (c.at x).mayDec c.shared.waitList e := by
  rcases eq_or_ne x i with rfl | hne
  · rw [moved_at_self] at hx
    exact mayDec_step hc.list.nodup (hc.list.iter x) h hx
  · rw [moved_at_of_ne hne] at hx
    exact mayDec_of_not_inScan (halone x hne) hx

theorem Once.refs_of_eq (hw : Listed c e w)
    (hchild : w'.childPid = w.childPid) (hparent : w'.parentPid = w.parentPid)
    (hcnt : w'.refCnt = w.refCnt) : Refs (c.moved i pc new s') e w' := by
  have hrefs := (hc.valid e w hw).refs
  refine ⟨fun h1 h2 => ?_, fun h1 => ?_⟩
  · rw [hchild] at h1
    rw [hparent] at h2
    rw [hcnt]
    exact hrefs.both (hc.mayDec_mono halone h h1) (hc.mayDec_mono halone h h2)
  · rw [hchild, hparent] at h1
    rw [hcnt]
    exact hrefs.one (h1.imp (hc.mayDec_mono halone h) (hc.mayDec_mono halone h))

theorem Once.refs_of_dec {own : Bool} (hq : c.at i = .exit v (.dec e own)) (hw : Listed c e w) :
    Refs (c.moved i pc new s') e { w with refCnt := w.refCnt - 1 } := by
  have hvalid := hc.valid e w hw
  have hown : (w.childPid = i ∨ w.parentPid = i) := by
    have hknows := hc.knows i
    rw [hq] at hknows
    cases own with
    | true =>
      obtain ⟨w', hw', hchild, -⟩ := hknows.2
      obtain rfl : w = w' := some.inj (hw.2.symm.trans hw')
      exact .inl hchild
    | false =>
      obtain ⟨w', hw', hparent⟩ := hknows.2
      obtain rfl : w = w' := some.inj (hw.2.symm.trans hw')
      exact .inr hparent
  have hbefore : (c.at i).mayDec c.shared.waitList e := by
    rw [hq]
    exact .inl rfl
  have hafter : ¬ ((c.moved i pc new s').at i).mayDec s'.waitList e := by
    rw [moved_at_self]
    rw [hq] at h
    obtain ⟨u, -, h⟩ := access_eq_next h
    cases h
    exact notMem_after hc.list.nodup
  refine ⟨fun h1 h2 => ?_, fun h1 => ?_⟩
  · rcases hown with hi | hi
    · exact absurd (hi ▸ h1) hafter
    · exact absurd (hi ▸ h2) hafter
  · have htwo : 2 ≤ w.refCnt := by
      rcases hown with hi | hi <;> rcases h1 with h1 | h1
      · exact absurd (hi ▸ h1) hafter
      · exact hvalid.refs.both (hi ▸ hbefore) (hc.mayDec_mono halone h h1)
      · exact hvalid.refs.both (hc.mayDec_mono halone h h1) (hi ▸ hbefore)
      · exact absurd (hi ▸ h1) hafter
    change 1 ≤ w.refCnt - 1
    omega

theorem Once.valid_step
    (hw' : Listed (c.moved i pc new s') e w') : Valid (c.moved i pc new s') e w' := by
  have hknows := hc.knows i
  have hhist : ∀ {x k}, x ∈ c.history k → x ∈ (c.moved i pc new s').history k := fun hx =>
    mem_moved_history hx
  -- What is collected in this step was not in the list.
  have hfresh : ∀ {w : WaitStatus}, Listed c e w →
      ∀ j v, .collected w.childPid v ∉ (c.moved i pc new s').history j := by
    intro w hw j v hj
    rcases of_mem_moved_history hj with ⟨rfl, hnew⟩ | hold
    · obtain ⟨st, hfree⟩ := (outcome_new h).2.1 _ _ hnew
      rw [hfree] at hknows
      exact hknows.2.1.listed e w hw rfl
    · exact (hc.valid e w hw).uncollected j v hold
  rcases (framed hc.list h).back e w' hw' with ⟨w, hw, rfl | ⟨hiter, hedit⟩⟩ | ⟨t, hpush, hcell⟩
  · have hvalid := hc.valid e w' hw
    exact ⟨hhist hvalid.created, fun hpos => hhist (hvalid.told hpos), hfresh hw,
      hc.refs_of_eq halone h hw rfl rfl rfl⟩
  · have hvalid := hc.valid e w hw
    have hcreated := hhist hvalid.created
    have hun := hfresh hw
    have htold : 0 < w.endP → .exited w.returnVal ∈ (c.moved i pc new s').history w.childPid :=
      fun hpos => hhist (hvalid.told hpos)
    generalize hq : c.at i = q at hedit
    rw [hq] at hknows hiter
    cases hedit with
    | down t x hend =>
      exact ⟨hcreated, fun _ => htold (Nat.pos_of_ne_zero hend), hun,
        hc.refs_of_eq halone h hw rfl rfl rfl⟩
    | setReturn v x =>
      cases hiter
      obtain ⟨hexit, u, hu, hchild⟩ := hknows
      obtain rfl : w = u := some.inj (hw.2.symm.trans hu)
      exact ⟨hcreated, fun _ => hchild ▸ hhist hexit, hun,
        hc.refs_of_eq halone h hw rfl rfl rfl⟩
    | lock v x own | unlock v x own =>
      exact ⟨hcreated, htold, hun, hc.refs_of_eq halone h hw rfl rfl rfl⟩
    | dec v x own =>
      cases hiter
      exact ⟨hcreated, htold, hun, hc.refs_of_dec halone h hq hw⟩
    | up v x =>
      cases hiter
      obtain ⟨hexit, u, hu, hchild, hval⟩ := hknows
      obtain rfl : w = u := some.inj (hw.2.symm.trans hu)
      refine ⟨hcreated, fun _ => ?_, hun, hc.refs_of_eq halone h hw rfl rfl rfl⟩
      rw [hval, hchild]
      exact hhist hexit
  · rw [hpush] at hknows
    obtain ⟨hcreated, hun, u, hu, hnew⟩ := hknows
    obtain rfl : w' = u := some.inj (hcell.symm.trans hu)
    refine ⟨?_, fun hpos => ?_, fun j v hj => ?_, fun _ _ => ?_, fun _ => ?_⟩
    · rw [hnew.childPid, hnew.parentPid]
      exact hhist hcreated
    · rw [hnew.endP] at hpos
      exact absurd hpos (lt_irrefl 0)
    · rw [hnew.childPid] at hj
      rcases of_mem_moved_history hj with ⟨rfl, he⟩ | hold
      · obtain ⟨st, hfree⟩ := (outcome_new h).2.1 _ _ he
        rw [hpush] at hfree
        cases hfree
      · exact hun.collected j v hold
    · rw [hnew.refCnt]
    · rw [hnew.refCnt]
      decide

end

section

variable (h : outcome ch i c.shared (c.at i) = .next pc new s')
include h

theorem Once.distinct_step {e' : StatusPtr} (hw : Listed (c.moved i pc new s') e w)
    (hw' : Listed (c.moved i pc new s') e' w') (heq : w.childPid = w'.childPid) : e = e' := by
  have hback := (framed hc.list h).back
  -- The child of a status that was listed, and that of one that is inserted.
  have hold : ∀ {e : StatusPtr} {w : WaitStatus}, (∃ u, Listed c e u ∧ (w = u ∨
      ((c.at i).iter = some e ∧ Edit u (c.at i) w))) → ∃ u, Listed c e u ∧ u.childPid = w.childPid := by
    rintro e w ⟨u, hu, rfl | ⟨-, hedit⟩⟩
    · exact ⟨_, hu, rfl⟩
    · exact ⟨u, hu, hedit.ids.1.symm⟩
  have hnew : ∀ {e : StatusPtr} {w : WaitStatus}, (∃ t, c.at i = .execute (.push t e) ∧
      c.shared.statuses.cells e = some w) → Unclaimed c w.childPid := by
    rintro e w ⟨t, hpush, hcell⟩
    have hknows := hc.knows i
    rw [hpush] at hknows
    obtain ⟨-, hun, u, hu, hisNew⟩ := hknows
    obtain rfl : w = u := some.inj (hcell.symm.trans hu)
    rw [hisNew.childPid]
    exact hun
  rcases hback e w hw with h1 | h1 <;> rcases hback e' w' hw' with h2 | h2
  · obtain ⟨u, hu, hchild⟩ := hold h1
    obtain ⟨u', hu', hchild'⟩ := hold h2
    exact hc.distinct e e' u u' hu hu' (hchild.trans (heq.trans hchild'.symm))
  · obtain ⟨u, hu, hchild⟩ := hold h1
    exact absurd (hchild.trans heq) ((hnew h2).listed e u hu)
  · obtain ⟨u', hu', hchild'⟩ := hold h2
    exact absurd (hchild'.trans heq.symm) ((hnew h1).listed e' u' hu')
  · obtain ⟨t, hpush, -⟩ := h1
    obtain ⟨t', hpush', -⟩ := h2
    rw [hpush] at hpush'
    cases hpush'
    rfl

theorem Once.created_step (ht : .created t ∈ (c.moved i pc new s').history j) :
    t < s'.nextTid ∧ j ≠ t := by
  obtain ⟨hcreate, -, hle⟩ := outcome_new h
  rcases of_mem_moved_history ht with ⟨rfl, he⟩ | hold
  · obtain ⟨hq, rfl, hnext⟩ := hcreate t he
    refine ⟨by rw [hnext]; exact lt_add_one _, fun heq => ?_⟩
    have := hc.tids.fresh j heq.ge
    rw [phase, hq] at this
    cases this
  · obtain ⟨hlt, hne⟩ := hc.created j t hold
    exact ⟨lt_of_lt_of_le hlt hle, hne⟩

theorem Once.creator_step {k : Tid} (hj : .created t ∈ (c.moved i pc new s').history j)
    (hk : .created t ∈ (c.moved i pc new s').history k) : j = k := by
  -- A new identifier is in no history.
  have hfresh : ∀ {k}, new = some (.created t) → .created t ∉ c.history k := by
    intro k he hk
    obtain ⟨-, rfl, -⟩ := (outcome_new h).1 t he
    exact lt_irrefl _ (hc.created k _ hk).1
  rcases of_mem_moved_history hj with ⟨hji, he⟩ | hj'
  · rcases of_mem_moved_history hk with ⟨hki, -⟩ | hk'
    · exact hji.trans hki.symm
    · exact absurd hk' (hfresh he)
  · rcases of_mem_moved_history hk with ⟨-, he⟩ | hk'
    · exact absurd hj' (hfresh he)
    · exact hc.creator j k t hj' hk'

theorem Once.collected_step (hj : .collected t v ∈ (c.moved i pc new s').history j) :
    .created t ∈ (c.moved i pc new s').history j ∧
      .exited v ∈ (c.moved i pc new s').history t := by
  rcases of_mem_moved_history hj with ⟨rfl, he⟩ | hj
  · obtain ⟨st, hfree⟩ := (outcome_new h).2.1 t v he
    have hknows := hc.knows j
    rw [hfree] at hknows
    exact ⟨mem_moved_history hknows.1, mem_moved_history hknows.2.2⟩
  · obtain ⟨hcreated, hexited⟩ := hc.collected j t v hj
    exact ⟨mem_moved_history hcreated, mem_moved_history hexited⟩

theorem Once.once_step (j t : Tid) :
    ((c.moved i pc new s').history j).countP (Event.isCollected t) ≤ 1 := by
  rcases eq_or_ne j i with rfl | hj
  · rw [moved_history_self, countP_append]
    by_cases hnew : ∃ v, new = some (.collected t v)
    · obtain ⟨v, rfl⟩ := hnew
      obtain ⟨st, hfree⟩ := (outcome_new h).2.1 t v rfl
      have hknows := hc.knows j
      rw [hfree] at hknows
      have hzero : (c.history j).countP (Event.isCollected t) = 0 := by
        refine countP_eq_zero.mpr fun x hx hcol => ?_
        cases x with
        | collected t' v' =>
          obtain rfl : t' = t := beq_iff_eq.mp hcol
          exact hknows.2.1.collected j v' hx
        | _ => cases hcol
      rw [hzero]
      exact countP_le_length
    · have hzero : new.toList.countP (Event.isCollected t) = 0 := by
        refine countP_eq_zero.mpr fun x hx hcol => ?_
        cases x with
        | collected t' v' =>
          obtain rfl : t' = t := beq_iff_eq.mp hcol
          exact hnew ⟨v', mem_toList.mp hx⟩
        | _ => cases hcol
      rw [hzero, zero_add]
      exact hc.once j t
  · rw [moved_history_of_ne hj]
    exact hc.once j t

theorem Once.notYet_step (j : Tid) (v : ℤ) (hj : ((c.moved i pc new s').at j).exiting = false) :
    .exited v ∉ (c.moved i pc new s').history j := by
  intro hv
  rcases eq_or_ne j i with rfl | hne
  · rw [moved_at_self] at hj
    obtain ⟨hq, hnew⟩ := (outcome_exited h).1 hj
    rcases of_mem_moved_history hv with ⟨-, he⟩ | hold
    · exact hnew v he
    · exact hc.notYet j v hq hold
  · rw [moved_at_of_ne hne] at hj
    rw [moved_history_of_ne hne] at hv
    exact hc.notYet j v hj hv

theorem Once.exit_step {v' : ℤ} (hv : .exited v ∈ (c.moved i pc new s').history j)
    (hv' : .exited v' ∈ (c.moved i pc new s').history j) : v = v' := by
  have hfirst : ∀ {v}, new = some (.exited v) → ∀ v', .exited v' ∉ c.history i := fun he v' =>
    hc.notYet i v' ((outcome_exited h).2 _ he)
  rcases of_mem_moved_history hv with ⟨hji, he⟩ | hold
  · rcases of_mem_moved_history hv' with ⟨-, he'⟩ | hold'
    · rw [he] at he'
      cases he'
      rfl
    · exact absurd (hji ▸ hold') (hfirst he v')
  · rcases of_mem_moved_history hv' with ⟨hji, he'⟩ | hold'
    · exact absurd (hji ▸ hold) (hfirst he' v)
    · exact hc.exit j v v' hold hold'

end

/-- **The invariant is kept** by a step that interrupts no scan. -/
theorem Once.step (halone : ScansAlone c (i, ch))
    (h : outcome ch i c.shared (c.at i) = .next pc new s') : Once (c.moved i pc new s') where
  list := hc.list.step (hc.unlinksAlone halone) h
  tids := hc.tids.step (moved c i pc new s') rfl rfl (outcome_loadStep h)
  alone j k hj hk := by
    have hi : ∀ {j}, ((c.moved i pc new s').at j).inScan = true → j = i := by
      intro j hj
      by_contra hne
      rw [moved_at_of_ne hne, halone j hne] at hj
      cases hj
    rw [hi hj, hi hk]
  knows j := by
    rcases eq_or_ne j i with rfl | hj
    · rw [moved_at_self]
      exact hc.knows_self h
    · rw [moved_at_of_ne hj]
      exact hc.knows_other halone h hj
  valid e w := hc.valid_step halone h
  distinct e e' w w' := hc.distinct_step h
  created j t := hc.created_step h
  creator j k t := hc.creator_step h
  collected j t v := hc.collected_step h
  once := hc.once_step h
  notYet := hc.notYet_step h
  exit j v v' := hc.exit_step h

end

end step

theorem once_boot (n : ℕ) (garbage : StatusPtr → WaitStatus) : Once (boot n garbage) := by
  have hat : ∀ i, (boot n garbage).at i = .user ∨ (boot n garbage).at i = .unborn := by
    intro i
    rcases eq_or_ne i 1 with rfl | hi
    · exact .inl rfl
    · exact .inr (boot_at_of_ne hi)
  have hnone : ∀ e w, ¬ Listed (boot n garbage) e w := fun e w h => not_mem_nil h.1
  exact
    { list := listInv_boot n garbage
      tids := tidInv_boot n garbage
      alone := fun i j hi => by
        rcases hat i with h | h <;> rw [h] at hi <;> cases hi
      knows := fun i => by
        rcases hat i with h | h <;> rw [h] <;> trivial
      valid := fun e w h => absurd h (hnone e w)
      distinct := fun e _ w _ h => absurd h (hnone e w)
      created := nofun
      creator := nofun
      collected := nofun
      once := fun _ _ => Nat.zero_le 1
      notYet := fun _ _ _ => not_mem_nil
      exit := nofun }

/-! ### Every run -/

/-- The process `i` may wait for `t`: it has executed it, and its status was not collected. -/
def MayWait (c : System) (i t : Tid) : Prop :=
  .created t ∈ c.history i ∧ ∀ j v, .collected t v ∉ c.history j

theorem Once.mayWait {c : System} (hc : Once c) {i : Tid} {e : StatusPtr}
    (hq : c.at i = .wait t (.down e)) : MayWait c i t := by
  have hknows := hc.knows i
  rw [hq] at hknows
  obtain ⟨w, hw, rfl, rfl⟩ : Cell c e fun w => w.childPid = t ∧ w.parentPid = i := hknows
  have hvalid := hc.valid e w ⟨hc.list.iter _ e (by rw [hq]; rfl), hw⟩
  exact ⟨hvalid.created, hvalid.uncollected⟩

/-- A `process_wait` that may not wait returns -1. -/
theorem Once.refuses {c : System} (hc : Once c) {i : Tid} (htid : (c.pc i).tid = i)
    (hq : c.at i = .wait t .begin) (hmay : ¬ MayWait c i t) :
    Runs i c (c.moved i .user (some (.refused t)) c.shared) := by
  have hnone : c.shared.waitList.find? (isFor c.shared i t) = none := by
    refine List.find?_eq_none.mpr fun e he hfor => hmay ?_
    obtain ⟨w, hw⟩ := hc.list.live e he
    simp only [isFor, hw, Bool.and_eq_true, beq_iff_eq] at hfor
    obtain ⟨rfl, rfl⟩ := hfor
    have hvalid := hc.valid e w ⟨he, hw⟩
    exact ⟨hvalid.created, hvalid.uncollected⟩
  have hfirst : Runs i c (resume c i t c.shared.waitList) := by
    have hbegin : outcome .go i c.shared (c.at i) = waitAt t c.shared c.shared.waitList.head? := by
      rw [hq]
      rfl
    cases hl : c.shared.waitList with
    | nil | cons e l =>
      rw [hl] at hbegin
      exact .step htid hbegin
  have hscan := runs_waitScan (i := i) (t := t) hc.list.nodup hc.list.live c.shared.waitList [] rfl
  rw [hnone] at hscan
  exact hfirst.trans hscan

/-- **Each exit status is collected at most once, by the parent**, in every run in which no scan is
interrupted: what `process_wait` returns is what the child has passed to `handle_exit`; only the
parent waits, and only as long as it has not collected the status; every other call returns -1. -/
theorem collected_once (n : ℕ) (garbage : StatusPtr → WaitStatus) (evs : List (Tid × Choice))
    (c : System) (halone : StepsMeet procStep ScansAlone (boot n garbage) evs)
    (hexec : exec procStep (boot n garbage) evs = some c) :
    (∀ i j t v w, .collected t v ∈ c.history i → .collected t w ∈ c.history j → i = j) ∧
      (∀ i t, (c.history i).countP (Event.isCollected t) ≤ 1) ∧
      (∀ i t v, .collected t v ∈ c.history i →
        .created t ∈ c.history i ∧ ∀ x, .exited x ∈ c.history t ↔ x = v) ∧
      (∀ i t e, c.at i = .wait t (.down e) → MayWait c i t) ∧
      (∀ i t, c.at i = .wait t .begin → ¬ MayWait c i t →
        Runs i c (c.moved i .user (some (.refused t)) c.shared)) := by
  obtain ⟨hc, htid⟩ : Once c ∧ ∀ i, (c.pc i).tid = i :=
    run_invariant (fun _ _ _ _ _ _ hI hok hout => hI.step hok hout) (fun _ => rfl)
      (once_boot n garbage) halone hexec
  refine ⟨fun i j t v w hi hj => ?_, hc.once, fun i t v hi => ?_, fun i t e => hc.mayWait,
    fun i t => hc.refuses (htid i)⟩
  · exact hc.creator i j t (hc.collected i t v hi).1 (hc.collected j t w hj).1
  · obtain ⟨hcreated, hexited⟩ := hc.collected i t v hi
    refine ⟨hcreated, fun x => ⟨fun hx => hc.exit t x v hx hexited, ?_⟩⟩
    rintro rfl
    exact hexited

theorem collected_once_afterExit :
    ∃ c : System, exec procStep (boot 0 fun _ => noStatus) waitAfterExit = some c ∧
      .collected 2 7 ∈ c.history 1 ∧ ∀ x, .exited x ∈ c.history 2 ↔ x = 7 := by
  have halone : StepsMeet procStep ScansAlone (boot 0 fun _ => noStatus) waitAfterExit := by
    refine stepsMeet_of_checkStep [1, 2] (fun c ev i => i == ev.1 || !(c.at i).inScan) ?_
      (by decide) rfl
    intro c ev hc _ hcheck i hi
    by_cases hmem : i ∈ [1, 2]
    · simpa [hi] using hcheck i hmem
    · rw [hc i hmem]
      rfl
  have hrun : (exec procStep (boot 0 fun _ => noStatus) waitAfterExit).map
      (fun c : System => c.history 1) = some [.collected 2 7, .executed 2 2, .created 2] := rfl
  obtain ⟨c, hc, hhist⟩ := map_eq_some_iff.mp hrun
  have hmem : .collected 2 7 ∈ c.history 1 := by simp [hhist]
  exact ⟨c, hc, hmem, ((collected_once 0 _ _ c halone hc).2.2.1 1 2 7 hmem).2⟩

end Pintos.Process

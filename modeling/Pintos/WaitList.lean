import Pintos.Process

/-! # `wait_list` and its elements

`process_wait` and `handle_exit` scan `wait_list` without a lock, and both unlink and free
elements.

* `Pc.iter`: the element at which the scan of a process stands; `Pc.owned`: an element that is not
  in the list and that only this process uses (a new one, or one that it has unlinked).
* `ListStep`: what a step does to the list, to its elements and to these two
  (`outcome_listStep`).
* `ListInv`: what is in the list is allocated, every scan stands at an element of the list, and no
  two processes own the same element.  It is kept as long as an element is unlinked only while no
  other scan stands at it (`UnlinksAlone`), and then no step uses a freed element
  (**`noFault_of_unlinksAlone`**). -/

namespace Pintos.Process

open Heap Interleaving List

/-! ### The elements that a process uses -/

def WaitPc.iter : WaitPc → Option StatusPtr
  | .readChild e => some e
  | .readParent e => some e
  | .down e => some e
  | .remove e => some e
  | .next e => some e
  | _ => none

def ExitPc.iter : ExitPc → Option StatusPtr
  | .readChild e => some e
  | .readParent e => some e
  | .setReturn e => some e
  | .lock e _ => some e
  | .dec e _ => some e
  | .unlock e _ => some e
  | .up e => some e
  | .check e => some e
  | .remove e => some e
  | .free _ e => e
  | .next e => some e
  | _ => none

/-- The element of `wait_list` at which the scan of the process stands. -/
def Pc.iter : Pc → Option StatusPtr
  | .wait _ pc => pc.iter
  | .exit _ pc => pc.iter
  | _ => none

/-- The element outside of `wait_list` that the process is about to use. -/
def Pc.owned : Pc → Option StatusPtr
  | .execute (.fill _ st _) => some st
  | .execute (.push _ st) => some st
  | .wait _ (.readVal st) => some st
  | .wait _ (.free st _) => some st
  | .exit _ (.free st _) => some st
  | _ => none

/-- The element that the process is about to unlink. -/
def Pc.unlinks : Pc → Option StatusPtr
  | .wait _ (.remove e) => some e
  | .exit _ (.remove e) => some e
  | _ => none

variable {q : Pc}

theorem Pc.iter_of_unlinks {e : StatusPtr} (h : q.unlinks = some e) : q.iter = some e := by
  cases q with
  | wait t pc | exit v pc => cases pc <;> first | exact h | cases h
  | _ => cases h

/-- What the scan at `q` writes into the status at which it stands. -/
inductive Edit (w : WaitStatus) : Pc → WaitStatus → Prop
  | down (t : Tid) (e : StatusPtr) (h : w.endP ≠ 0) :
      Edit w (.wait t (.down e)) { w with endP := w.endP - 1 }
  | setReturn (v : ℤ) (e : StatusPtr) : Edit w (.exit v (.setReturn e)) { w with returnVal := v }
  | lock (v : ℤ) (e : StatusPtr) (own : Bool) :
      Edit w (.exit v (.lock e own)) { w with refCntLock := true }
  | dec (v : ℤ) (e : StatusPtr) (own : Bool) :
      Edit w (.exit v (.dec e own)) { w with refCnt := w.refCnt - 1 }
  | unlock (v : ℤ) (e : StatusPtr) (own : Bool) :
      Edit w (.exit v (.unlock e own)) { w with refCntLock := false }
  | up (v : ℤ) (e : StatusPtr) : Edit w (.exit v (.up e)) { w with endP := w.endP + 1 }

/-- What a step from `q` to `pc` does to the list and its elements. -/
inductive ListStep (s : Shared) (q pc : Pc) (s' : Shared) : Prop
  | quiet (cells : s'.statuses = s.statuses) (list : s'.waitList = s.waitList)
      (iter : ∀ e, pc.iter = some e → e ∈ s.waitList) (owned : pc.owned = q.owned)
  | alloc (w : WaitStatus) (cells : s'.statuses = s.statuses.alloc w)
      (list : s'.waitList = s.waitList) (iter : pc.iter = none)
      (owned : pc.owned = some s.statuses.next)
  | fill (st : StatusPtr) (w w' : WaitStatus) (own : q.owned = some st)
      (live : s.statuses.cells st = some w) (cells : s'.statuses = s.statuses.store st w')
      (list : s'.waitList = s.waitList) (iter : pc.iter = none) (owned : pc.owned = some st)
  | edit (e : StatusPtr) (w w' : WaitStatus) (stands : q.iter = some e)
      (live : s.statuses.cells e = some w) (write : Edit w q w')
      (cells : s'.statuses = s.statuses.store e w') (list : s'.waitList = s.waitList)
      (iter : pc.iter = some e) (owned : pc.owned = none)
  | push (t : Tid) (st : StatusPtr) (pushes : q = .execute (.push t st))
      (cells : s'.statuses = s.statuses)
      (list : s'.waitList = s.waitList ++ [st]) (iter : pc.iter = none) (owned : pc.owned = none)
  | unlink (e : StatusPtr) (w : WaitStatus) (unlinks : q.unlinks = some e)
      (live : s.statuses.cells e = some w)
      (cells : s'.statuses = s.statuses.store e { w with elemNext := succ s.waitList e })
      (list : s'.waitList = s.waitList.erase e)
      (iter : pc.iter = none ∨ pc.iter = succ s.waitList e) (owned : pc.owned = some e)
  | free (st : StatusPtr) (own : q.owned = some st) (cells : s'.statuses = s.statuses.free st)
      (list : s'.waitList = s.waitList) (iter : pc.iter = q.iter) (owned : pc.owned = none)

/-! ### A new status -/

/-- The fields that are set before `f` is. -/
def Field.Before (now child : Tid) : Field → WaitStatus → Prop
  | .childPid, _ => True
  | .parentPid, w => w.childPid = child
  | .endP, w => w.childPid = child ∧ w.parentPid = now
  | .refCntLock, w => w.childPid = child ∧ w.parentPid = now ∧ w.endP = 0
  | .refCnt, w => w.childPid = child ∧ w.parentPid = now ∧ w.endP = 0 ∧ w.refCntLock = false

/-- The status is the one that `process_execute` of `now` inserts for `child`. -/
structure WaitStatus.IsNew (now child : Tid) (w : WaitStatus) : Prop where
  childPid : w.childPid = child
  parentPid : w.parentPid = now
  endP : w.endP = 0
  refCntLock : w.refCntLock = false
  refCnt : w.refCnt = 2

/-- What is known of the status that a process makes. -/
def ExecutePc.Made (now : Tid) (w : WaitStatus) : ExecutePc → Prop
  | .fill child _ f => f.Before now child w
  | .push child _ => w.IsNew now child
  | _ => True

variable {w : WaitStatus}

theorem Field.made_after {now child : Tid} {st : StatusPtr} {f : Field} (h : f.Before now child w) :
    (f.after child st).Made now (f.set now child w) := by
  cases f with
  | childPid => exact rfl
  | parentPid => exact ⟨h, rfl⟩
  | endP => exact ⟨h.1, h.2, rfl⟩
  | refCntLock => exact ⟨h.1, h.2.1, h.2.2, rfl⟩
  | refCnt => exact ⟨h.1, h.2.1, h.2.2.1, h.2.2.2, rfl⟩

/-! ### The elements after one -/

section after

variable {l : List StatusPtr} {e e' : StatusPtr}

@[simp] theorem after_cons_self : after (e :: l) e = l := by
  simp [after]

@[simp] theorem after_cons_of_ne (h : e' ≠ e) : after (e' :: l) e = after l e := by
  simp [after, h]

theorem after_sublist : (after l e).Sublist l :=
  (tail_sublist _).trans (dropWhile_sublist _)

theorem notMem_after (hl : l.Nodup) : e ∉ after l e := by
  induction l with
  | nil => exact not_mem_nil
  | cons x l ih =>
    rcases eq_or_ne x e with rfl | hx
    · rw [after_cons_self]
      exact (nodup_cons.mp hl).1
    · rw [after_cons_of_ne hx]
      exact ih (nodup_cons.mp hl).2

theorem mem_after_of_succ (h : succ l e = some e') : e' ∈ after l e := mem_of_mem_head? h

theorem mem_of_succ (h : succ l e = some e') : e' ∈ l :=
  after_sublist.subset (mem_after_of_succ h)

theorem succ_ne (hl : l.Nodup) (h : succ l e = some e') : e' ≠ e := by
  rintro rfl
  exact notMem_after hl (mem_after_of_succ h)

end after

section inversion

variable {ch : Choice} {now : Tid} {s s' : Shared} {pc' : Pc} {new : Option Event}

variable {e : StatusPtr}

/-- The scan goes on at an element of the list. -/
theorem listNext_mem {e' : StatusPtr} (he : e ∈ s.waitList) (h : s.listNext e w = some e') :
    e' ∈ s.waitList := by
  rw [Shared.listNext, if_pos he] at h
  exact mem_of_succ h

theorem Use.listStep (hw : s.statuses.cells e = some w)
    (hlist : ∀ e, q.iter = some e → e ∈ s.waitList) (h : Use now s e w q pc' new s') :
    ListStep s q pc' s' := by
  cases h with
  | fill =>
    rename_i f
    cases f <;> exact .fill e w _ rfl hw rfl rfl rfl rfl
  | push => exact .push _ e rfl rfl rfl rfl rfl
  | waitDown hpos => exact .edit e w _ rfl hw (.down _ e hpos) rfl rfl rfl rfl
  | waitRemove => exact .unlink e w rfl hw rfl rfl (.inl rfl) rfl
  | waitFree | exitFree | exitLast => exact .free e rfl rfl rfl rfl rfl
  | waitNext hnext | exitNext hnext =>
    refine .quiet rfl rfl (fun e' he => ?_) rfl
    cases he
    exact listNext_mem (hlist e rfl) hnext
  | exitReturn => exact .edit e w _ rfl hw (.setReturn _ e) rfl rfl rfl rfl
  | exitLock => exact .edit e w _ rfl hw (.lock _ e _) rfl rfl rfl rfl
  | exitDec => exact .edit e w _ rfl hw (.dec _ e _) rfl rfl rfl rfl
  | exitUnlock => split <;> exact .edit e w _ rfl hw (.unlock _ e _) rfl rfl rfl rfl
  | exitUp => exact .edit e w _ rfl hw (.up _ e) rfl rfl rfl rfl
  | exitRemove => exact .unlink e w rfl hw rfl rfl (.inr rfl) rfl
  | waitVal | waitEnd | exitEnd => exact .quiet rfl rfl nofun rfl
  | _ => split <;> exact .quiet rfl rfl hlist rfl

/-- **What a step does** to the list and its elements. -/
theorem outcome_listStep (hlist : ∀ e, q.iter = some e → e ∈ s.waitList)
    (h : outcome ch now s q = .next pc' new s') : ListStep s q pc' s' := by
  cases outcome_step h with
  | use hw hstep => exact hstep.listStep hw hlist
  | malloc => exact .alloc _ rfl rfl rfl rfl
  | waitBegin hhead | exitBegin hhead =>
    exact .quiet rfl rfl (fun e he => mem_of_mem_head? (hhead.trans he)) rfl
  | _ => exact .quiet rfl rfl nofun rfl

end inversion

/-! ### The invariant -/

structure ListInv (c : System) : Prop where
  nodup : c.shared.waitList.Nodup
  live : ∀ e ∈ c.shared.waitList, ∃ w, c.shared.statuses.cells e = some w
  iter : ∀ i e, (c.at i).iter = some e → e ∈ c.shared.waitList
  owned : ∀ i st, (c.at i).owned = some st →
    (∃ w, c.shared.statuses.cells st = some w) ∧ st ∉ c.shared.waitList
  apart : ∀ i j st, (c.at i).owned = some st → (c.at j).owned = some st → i = j

/-- An element is unlinked only while no other scan stands at it. -/
def UnlinksAlone (c : System) (ev : Tid × Choice) : Prop :=
  ∀ e, (c.at ev.1).unlinks = some e → ∀ i, i ≠ ev.1 → (c.at i).iter ≠ some e

variable {c : System} {i : Tid} {pc : Pc} {r : Option StatusPtr}

theorem ListInv.step {ch : Choice} {new : Option Event}
    {s' : Shared} (hc : ListInv c) (halone : UnlinksAlone c (i, ch))
    (h : outcome ch i c.shared (c.at i) = .next pc new s') : ListInv (c.moved i pc new s') := by
  have hstep := outcome_listStep (hc.iter i) h
  have hat : ∀ j, (c.moved i pc new s').at j = if j = i then pc else c.at j := by
    intro j
    split
    · rename_i hj
      rw [hj, System.moved_at_self]
    · rename_i hj
      exact System.moved_at_of_ne hj
  have hshared : (c.moved i pc new s').shared = s' := rfl
  generalize c.moved i pc new s' = c' at *
  obtain ⟨h1, h2, h3, h4, h5⟩ := hc
  have hiter : ∀ e, (c.at i).unlinks = some e → (c.at i).iter = some e := fun e =>
    Pc.iter_of_unlinks
  cases hstep with
  | quiet cells list iter owned => constructor <;> grind
  | alloc w cells list iter owned =>
    constructor <;>
      grind [fresh, alloc_of_live, alloc_self, lt_next]
  | fill st w w' own live cells list iter owned =>
    constructor <;> grind [store_self, store_of_ne]
  | edit e w w' stands live write cells list iter owned =>
    constructor <;> grind [store_self, store_of_ne]
  | push t st pushes cells list iter owned =>
    have hown : (c.at i).owned = some st := by rw [pushes]; rfl
    constructor <;> grind
  | unlink e w unlinks live cells list iter owned =>
    constructor <;>
      grind [UnlinksAlone, mem_of_succ, succ_ne, store_self, store_of_ne]
  | free st own cells list iter owned => constructor <;> grind [free_of_ne]

/-! ### Faults -/

variable {f : Fault}

theorem waitAt_ne_fault {tid : Tid} {s : Shared} :
    waitAt tid s r ≠ .fault f := by
  cases r <;> exact nofun

theorem exitAt_ne_fault {v : ℤ} {s : Shared} : exitAt v s r ≠ .fault f := by
  cases r <;> exact nofun

/-- A process whose scan stands in the list and that uses allocated elements faults only where it
uses the result of `get_thread`. -/
theorem outcome_eq_fault {ch : Choice} {now : Tid} {s : Shared}
    (h : outcome ch now s pc = .fault f) (hlist : ∀ e, pc.iter = some e → e ∈ s.waitList)
    (hlive : ∀ st, pc.iter = some st ∨ pc.owned = some st → ∃ w, s.statuses.cells st = some w) :
    f = .noThread ∧ ∃ j, pc = .execute (.setWorkDir j) ∧ s.workDir now ≠ false ∧ j ∉ s.allList := by
  have haccess : ∀ {st : StatusPtr} {g : WaitStatus → Outcome},
      (pc.iter = some st ∨ pc.owned = some st) → s.access st g = .fault f → ∃ w, g w = .fault f := by
    intro st g hst hg
    obtain ⟨w, hw⟩ := hlive st hst
    rw [Shared.access, hw] at hg
    exact ⟨w, hg⟩
  cases pc with
  | unborn =>
    simp only [outcome] at h
    split at h <;> cases h
  | start pc =>
    cases pc <;> simp only [outcome, startProcess] at h <;> (repeat' split at h) <;> cases h
  | user =>
    simp only [outcome] at h
    split at h
    · rename_i c
      cases c <;> cases h
    · cases h
  | execute pc =>
    cases pc with
    | fill child st f | push child st =>
      obtain ⟨w, hw⟩ := haccess (.inr rfl) h
      cases hw
    | setWorkDir j =>
      simp only [outcome, processExecute] at h
      split at h
      · cases h
      · split at h <;> cases h
        exact ⟨rfl, j, rfl, ‹_›, ‹_›⟩
    | _ =>
      simp only [outcome, processExecute] at h
      repeat' split at h
      all_goals cases h
  | wait tid pc =>
    cases pc with
    | begin => exact absurd h waitAt_ne_fault
    | remove e =>
      obtain ⟨w, hw⟩ := haccess (.inl rfl) h
      rw [if_pos (hlist e rfl)] at hw
      cases hw
    | readVal st | free st v =>
      obtain ⟨w, hw⟩ := haccess (.inr rfl) h
      cases hw
    | next e =>
      obtain ⟨w, hw⟩ := haccess (.inl rfl) h
      exact absurd hw waitAt_ne_fault
    | _ =>
      obtain ⟨w, hw⟩ := haccess (.inl rfl) h
      split at hw <;> cases hw
  | exit v pc =>
    cases pc with
    | begin => exact absurd h exitAt_ne_fault
    | remove e =>
      obtain ⟨w, hw⟩ := haccess (.inl rfl) h
      rw [if_pos (hlist e rfl)] at hw
      cases hw
    | free st e =>
      obtain ⟨w, hw⟩ := haccess (.inr rfl) h
      cases hw
    | next e =>
      obtain ⟨w, hw⟩ := haccess (.inl rfl) h
      exact absurd hw exitAt_ne_fault
    | leave => cases h
    | _ =>
      obtain ⟨w, hw⟩ := haccess (.inl rfl) h
      (repeat' split at hw) <;> cases hw
  | dead => cases h

theorem ListInv.noFault (hc : ListInv c) {ch : Choice}
    (h : outcome ch i c.shared (c.at i) = .fault f) : f = .noThread := by
  refine (outcome_eq_fault h (hc.iter i) ?_).1
  rintro st (hst | hst)
  · exact hc.live st (hc.iter i st hst)
  · exact (hc.owned i st hst).1

theorem listInv_boot (n : ℕ) (garbage : StatusPtr → WaitStatus) : ListInv (boot n garbage) := by
  have hat : ∀ i, (boot n garbage).at i = .user ∨ (boot n garbage).at i = .unborn := by
    intro i
    unfold System.at boot
    by_cases hi : i = 1 <;> simp [hi]
  have hlist : (boot n garbage).shared.waitList = [] := rfl
  constructor <;> grind [Pc.iter, Pc.owned]

/-- **No step uses a freed `wait_status`**, and none is freed twice, in every run in which an element
is unlinked only while no other scan stands at it. -/
theorem noFault_of_unlinksAlone (n : ℕ) (garbage : StatusPtr → WaitStatus)
    (evs : List (Tid × Choice)) (c : System)
    (halone : StepsMeet procStep UnlinksAlone (boot n garbage) evs)
    (hexec : exec procStep (boot n garbage) evs = some c) (ch : Choice) (i : Tid) :
    outcome ch i c.shared (c.at i) ≠ .fault .freed ∧
      outcome ch i c.shared (c.at i) ≠ .fault .unlisted := by
  have hc : ListInv c := (run_invariant (fun _ _ _ _ _ _ hI hok hout => hI.step hok hout)
    (fun _ => rfl) (listInv_boot n garbage) halone hexec).1
  refine ⟨fun h => ?_, fun h => ?_⟩
  · exact absurd (hc.noFault h) (by simp)
  · exact absurd (hc.noFault h) (by simp)

/-- The first thread waits for its child 2, which exits and leaves the list before the first thread
goes on. -/
def waitAfterExit : List (Tid × Choice) :=
  execSteps 1 2 ++ (2, .call (.exit 7)) :: replicate 10 (2, .go) ++
    (1, .call (.wait 2)) :: replicate 7 (1, .go)

theorem noFault_of_unlinksAlone_waited :
    ∃ c : System, exec procStep (boot 0 fun _ => noStatus) waitAfterExit = some c ∧
      .collected 2 7 ∈ c.history 1 ∧ c.shared.statuses.cells 0 = none ∧
      ∀ ch i, outcome ch i c.shared (c.at i) ≠ .fault .freed := by
  have halone : StepsMeet procStep UnlinksAlone (boot 0 fun _ => noStatus) waitAfterExit := by
    refine stepsMeet_of_checkStep [1, 2] (fun c ev i =>
      i == ev.1 || (c.at ev.1).unlinks.isNone || (c.at i).iter != (c.at ev.1).unlinks) ?_
      (by decide) rfl
    intro c ev hc _ hcheck e he i hi hiter
    by_cases hmem : i ∈ [1, 2]
    · have := hcheck i hmem
      simp [he, hiter, hi] at this
    · rw [hc i hmem] at hiter
      cases hiter
  have hrun : (exec procStep (boot 0 fun _ => noStatus) waitAfterExit).map
      (fun c : System => (c.history 1, c.shared.statuses.cells 0)) =
        some ([.collected 2 7, .executed 2 2, .created 2], none) := rfl
  obtain ⟨c, hc, hshow⟩ := Option.map_eq_some_iff.mp hrun
  obtain ⟨hhist, hcell⟩ := Prod.mk.inj hshow
  exact ⟨c, hc, by simp [hhist], hcell, fun ch i =>
    (noFault_of_unlinksAlone 0 _ _ c halone hc ch i).1⟩

/-- The first thread takes the status of its child 2 and frees it after the child's `sema_up`, and
before the child has looked at `ref_cnt`. -/
def waitBeforeCheck : List (Tid × Choice) :=
  execSteps 1 2 ++ (1, .call (.wait 2)) :: replicate 3 (1, .go) ++
    (2, .call (.exit 7)) :: replicate 7 (2, .go) ++ replicate 4 (1, .go)

theorem fault_waitBeforeCheck :
    ∃ c : System, exec procStep (boot 0 fun _ => noStatus) waitBeforeCheck = some c ∧
      outcome .go 2 c.shared (c.at 2) = .fault .freed := by
  have hrun : (exec procStep (boot 0 fun _ => noStatus) waitBeforeCheck).map
      (fun c : System => outcome .go 2 c.shared (c.at 2)) = some (.fault .freed) := rfl
  exact Option.map_eq_some_iff.mp hrun

end Pintos.Process

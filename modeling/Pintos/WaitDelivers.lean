import Pintos.ExecLoad
import Pintos.WaitScan

/-! # A parent that waits for its child

`process_execute` creates the child first and inserts the `wait_status` afterwards; the child may
run at once.  The parent `P` and the child `C` are followed through every interleaving.

* `Calls`: what the two processes do; `Inserted`: the child does not scan the list before the
  parent's insertion.
* `LoadOk`: the exchange about the load, so that `process_execute` returns `C`.
* `Stage`: where the status is on its way; `Tells` says what it holds while it is in the list, from
  where the child is.
* **`wait_delivers`**: under `Inserted` the parent is told the child's value, and nothing else.
* `wait_exitBeforeInsertion`: a child that exits before the insertion leaves its parent at
  `sema_down`. -/

namespace Pintos.Process

open Heap Interleaving List Option Process.System Shared

/-- The calls: the parent `P` executes one process, `C`, and later waits once for what
`process_execute` has returned; the child is loaded and exits with `v`. -/
def Calls (P C : Tid) (v : ℤ) (c : System) (ev : Tid × Choice) : Prop :=
  (ev.1 = P ∧ (c.at P = .user → ev.2 = .call .pathCall ∨
    (ev.2 = .call .exec ∧ .created C ∉ c.history P) ∨
    (∃ r, ev.2 = .call (.wait r) ∧ .executed C r ∈ c.history P ∧ .refused C ∉ c.history P ∧
      ∀ x, .collected C x ∉ c.history P))) ∨
  (ev.1 = C ∧ (c.at C = .start .load → ev.2 = .load true) ∧
    (c.at C = .user → ev.2 = .call .pathCall ∨ ev.2 = .call (.exit v)))

/-- The process is between `thread_create` and `list_push_back`. -/
def Pc.inserting : Pc → Bool
  | .execute (.malloc _) => true
  | .execute (.fill _ _ _) => true
  | .execute (.push _ _) => true
  | _ => false

/-- The child starts its scan only once the parent has inserted the status, and its thread goes
away only once the parent has set its working directory, if it has one to set. -/
def Inserted (P C : Tid) (c : System) (ev : Tid × Choice) : Prop :=
  ev.1 = C → ∀ x, (c.at C = .exit x .begin → (c.at P).inserting = false) ∧
    (c.at C = .exit x .leave →
      c.shared.workDir P = false ∨ ∀ child, c.at P ≠ .execute (.setWorkDir child))

/-! ### The load -/

/-- Where the exchange of `P` and `C` about the load is. -/
structure LoadOk (P C : Tid) (c : System) : Prop where
  ne : P ≠ C
  parentAt : c.phase P ≠ .unborn ∧ c.phase P ≠ .load ∧ ∀ ok, c.phase P ≠ .set ok ∧ c.phase P ≠ .up ok
  childAt : c.phase C = .unborn ∨ c.phase C = .load ∨ c.phase C = .out ∨
    ∃ ok, c.phase C = .set ok ∨ c.phase C = .up ok
  before : .created C ∉ c.history P →
    c.phase C = .unborn ∧ C ∉ c.shared.allList ∧ c.shared.nextTid = C
  seek : c.phase P = .seek ∨ c.phase P = .init ∨ c.phase P = .create → .created C ∉ c.history P
  child : ∀ j, c.phase P = .await j ∨ c.phase P = .unlock j ∨ c.phase P = .read j →
    j = C ∧ .created C ∈ c.history P
  create : c.phase P = .create → c.shared.temporary = 0
  load : ∀ ok, c.phase C = .set ok ∨ c.phase C = .up ok → ok = true
  val : (∃ ok, c.phase C = .up ok) ∨ c.phase C = .out → c.shared.loadVal = 0
  await : ∀ j, c.phase P = .await j → c.shared.temporary = 0 ∨ c.phase C = .out
  upped : ∀ j, c.phase P = .unlock j ∨ c.phase P = .read j → c.phase C = .out
  executed : ∀ r, .executed C r ∈ c.history P → r = C ∧ .created C ∈ c.history P

section load

variable {P C : Tid} {c c' : System} {p p' : Phase} {new : Option Event} {s' : Shared}

theorem LoadOk.step_parent (hc : LoadOk P C c) (m : Moved c c' P p' new)
    (hcall : c.phase P = .out → p' = .seek → .created C ∉ c.history P)
    (hp : c.phase P = p) (hs : c'.shared = s') (h : LoadStep P c.shared p p' new s') :
    LoadOk P C c' := by
  obtain ⟨h1, h2, h3, h4, h5, h6, h7, h8, h9, h10, h11, h12⟩ := hc
  obtain ⟨hphase, hhist⟩ := m
  cases h with
  | quiet same plain =>
    have htemp := same.temporary
    have hval := same.loadVal
    have hnext := same.nextTid
    have hall := same.allList
    constructor <;> grind [Event.Plain]
  | born => exact absurd hp h2.1
  | load ok => exact absurd hp h2.2.1
  | set ok => exact absurd hp (h2.2.2 ok).1
  | up ok => exact absurd hp (h2.2.2 ok).2
  | _ => constructor <;> grind

theorem LoadOk.step_child (hc : LoadOk P C c) (m : Moved c c' C p' new)
    (hcall : p' ≠ .seek) (hload : ∀ ok, c.phase C = .load → p' = .set ok → ok = true)
    (hp : c.phase C = p) (hs : c'.shared = s') (h : LoadStep C c.shared p p' new s') :
    LoadOk P C c' := by
  obtain ⟨h1, h2, h3, h4, h5, h6, h7, h8, h9, h10, h11, h12⟩ := hc
  obtain ⟨hphase, hhist⟩ := m
  cases h with
  | quiet same plain =>
    have htemp := same.temporary
    have hval := same.loadVal
    have hnext := same.nextTid
    have hall := same.allList
    constructor <;> grind [Event.Plain]
  | call => exact absurd rfl hcall
  | lock | init | create | down child | unlock child | read child => simp [hp] at h3
  | set ok => constructor <;> grind [loadValOf]
  | up ok plain => constructor <;> grind [Event.Plain]
  | _ => constructor <;> grind

end load

/-! ### The status -/

/-- The child has not reached the status yet. -/
def WaitStatus.Untold (w : WaitStatus) : Prop :=
  w.endP = 0 ∧ w.refCnt = 2 ∧ w.refCntLock = false

/-- What the status `st`, which is the last one of the list and comes after `L`, holds when the
child is at `pc`. -/
def Tells (v : ℤ) (L : List StatusPtr) (st : StatusPtr) (w : WaitStatus) : Pc → Prop
  | .unborn => w.Untold
  | .start _ => w.Untold
  | .user => w.Untold
  | .exit x .begin => x = v ∧ w.Untold
  | .exit x (.readChild e) => x = v ∧ (e ∈ L ∨ e = st) ∧ w.Untold
  | .exit x (.readParent e) => x = v ∧ e ∈ L ∧ w.Untold
  | .exit x (.setReturn e) => x = v ∧ e = st ∧ w.Untold
  | .exit x (.lock e own) => x = v ∧ e = st ∧ own = true ∧ w.Untold ∧ w.returnVal = v
  | .exit x (.dec e own) =>
    x = v ∧ e = st ∧ own = true ∧ w.endP = 0 ∧ w.refCnt = 2 ∧ w.returnVal = v
  | .exit x (.unlock e own) =>
    x = v ∧ e = st ∧ own = true ∧ w.endP = 0 ∧ w.refCnt = 1 ∧ w.returnVal = v
  | .exit x (.up e) => x = v ∧ e = st ∧ w.endP = 0 ∧ w.refCnt = 1 ∧ w.returnVal = v
  | .exit x (.check e) => x = v ∧
      ((e ∈ L ∧ w.Untold) ∨ (e = st ∧ w.endP = 1 ∧ w.refCnt = 1 ∧ w.returnVal = v))
  | .exit x (.next e) => x = v ∧
      ((e ∈ L ∧ w.Untold) ∨ (e = st ∧ w.endP = 1 ∧ w.refCnt = 1 ∧ w.returnVal = v))
  | .exit x .leave => x = v ∧ w.endP = 1 ∧ w.refCnt = 1 ∧ w.returnVal = v
  | .dead => w.endP = 1 ∧ w.refCnt = 1 ∧ w.returnVal = v
  | _ => False

/-- The child has not started its scan. -/
def Early (v : ℤ) : Pc → Prop
  | .unborn => True
  | .start _ => True
  | .user => True
  | .exit x .begin => x = v
  | _ => False

/-- The child has upped `end_p` of the status `st`. -/
def Told (v : ℤ) (st : StatusPtr) : Pc → Prop
  | .exit x (.check e) => x = v ∧ e = st
  | .exit x (.next e) => x = v ∧ e = st
  | .exit x .leave => x = v
  | .dead => True
  | _ => False

/-- The parent has inserted the status, and has not got past `sema_down`. -/
def Awaits (C : Tid) (L : List StatusPtr) (st : StatusPtr) : Pc → Prop
  | .execute (.setWorkDir j) => j = C
  | .execute (.downTemporary j) => j = C
  | .execute (.unlock j) => j = C
  | .execute (.readLoadVal j) => j = C
  | .user => True
  | .wait t .begin => t = C
  | .wait t (.readChild e) => t = C ∧ (e ∈ L ∨ e = st)
  | .wait t (.next e) => t = C ∧ e ∈ L
  | .wait t (.readParent e) => t = C ∧ e = st
  | .wait t (.down e) => t = C ∧ e = st
  | _ => False

/-- Where the delivery is, once the child is created. -/
inductive Stage (P C : Tid) (v : ℤ) (L : List StatusPtr) (c : System) : Prop
  | making (child : Early v (c.at C)) (list : c.shared.waitList = L)
      (parent : c.at P = .execute (.malloc C))
  | filling (pc : ExecutePc) (st : StatusPtr) (w : WaitStatus) (child : Early v (c.at C))
      (list : c.shared.waitList = L) (parent : c.at P = .execute pc)
      (fills : pc = .push C st ∨ ∃ f, pc = .fill C st f) (unlisted : st ∉ L)
      (cell : c.shared.statuses.cells st = some w) (made : pc.Made P w)
  | listed (st : StatusPtr) (w : WaitStatus) (child : Tells v L st w (c.at C))
      (parent : Awaits C L st (c.at P)) (unlisted : st ∉ L)
      (list : c.shared.waitList = L ++ [st]) (cell : c.shared.statuses.cells st = some w)
      (childPid : w.childPid = C) (parentPid : w.parentPid = P)
  | taking (st : StatusPtr) (w : WaitStatus) (child : Told v st (c.at C))
      (parent : c.at P = .wait C (.remove st)) (unlisted : st ∉ L)
      (list : c.shared.waitList = L ++ [st]) (cell : c.shared.statuses.cells st = some w)
      (refCnt : w.refCnt = 1) (returnVal : w.returnVal = v)
  | taken (st : StatusPtr) (w : WaitStatus) (child : Told v st (c.at C))
      (parent : c.at P = .wait C (.readVal st) ∨ c.at P = .wait C (.free st v)) (unlisted : st ∉ L)
      (list : c.shared.waitList = L) (cell : c.shared.statuses.cells st = some w)
      (refCnt : w.refCnt = 1) (returnVal : w.returnVal = v) (elemNext : w.elemNext = none)
  | done (st : StatusPtr) (child : Told v st (c.at C)) (parent : c.at P = .user)
      (unlisted : st ∉ L) (collected : .collected C v ∈ c.history P)
      (list : c.shared.waitList = L) (cell : c.shared.statuses.cells st = none)

/-- What stays the same: the other statuses, and what the parent was told. -/
structure Others (P C : Tid) (v : ℤ) (L : List StatusPtr) (c : System) : Prop where
  nodup : L.Nodup
  other : ∀ e ∈ L, ∃ w, c.shared.statuses.cells e = some w ∧ w.childPid ≠ C ∧ w.parentPid ≠ C ∧
    w.refCnt ≠ 0
  refused : .refused C ∉ c.history P
  collected : ∀ x, .collected C x ∈ c.history P → x = v

/-! ### A step of the child -/

variable {e : StatusPtr}

variable {u : WaitStatus}

section child

variable {C : Tid} {v : ℤ} {L : List StatusPtr} {st : StatusPtr} {w : WaitStatus} {ch : Choice}
  {s s' : Shared} {q pc : Pc} {new : Option Event}

theorem succ_append_last (h : st ∉ L) : succ (L ++ [st]) st = none := succ_append h

theorem succ_append_of_mem (st : StatusPtr) (h : e ∈ L) :
    ∃ e', succ (L ++ [st]) e = some e' ∧ (e' ∈ L ∨ e' = st) := by
  induction L with
  | nil => cases h
  | cons x L ih =>
    rcases eq_or_ne x e with rfl | hx
    · rw [cons_append, succ, after_cons_self]
      cases L with
      | nil => exact ⟨st, rfl, .inr rfl⟩
      | cons y L => exact ⟨y, rfl, .inl (by simp)⟩
    · obtain ⟨e', he', hmem⟩ := ih ((mem_cons.mp h).resolve_left (Ne.symm hx))
      rw [cons_append, succ, after_cons_of_ne hx]
      exact ⟨e', he', hmem.imp_left (mem_cons_of_mem _)⟩

theorem early_step (hq : Early v q) (hbegin : q ≠ .exit v .begin)
    (huser : q = .user → ch = .call .pathCall ∨ ch = .call (.exit v))
    (hok : q ≠ .start (.upTemporary false)) (h : outcome ch C s q = .next pc new s') :
    Early v pc ∧ s'.waitList = s.waitList ∧ s'.statuses = s.statuses := by
  cases outcome_step h with
  | notLoaded => exact absurd rfl hok
  | exec | wait => simp at huser
  | exit =>
    rcases huser rfl with heq | heq <;> cases heq
    exact ⟨rfl, rfl, rfl⟩
  | exitBegin | exitNone => exact absurd (congrArg (Pc.exit · .begin) hq) hbegin
  | use _ hstep => cases hstep <;> exact hq.elim
  | _ => first | exact ⟨trivial, rfl, rfl⟩ | exact hq.elim

/-- After the step of the child to `pc` the status is still there. -/
def StillTells (v : ℤ) (L : List StatusPtr) (st : StatusPtr) (w : WaitStatus) (s s' : Shared)
    (pc : Pc) : Prop :=
  ∃ w', Tells v L st w' pc ∧ w'.childPid = w.childPid ∧ w'.parentPid = w.parentPid ∧
    s'.waitList = s.waitList ∧ s'.statuses.cells st = some w' ∧
    ∀ e, e ≠ st → s'.statuses.cells e = s.statuses.cells e

theorem Tells.still (hcell : s.statuses.cells st = some w) (h : Tells v L st w pc)
    (hs : s'.waitList = s.waitList ∧ s'.statuses = s.statuses) : StillTells v L st w s s' pc :=
  ⟨w, h, rfl, rfl, hs.1, by rw [hs.2, hcell], fun e _ => by rw [hs.2]⟩

theorem Tells.stored (hcell : s.statuses.cells st = some w) {w' : WaitStatus}
    (hids : w'.childPid = w.childPid ∧ w'.parentPid = w.parentPid) (h : Tells v L st w' pc) :
    StillTells v L st w s (s.store st w') pc :=
  ⟨w', h, hids.1, hids.2, rfl, store_self hcell, fun _ he => store_of_ne he⟩

theorem tells_use (hq : Tells v L st w q) (hlist : s.waitList = L ++ [st])
    (hst : st ∉ L) (hcell : s.statuses.cells st = some w) (hchild : w.childPid = C)
    (hu : s.statuses.cells e = some u)
    (hother : e ∈ L → u.childPid ≠ C ∧ u.parentPid ≠ C ∧ u.refCnt ≠ 0)
    (h : Use C s e u q pc new s') : StillTells v L st w s s' pc := by
  have hself : e = st → u = w := fun he => some.inj (hu.symm.trans (he ▸ hcell))
  cases h with
  | exitChild =>
    obtain ⟨rfl, he | rfl, hw⟩ := hq
    · rw [if_neg (hother he).1]
      exact Tells.still hcell ⟨rfl, he, hw⟩ ⟨rfl, rfl⟩
    · rw [if_pos (hself rfl ▸ hchild)]
      exact Tells.still hcell ⟨rfl, rfl, hw⟩ ⟨rfl, rfl⟩
  | exitParent =>
    obtain ⟨rfl, he, hw⟩ := hq
    rw [if_neg (hother he).2.1]
    exact Tells.still hcell ⟨rfl, .inl ⟨he, hw⟩⟩ ⟨rfl, rfl⟩
  | exitReturn =>
    obtain ⟨rfl, rfl, hw⟩ := hq
    cases hself rfl
    exact Tells.stored hcell ⟨rfl, rfl⟩ ⟨rfl, rfl, rfl, hw, rfl⟩
  | exitLock =>
    obtain ⟨rfl, rfl, rfl, hw, hv⟩ := hq
    cases hself rfl
    exact Tells.stored hcell ⟨rfl, rfl⟩ ⟨rfl, rfl, rfl, hw.1, hw.2.1, hv⟩
  | exitDec =>
    obtain ⟨rfl, rfl, rfl, hend, href, hv⟩ := hq
    cases hself rfl
    exact Tells.stored hcell ⟨rfl, rfl⟩ ⟨rfl, rfl, rfl, hend, by simp [href], hv⟩
  | exitUnlock =>
    obtain ⟨rfl, rfl, rfl, hend, href, hv⟩ := hq
    cases hself rfl
    exact Tells.stored hcell ⟨rfl, rfl⟩ ⟨rfl, rfl, hend, href, hv⟩
  | exitUp =>
    obtain ⟨rfl, rfl, hend, href, hv⟩ := hq
    cases hself rfl
    exact Tells.stored hcell ⟨rfl, rfl⟩ ⟨rfl, .inr ⟨rfl, by simp [hend], href, hv⟩⟩
  | exitCheck =>
    have hne : u.refCnt ≠ 0 := by
      rcases hq.2 with ⟨he, -⟩ | ⟨rfl, -, href, -⟩
      · exact (hother he).2.2
      · rw [hself rfl, href]
        decide
    rw [if_neg hne]
    exact Tells.still hcell hq ⟨rfl, rfl⟩
  | exitNext hnext =>
    rw [listNext, hlist] at hnext
    obtain ⟨rfl, ⟨he, hw⟩ | ⟨rfl, -⟩⟩ := hq
    · obtain ⟨e', he', hmem⟩ := succ_append_of_mem st he
      rw [if_pos (mem_append_left _ he), he'] at hnext
      cases hnext
      exact Tells.still hcell ⟨rfl, hmem, hw⟩ ⟨rfl, rfl⟩
    · rw [if_pos (by simp), succ_append_last hst] at hnext
      cases hnext
  | exitEnd hnext =>
    rw [listNext, hlist] at hnext
    obtain ⟨rfl, ⟨he, -⟩ | ⟨rfl, hend, href, hv⟩⟩ := hq
    · obtain ⟨e', he', -⟩ := succ_append_of_mem st he
      rw [if_pos (mem_append_left _ he), he'] at hnext
      cases hnext
    · exact Tells.still hcell ⟨rfl, hend, href, hv⟩ ⟨rfl, rfl⟩
  | _ => exact hq.elim

/-- The child goes through the list up to the status, sets it, and ups its semaphore. -/
theorem tells_step (hq : Tells v L st w q)
    (huser : q = .user → ch = .call .pathCall ∨ ch = .call (.exit v))
    (hok : q ≠ .start (.upTemporary false)) (hlist : s.waitList = L ++ [st]) (hst : st ∉ L)
    (hcell : s.statuses.cells st = some w) (hchild : w.childPid = C)
    (hother : ∀ e ∈ L, ∃ w, s.statuses.cells e = some w ∧ w.childPid ≠ C ∧ w.parentPid ≠ C ∧
      w.refCnt ≠ 0) (h : outcome ch C s q = .next pc new s') : StillTells v L st w s s' pc := by
  cases outcome_step h with
  | use hu hstep =>
    refine tells_use hq hlist hst hcell hchild hu (fun he => ?_) hstep
    obtain ⟨u, hu', hrest⟩ := hother _ he
    cases hu.symm.trans hu'
    exact hrest
  | notLoaded => exact absurd rfl hok
  | exec | wait => simp at huser
  | exit =>
    rcases huser rfl with heq | heq <;> cases heq
    exact Tells.still hcell ⟨rfl, hq⟩ ⟨rfl, rfl⟩
  | exitBegin hhead =>
    have hmem := mem_of_mem_head? hhead
    rw [hlist, mem_append, mem_singleton] at hmem
    exact Tells.still hcell ⟨hq.1, hmem, hq.2⟩ ⟨rfl, rfl⟩
  | exitNone hhead => simp [hlist] at hhead
  | leave => exact Tells.still hcell hq.2 ⟨rfl, rfl⟩
  | _ => first | exact Tells.still hcell hq ⟨rfl, rfl⟩ | exact hq.elim

/-- After its `sema_up` the child only leaves, whatever the parent has done with the status. -/
theorem told_step (hq : Told v st q)
    (hcell : ∀ w, s.statuses.cells st = some w → w.refCnt ≠ 0 ∧ s.listNext st w = none)
    (h : outcome ch C s q = .next pc new s') :
    Told v st pc ∧ s'.waitList = s.waitList ∧ s'.statuses = s.statuses := by
  cases outcome_step h with
  | leave => exact ⟨trivial, rfl, rfl⟩
  | use hw hstep =>
    cases hstep with
    | exitCheck =>
      obtain ⟨rfl, rfl⟩ := hq
      rw [if_neg (hcell _ hw).1]
      exact ⟨⟨rfl, rfl⟩, rfl, rfl⟩
    | exitNext hnext =>
      obtain ⟨rfl, rfl⟩ := hq
      cases hnext.symm.trans (hcell _ hw).2
    | exitEnd => exact ⟨hq.1, rfl, rfl⟩
    | _ => exact hq.elim
  | _ => exact hq.elim

end child

section stages

variable {P C : Tid} {v : ℤ} {L : List StatusPtr} {c : System} {ch : Choice} {s' : Shared} {pc : Pc}
  {new : Option Event}

theorem Stage.step_child (hst : Stage P C v L c) (ho : Others P C v L c) (hne : P ≠ C)
    (huser : c.at C = .user → ch = .call .pathCall ∨ ch = .call (.exit v))
    (hok : c.at C ≠ .start (.upTemporary false))
    (hbegin : c.at C = .exit v .begin → (c.at P).inserting = false)
    (h : outcome ch C c.shared (c.at C) = .next pc new s') :
    Stage P C v L (c.moved C pc new s') ∧
      ∀ e ∈ L, s'.statuses.cells e = c.shared.statuses.cells e := by
  have hP : (c.moved C pc new s').at P = c.at P := moved_at_of_ne hne
  have hC : (c.moved C pc new s').at C = pc := moved_at_self
  have hhist : (c.moved C pc new s').history P = c.history P := moved_history_of_ne hne
  cases hst with
  | making child list parent =>
    obtain ⟨hearly, hlist, hcells⟩ := early_step child
      (fun he => by simpa [parent, Pc.inserting] using hbegin he) huser hok h
    exact ⟨.making (by rwa [hC]) (hlist.trans list) (hP.trans parent), fun e _ => by rw [hcells]⟩
  | filling pc0 st w child list parent fills unlisted cell made =>
    have hins : (c.at P).inserting = true := by
      rcases fills with rfl | ⟨f, rfl⟩ <;> rw [parent] <;> rfl
    obtain ⟨hearly, hlist, hcells⟩ := early_step child
      (fun he => by simp [hbegin he] at hins) huser hok h
    exact ⟨.filling pc0 st w (by rwa [hC]) (hlist.trans list) (hP.trans parent) fills unlisted
      (by rw [moved_shared, hcells, cell]) made, fun e _ => by rw [hcells]⟩
  | listed st w child parent unlisted list cell childPid parentPid =>
    obtain ⟨w', htells, hc', hp', hlist, hcell, hcells⟩ := tells_step child huser hok list
      unlisted cell childPid ho.other h
    exact ⟨.listed st w' (by rwa [hC]) (hP ▸ parent) unlisted (hlist.trans list) hcell
      (hc'.trans childPid) (hp'.trans parentPid),
      fun e he => hcells e fun heq => unlisted (heq ▸ he)⟩
  | taking st w child parent unlisted list cell refCnt returnVal =>
    have hnext : c.shared.listNext st w = none := by
      rw [listNext, if_pos (by simp [list]), list, succ_append_last unlisted]
    obtain ⟨htold, hlist, hcells⟩ := told_step child (s := c.shared) (fun w1 hw1 => by
      obtain rfl : w = w1 := some.inj (cell.symm.trans hw1)
      exact ⟨by rw [refCnt]; decide, hnext⟩) h
    exact ⟨.taking st w (by rwa [hC]) (hP.trans parent) unlisted (hlist.trans list)
      (by rw [moved_shared, hcells, cell]) refCnt returnVal, fun e _ => by rw [hcells]⟩
  | taken st w child parent unlisted list cell refCnt returnVal elemNext =>
    have hnext : c.shared.listNext st w = none := by
      rw [listNext, if_neg (by rwa [list]), elemNext]
    obtain ⟨htold, hlist, hcells⟩ := told_step child (s := c.shared) (fun w1 hw1 => by
      obtain rfl : w = w1 := some.inj (cell.symm.trans hw1)
      exact ⟨by rw [refCnt]; decide, hnext⟩) h
    exact ⟨.taken st w (by rwa [hC]) (by rwa [hP]) unlisted (hlist.trans list)
      (by rw [moved_shared, hcells, cell]) refCnt returnVal elemNext,
      fun e _ => by rw [hcells]⟩
  | done st child parent unlisted collected list cell =>
    obtain ⟨htold, hlist, hcells⟩ := told_step child (s := c.shared) (fun w1 hw1 => by
      rw [cell] at hw1
      cases hw1) h
    exact ⟨.done st (by rwa [hC]) (hP.trans parent) unlisted (hhist ▸ collected)
      (hlist.trans list) (by rw [moved_shared, hcells, cell]), fun e _ => by rw [hcells]⟩

variable {st : StatusPtr} {w : WaitStatus} {q : Pc} {s : Shared}

theorem tells_of_early (hq : Early v q) (hw : w.Untold) : Tells v L st w q := by
  cases q with
  | exit x q =>
    cases q with
    | begin => exact ⟨hq, hw⟩
    | _ => exact hq.elim
  | execute q | wait t q | dead => exact hq.elim
  | _ => exact hw

theorem told_of_tells (hq : Tells v L st w q)
    (hend : w.endP ≠ 0) : Told v st q ∧ w.refCnt = 1 ∧ w.returnVal = v := by
  cases q with
  | exit x q =>
    cases q with
    | check e | next e =>
      obtain ⟨rfl, ⟨-, hw⟩ | ⟨rfl, -, href, hv⟩⟩ := hq
      · exact absurd hw.1 hend
      · exact ⟨⟨rfl, rfl⟩, href, hv⟩
    | leave => exact ⟨hq.1, hq.2.2⟩
    | begin => exact absurd hq.2.1 hend
    | readChild e | readParent e | setReturn e | up e => exact absurd hq.2.2.1 hend
    | lock e own => exact absurd hq.2.2.2.1.1 hend
    | dec e own | unlock e own => exact absurd hq.2.2.2.1 hend
    | remove e | free st e => exact hq.elim
  | dead => exact ⟨trivial, hq.2⟩
  | execute q | wait t q => exact hq.elim
  | unborn | start q | user => exact absurd hq.1 hend

theorem awaits_use (hq : Awaits C L st q)
    (hlist : s.waitList = L ++ [st]) (hcell : s.statuses.cells st = some w)
    (hchild : w.childPid = C) (hparent : w.parentPid = P) (hu : s.statuses.cells e = some u)
    (hother : e ∈ L → u.childPid ≠ C) (h : Use P s e u q pc new s') :
    (Awaits C L st pc ∧ new = none ∧ s' = s) ∨
      (w.endP ≠ 0 ∧ pc = .wait C (.remove st) ∧ new = none ∧
        s' = s.store st { w with endP := w.endP - 1 }) := by
  have hself : e = st → u = w := fun he => some.inj (hu.symm.trans (he ▸ hcell))
  cases h with
  | waitChild =>
    obtain ⟨rfl, he | rfl⟩ := hq
    · rw [if_neg (hother he)]
      exact .inl ⟨⟨rfl, he⟩, rfl, rfl⟩
    · rw [if_pos (hself rfl ▸ hchild)]
      exact .inl ⟨⟨rfl, rfl⟩, rfl, rfl⟩
  | waitParent =>
    obtain ⟨rfl, rfl⟩ := hq
    rw [if_pos (hself rfl ▸ hparent)]
    exact .inl ⟨⟨rfl, rfl⟩, rfl, rfl⟩
  | waitDown hend =>
    obtain ⟨rfl, rfl⟩ := hq
    cases hself rfl
    exact .inr ⟨hend, rfl, rfl, rfl⟩
  | waitNext hnext =>
    obtain ⟨rfl, he⟩ := hq
    obtain ⟨e', he', hmem⟩ := succ_append_of_mem st he
    rw [listNext, hlist, if_pos (mem_append_left _ he), he'] at hnext
    cases hnext
    exact .inl ⟨⟨rfl, hmem⟩, rfl, rfl⟩
  | waitEnd hnext =>
    obtain ⟨e', he', -⟩ := succ_append_of_mem st hq.2
    rw [listNext, hlist, if_pos (mem_append_left _ hq.2), he'] at hnext
    cases hnext
  | _ => exact hq.elim

theorem awaits_step (hq : Awaits C L st q)
    (huser : q = .user → ch = .call .pathCall ∨ ch = .call (.wait C))
    (hlist : s.waitList = L ++ [st]) (hcell : s.statuses.cells st = some w)
    (hchild : w.childPid = C) (hparent : w.parentPid = P)
    (hother : ∀ e ∈ L, ∃ w, s.statuses.cells e = some w ∧ w.childPid ≠ C ∧ w.parentPid ≠ C ∧
      w.refCnt ≠ 0) (h : outcome ch P s q = .next pc new s') :
    (Awaits C L st pc ∧ s'.waitList = s.waitList ∧ s'.statuses = s.statuses ∧
        ∀ x, new = some x → ∃ r, x = .executed C r) ∨
      (w.endP ≠ 0 ∧ pc = .wait C (.remove st) ∧ new = none ∧
        s' = s.store st { w with endP := w.endP - 1 }) := by
  have hquiet : ∀ x, (none : Option Event) = some x → ∃ r, x = .executed C r := fun x hx => by
    cases hx
  cases outcome_step h with
  | use hu hstep =>
    refine (awaits_use hq hlist hcell hchild hparent hu (fun he => ?_) hstep).imp_left ?_
    · obtain ⟨u, hu', hne, -⟩ := hother _ he
      cases hu.symm.trans hu'
      exact hne
    · rintro ⟨hpc, rfl, rfl⟩
      exact ⟨hpc, rfl, rfl, hquiet⟩
  | exec | exit => simp at huser
  | wait =>
    rcases huser rfl with heq | heq <;> cases heq
    exact .inl ⟨rfl, rfl, rfl, hquiet⟩
  | readLoadVal =>
    cases hq
    exact .inl ⟨trivial, rfl, rfl, fun x hx => ⟨_, (some.inj hx).symm⟩⟩
  | waitBegin hhead =>
    have hmem := mem_of_mem_head? hhead
    rw [hlist, mem_append, mem_singleton] at hmem
    exact .inl ⟨⟨hq, hmem⟩, rfl, rfl, hquiet⟩
  | waitNone hhead => simp [hlist] at hhead
  | _ => first | exact .inl ⟨hq, rfl, rfl, hquiet⟩ | exact hq.elim

theorem Stage.step_parent (hst : Stage P C v L c) (ho : Others P C v L c) (hne : P ≠ C)
    (huser : c.at P = .user → ch = .call .pathCall ∨
      (ch = .call (.wait C) ∧ ∀ x, .collected C x ∉ c.history P))
    (h : outcome ch P c.shared (c.at P) = .next pc new s') :
    Stage P C v L (c.moved P pc new s') ∧
      (∀ e ∈ L, s'.statuses.cells e = c.shared.statuses.cells e) ∧
      (new ≠ some (.refused C) ∧ ∀ x, new = some (.collected C x) → x = v) := by
  have hC : (c.moved P pc new s').at C = c.at C := moved_at_of_ne hne.symm
  have hP : (c.moved P pc new s').at P = pc := moved_at_self
  have hapart : ∀ {st : StatusPtr}, st ∉ L → ∀ e ∈ L, e ≠ st := by
    rintro st hst e he rfl
    exact hst he
  have hquiet : (none : Option Event) ≠ some (.refused C) ∧
      ∀ x, (none : Option Event) = some (.collected C x) → x = v := ⟨by simp, by simp⟩
  cases hst with
  | making child list parent =>
    rw [parent] at h
    cases h
    have hnew : c.shared.statuses.next ∉ L := by
      intro hmem
      obtain ⟨w, hw, -⟩ := ho.other _ hmem
      exact absurd (lt_next hw) (lt_irrefl _)
    refine ⟨.filling _ c.shared.statuses.next (c.shared.garbage c.shared.statuses.next)
      (by rwa [hC]) list hP (.inr ⟨.childPid, rfl⟩) hnew alloc_self trivial, ?_, hquiet⟩
    intro e he
    obtain ⟨w, hw, -⟩ := ho.other e he
    exact (alloc_of_live hw).trans hw.symm
  | filling pc0 st w child list parent fills unlisted cell made =>
    rw [parent] at h
    rcases fills with rfl | ⟨f, rfl⟩
    · rw [outcome, processExecute, access, cell] at h
      cases h
      have hnew : w.IsNew P C := made
      refine ⟨.listed st w ?_ (by rw [hP]; rfl) unlisted (by rw [moved_shared, list]) cell
        hnew.childPid hnew.parentPid, fun e _ => rfl, hquiet⟩
      rw [hC]
      exact tells_of_early child ⟨hnew.endP, hnew.refCnt, hnew.refCntLock⟩
    · rw [outcome, processExecute, access, cell] at h
      cases h
      refine ⟨.filling (f.after C st) st (f.set P C w) (by rwa [hC]) list hP ?_ unlisted
        (store_self cell) (Field.made_after made),
        fun e he => store_of_ne (hapart unlisted e he), hquiet⟩
      cases f with
      | refCnt => exact .inl rfl
      | _ => exact .inr ⟨_, rfl⟩
  | listed st w child parent unlisted list cell childPid parentPid =>
    have hcalls : c.at P = .user → ch = .call .pathCall ∨ ch = .call (.wait C) :=
      fun hu => (huser hu).imp_right And.left
    rcases awaits_step parent hcalls list cell childPid parentPid ho.other h with
      ⟨hawaits, hlist, hcells, hnew⟩ | ⟨hend, rfl, rfl, rfl⟩
    · refine ⟨.listed st w (by rwa [hC]) (by rwa [hP]) unlisted (hlist.trans list)
        (by rw [moved_shared, hcells, cell]) childPid parentPid,
        fun e _ => by rw [hcells], fun he => ?_, fun x he => ?_⟩
      · obtain ⟨r, hr⟩ := hnew _ he
        cases hr
      · obtain ⟨r, hr⟩ := hnew _ he
        cases hr
    · obtain ⟨htold, href, hv⟩ := told_of_tells child hend
      exact ⟨.taking st { w with endP := w.endP - 1 } (by rwa [hC]) hP unlisted list
        (store_self cell) href hv,
        fun e he => store_of_ne (hapart unlisted e he), hquiet⟩
  | taking st w child parent unlisted list cell refCnt returnVal =>
    have hmem : st ∈ c.shared.waitList := by simp [list]
    rw [parent, outcome, processWait, access, cell] at h
    simp only [if_pos hmem] at h
    cases h
    have herase : (L ++ [st]).erase st = L := by
      rw [erase_append_right _ unlisted, erase_cons_head, append_nil]
    refine ⟨.taken st { w with elemNext := succ c.shared.waitList st } (by rwa [hC]) (.inl hP)
      unlisted ?_ (store_self cell) refCnt returnVal ?_,
      fun e he => store_of_ne (hapart unlisted e he), hquiet⟩
    · exact (congrArg (List.erase · st) list).trans herase
    · exact (congrArg (succ · st) list).trans (succ_append_last unlisted)
  | taken st w child parent unlisted list cell refCnt returnVal elemNext =>
    rcases parent with parent | parent
    · rw [parent, outcome, processWait, access, cell] at h
      cases h
      rw [returnVal]
      rw [returnVal] at hC hP
      exact ⟨.taken st w (by rwa [hC]) (.inr hP) unlisted list cell refCnt returnVal elemNext,
        fun e _ => rfl, hquiet⟩
    · rw [parent, outcome, processWait, access, cell] at h
      cases h
      refine ⟨.done st (by rwa [hC]) hP unlisted (by simp) list free_self,
        fun e he => free_of_ne (hapart unlisted e he), by simp, fun x hx => ?_⟩
      cases hx
      rfl
  | done st child parent unlisted collected list cell =>
    rcases huser parent with rfl | ⟨-, hnone⟩
    · rw [parent] at h
      cases h
      exact ⟨.done st (by rwa [hC]) hP unlisted (by simpa using collected) list cell,
        fun e _ => rfl, hquiet⟩
    · exact absurd collected (hnone v)

end stages

/-! ### Runs -/

/-- The process that an event is about. -/
def Event.child : Event → Option Tid
  | .created j => some j
  | .executed j _ => some j
  | .collected j _ => some j
  | .refused j => some j
  | _ => none

/-- The parent `P` is about to execute the process `C`. -/
structure Ready (P C : Tid) (c : System) : Prop where
  tids : ∀ i, (c.pc i).tid = i
  user : c.at P = .user
  unborn : c.at C = .unborn
  next : c.shared.nextTid = C
  fresh : C ∉ c.shared.allList
  nodup : c.shared.waitList.Nodup
  other : ∀ e ∈ c.shared.waitList, ∃ w, c.shared.statuses.cells e = some w ∧ w.childPid ≠ C ∧
    w.parentPid ≠ C ∧ w.refCnt ≠ 0
  history : ∀ x ∈ c.history P, x.child ≠ some C

/-- The parent has not created the child yet. -/
def Idle : Pc → Prop
  | .user => True
  | .execute .lock => True
  | .execute .initTemporary => True
  | .execute .create => True
  | _ => False

structure Delivery (P C : Tid) (v : ℤ) (L : List StatusPtr) (c : System) : Prop where
  load : LoadOk P C c
  others : Others P C v L c
  stage : (.created C ∉ c.history P ∧ Idle (c.at P) ∧ c.shared.waitList = L) ∨
    (.created C ∈ c.history P ∧ Stage P C v L c)
  /-- The thread is there as long as the parent may need it. -/
  present : .created C ∈ c.history P → C ∈ c.shared.allList ∨ (c.at C = .dead ∧
    (c.shared.workDir P = false ∨ ∀ j, c.at P ≠ .execute (.setWorkDir j)))

variable {now : Tid}

section delivery

variable {P C : Tid} {v : ℤ} {L : List StatusPtr} {c : System} {ch : Choice} {s' : Shared} {pc : Pc}
  {new : Option Event}

variable {s : Shared} {q : Pc} {j : Tid}

theorem outcome_seek (h : outcome ch now s q = .next pc new s')
    (hpc : pc.phase = .seek) : q = .user ∧ ch = .call .exec := by
  cases outcome_step h with
  | exec => exact ⟨rfl, rfl⟩
  | use _ hstep =>
    rw [hstep.quiet.2.1] at hpc
    cases hstep <;> cases hpc
  | _ => cases hpc

/-- What a step does to `all_list` and to the working directories. -/
theorem outcome_threads (h : outcome ch now s q = .next pc new s') :
    (s'.allList = s.allList ∨ s'.allList = s.allList ++ [s.nextTid] ∨
      (pc = .dead ∧ (∃ x, q = .exit x .leave) ∧ s'.allList = s.allList.erase now)) ∧
      ∀ j, s'.workDir j = s.workDir j ∨ (j = now ∧ q = .user ∧ pc = .user) ∨
        q = .execute (.setWorkDir j) := by
  cases outcome_step h with
  | pathCall =>
    refine ⟨.inl rfl, fun j => ?_⟩
    rcases eq_or_ne j now with rfl | hj
    · exact .inr (.inl ⟨rfl, rfl, rfl⟩)
    · exact .inl (Function.update_of_ne hj ..)
  | setWorkDir =>
    rename_i child _
    refine ⟨.inl rfl, fun j => ?_⟩
    rcases eq_or_ne j child with rfl | hj
    · exact .inr (.inr rfl)
    · exact .inl (Function.update_of_ne hj ..)
  | create => exact ⟨.inr (.inl rfl), fun j => .inl rfl⟩
  | leave => exact ⟨.inr (.inr ⟨rfl, ⟨_, rfl⟩, rfl⟩), fun j => .inl rfl⟩
  | use _ hstep => cases hstep <;> exact ⟨.inl rfl, fun j => .inl rfl⟩
  | _ => exact ⟨.inl rfl, fun j => .inl rfl⟩

theorem delivery_of_ready (hc : Ready P C c) : Delivery P C v c.shared.waitList c := by
  have hP : c.phase P = .out := by rw [phase, hc.user]; rfl
  have hC : c.phase C = .unborn := by rw [phase, hc.unborn]; rfl
  have hcreated : .created C ∉ c.history P := fun h => hc.history _ h rfl
  refine ⟨?_, ⟨hc.nodup, hc.other, fun h => hc.history _ h rfl, fun x h => (hc.history _ h rfl).elim⟩,
    .inl ⟨hcreated, by rw [hc.user]; trivial, rfl⟩, fun h => absurd h hcreated⟩
  have hexecuted : ∀ r, .executed C r ∉ c.history P := fun r h => hc.history _ h rfl
  have hfresh := hc.fresh
  have hnext := hc.next
  constructor <;> grind

theorem Others.step {i : Tid} (ho : Others P C v L c)
    (hcells : ∀ e ∈ L, s'.statuses.cells e = c.shared.statuses.cells e)
    (hnew : i = P → new ≠ some (.refused C) ∧ ∀ x, new = some (.collected C x) → x = v) :
    Others P C v L (c.moved i pc new s') where
  nodup := ho.nodup
  other e he := by
    obtain ⟨w, hw, hrest⟩ := ho.other e he
    exact ⟨w, (hcells e he).trans hw, hrest⟩
  refused h := by
    rcases of_mem_moved_history h with ⟨rfl, hn⟩ | hold
    · exact (hnew rfl).1 hn
    · exact ho.refused hold
  collected x h := by
    rcases of_mem_moved_history h with ⟨rfl, hn⟩ | hold
    · exact (hnew rfl).2 x hn
    · exact ho.collected x hold

theorem Delivery.step_child (hc : Delivery P C v L c) (hcalls : Calls P C v c (C, ch))
    (hins : Inserted P C c (C, ch)) (h : outcome ch C c.shared (c.at C) = .next pc new s') :
    Delivery P C v L (c.moved C pc new s') := by
  have hne := hc.load.ne
  obtain ⟨hload, huser⟩ : (c.at C = .start .load → ch = .load true) ∧
      (c.at C = .user → ch = .call .pathCall ∨ ch = .call (.exit v)) := by
    rcases hcalls with ⟨he, -⟩ | ⟨-, hrest⟩
    · exact absurd he.symm hne
    · exact hrest
  rcases hc.stage with ⟨hnew, -⟩ | ⟨hcreated, hstage⟩
  · -- A thread that does not exist takes no step.
    obtain ⟨hphase, hfresh, -⟩ := hc.load.before hnew
    rw [phase_eq_unborn hphase, outcome, if_neg hfresh] at h
    cases h
  · have hok : c.at C ≠ .start (.upTemporary false) := by
      intro he
      have : c.phase C = .up false := by rw [phase, he]; rfl
      exact absurd (hc.load.load false (.inr this)) (by decide)
    obtain ⟨hstage', hcells⟩ := hstage.step_child hc.others hne huser hok (hins rfl v).1 h
    have hcreated' : .created C ∈ (c.moved C pc new s').history P :=
      mem_moved_history hcreated
    refine ⟨?_, hc.others.step hcells fun he => absurd he.symm hne, .inr ⟨hcreated', hstage'⟩, ?_⟩
    · refine hc.load.step_child (moved c C pc new s') ?_ ?_ rfl rfl (outcome_loadStep h)
      · intro hseek
        obtain ⟨hat, rfl⟩ := outcome_seek h hseek
        rcases huser hat with he | he <;> cases he
      · intro ok hphase hset
        have hat : c.at C = .start .load := phase_eq_load hphase
        rw [hat, hload hat] at h
        cases h
        cases hset
        rfl
    · intro _
      obtain ⟨hall, hdir⟩ := outcome_threads h
      have hwd : s'.workDir P = c.shared.workDir P := by
        rcases hdir P with hsame | ⟨he, -⟩ | hat
        · exact hsame
        · exact absurd he hne
        · exact absurd (congrArg Pc.phase hat) (by
            have := hc.load.childAt
            unfold phase at this
            rcases this with h | h | h | ⟨ok, h | h⟩ <;> rw [h] <;> intro he <;> cases he)
      rw [moved_at_self, moved_at_of_ne hne, moved_shared, hwd]
      rcases hc.present hcreated with hmem | ⟨hdead, -⟩
      · rcases hall with hsame | happend | ⟨rfl, ⟨x, hleave⟩, -⟩
        · exact .inl (hsame ▸ hmem)
        · exact .inl (happend ▸ mem_append_left _ hmem)
        · exact .inr ⟨rfl, (hins rfl x).2 hleave⟩
      · rw [hdead] at h
        cases h

theorem Stage.parent_ne_dead (h : Stage P C v L c) : c.at P ≠ .dead := by
  cases h with
  | making child list parent => rw [parent]; nofun
  | filling pc st w child list parent | taking st w child parent | done st child parent =>
    rw [parent]; nofun
  | listed st w child parent =>
    intro hdead
    rw [hdead] at parent
    exact parent
  | taken st w child parent => rcases parent with h | h <;> rw [h] <;> nofun

theorem Stage.not_dead_of_push (h : Stage P C v L c) {st : StatusPtr}
    (hpush : c.at P = .execute (.push j st)) : c.at C ≠ .dead := by
  intro hdead
  cases h with
  | making child | filling pc st w child => rw [hdead] at child; exact child
  | listed st w child parent => rw [hpush] at parent; exact parent
  | taking st w child parent | done st child parent => rw [hpush] at parent; cases parent
  | taken st w child parent => rw [hpush] at parent; rcases parent with h | h <;> cases h

theorem outcome_setWorkDir (h : outcome ch now s q = .next (.execute (.setWorkDir j)) new s') :
    ∃ st, q = .execute (.push j st) := by
  generalize hpc : Pc.execute (.setWorkDir j) = pc at h
  cases outcome_step h with
  | use _ hstep =>
    cases hstep with
    | push =>
      cases hpc
      exact ⟨_, rfl⟩
    | fill =>
      rename_i f
      cases f <;> cases hpc
    | _ => cases hpc
  | _ => cases hpc

theorem Delivery.step_idle (hc : Delivery P C v L c) (hnew : .created C ∉ c.history P)
    (hidle : Idle (c.at P)) (hlist : c.shared.waitList = L)
    (huser : c.at P = .user → ch = .call .pathCall ∨ ch = .call .exec)
    (h : outcome ch P c.shared (c.at P) = .next pc new s') :
    s'.statuses = c.shared.statuses ∧ s'.waitList = L ∧
      ((new = none ∧ Idle pc) ∨
        (new = some (.created C) ∧ pc = .execute (.malloc C) ∧ C ∈ s'.allList)) := by
  generalize hq : c.at P = q at hidle huser h
  cases q with
  | user =>
    rcases huser rfl with rfl | rfl <;> cases h <;> exact ⟨rfl, hlist, .inl ⟨rfl, trivial⟩⟩
  | execute q =>
    cases q with
    | lock =>
      simp only [outcome, processExecute] at h
      split at h <;> cases h
      exact ⟨rfl, hlist, .inl ⟨rfl, trivial⟩⟩
    | initTemporary =>
      cases h
      exact ⟨rfl, hlist, .inl ⟨rfl, trivial⟩⟩
    | create =>
      obtain ⟨-, -, hnext⟩ := hc.load.before hnew
      rw [outcome, processExecute, hnext] at h
      cases h
      exact ⟨rfl, hlist, .inr ⟨rfl, rfl, by simp⟩⟩
    | _ => exact hidle.elim
  | _ => exact hidle.elim

theorem Delivery.step_parent (hc : Delivery P C v L c) (hcalls : Calls P C v c (P, ch))
    (h : outcome ch P c.shared (c.at P) = .next pc new s') :
    Delivery P C v L (c.moved P pc new s') := by
  have hne := hc.load.ne
  have huser : c.at P = .user → ch = .call .pathCall ∨
      (ch = .call .exec ∧ .created C ∉ c.history P) ∨
      (∃ r, ch = .call (.wait r) ∧ .executed C r ∈ c.history P ∧ .refused C ∉ c.history P ∧
        ∀ x, .collected C x ∉ c.history P) := by
    rcases hcalls with ⟨-, hrest⟩ | ⟨he, -⟩
    · exact hrest
    · exact absurd he hne
  have hload : LoadOk P C (c.moved P pc new s') := by
    refine hc.load.step_parent (moved c P pc new s') ?_ rfl rfl (outcome_loadStep h)
    intro _ hseek
    obtain ⟨hat, rfl⟩ := outcome_seek h hseek
    rcases huser hat with he | ⟨-, he⟩ | ⟨r, he, -⟩
    · cases he
    · exact he
    · cases he
  have hearly : .created C ∉ c.history P → c.at C = .unborn := fun hnew =>
    phase_eq_unborn (hc.load.before hnew).1
  obtain ⟨hall, hdir⟩ := outcome_threads h
  rcases hc.stage with ⟨hnew, hidle, hlist⟩ | ⟨hcreated, hstage⟩
  · have huser' : c.at P = .user → ch = .call .pathCall ∨ ch = .call .exec := by
      intro hu
      rcases huser hu with he | ⟨he, -⟩ | ⟨r, -, hexec, -⟩
      · exact .inl he
      · exact .inr he
      · exact absurd (hc.load.executed r hexec).2 hnew
    obtain ⟨hcells, hlist', hcase⟩ := hc.step_idle hnew hidle hlist huser' h
    have hkept : ∀ e ∈ L, s'.statuses.cells e = c.shared.statuses.cells e := fun e _ => by rw [hcells]
    rcases hcase with ⟨rfl, hidle'⟩ | ⟨rfl, rfl, hmem⟩
    · have hnew' : .created C ∉ (c.moved P pc none s').history P := by simpa using hnew
      exact ⟨hload, hc.others.step hkept fun _ => ⟨by simp, by simp⟩,
        .inl ⟨hnew', by rwa [moved_at_self], hlist'⟩, fun hold => absurd hold hnew'⟩
    · refine ⟨hload, hc.others.step hkept fun _ => ⟨by simp, by simp⟩, .inr ⟨by simp, .making ?_ hlist'
        moved_at_self⟩, fun _ => .inl hmem⟩
      rw [moved_at_of_ne hne.symm, hearly hnew]
      trivial
  · have huser' : c.at P = .user → ch = .call .pathCall ∨
        (ch = .call (.wait C) ∧ ∀ x, .collected C x ∉ c.history P) := by
      intro hu
      rcases huser hu with he | ⟨-, hnew⟩ | ⟨r, he, hexec, -, hnone⟩
      · exact .inl he
      · exact absurd hcreated hnew
      · obtain ⟨rfl, -⟩ := hc.load.executed r hexec
        exact .inr ⟨he, hnone⟩
    obtain ⟨hstage', hkept, hans⟩ := hstage.step_parent hc.others hne huser' h
    refine ⟨hload, hc.others.step hkept fun _ => hans,
      .inr ⟨mem_moved_history hcreated, hstage'⟩, fun _ => ?_⟩
    rcases hc.present hcreated with hmem | ⟨hdead, -⟩
    · rcases hall with hsame | happend | ⟨rfl, -⟩
      · exact .inl (hsame ▸ hmem)
      · exact .inl (happend ▸ mem_append_left _ hmem)
      · exact absurd moved_at_self hstage'.parent_ne_dead
    · refine .inr ⟨by rwa [moved_at_of_ne hne.symm], .inr fun j hj => ?_⟩
      rw [moved_at_self] at hj
      obtain ⟨st, hpush⟩ := outcome_setWorkDir (hj ▸ h)
      exact hstage.not_dead_of_push hpush hdead

end delivery

/-! ### The parent returns -/

section returns

variable {P C : Tid} {v : ℤ} {L : List StatusPtr} {c : System}

variable {st : StatusPtr}

/-- The scan of the parent finds the status. -/
theorem runs_to_down {w : WaitStatus} (ho : Others P C v L c) (hst : st ∉ L)
    (hlist : c.shared.waitList = L ++ [st]) (hcell : c.shared.statuses.cells st = some w)
    (hchild : w.childPid = C) (hparent : w.parentPid = P) (he : e ∈ L ∨ e = st) :
    Runs P (c.moved P (.wait C (.readChild e)) none c.shared)
      (c.moved P (.wait C (.down st)) none c.shared) := by
  have hnodup : c.shared.waitList.Nodup := by
    rw [hlist, nodup_append]
    refine ⟨ho.nodup, by simp, ?_⟩
    rintro a ha b hb rfl
    rw [mem_singleton] at hb
    exact hst (hb ▸ ha)
  have hlive : ∀ e ∈ c.shared.waitList, ∃ w, c.shared.statuses.cells e = some w := by
    intro e he
    rw [hlist, mem_append, mem_singleton] at he
    rcases he with he | rfl
    · obtain ⟨u, hu, -⟩ := ho.other e he
      exact ⟨u, hu⟩
    · exact ⟨w, hcell⟩
  have hfor : isFor c.shared P C st = true := by
    simp [isFor, hcell, hchild, hparent]
  have hnot : ∀ e ∈ L, isFor c.shared P C e = false := by
    intro e he
    obtain ⟨u, hu, hne, -⟩ := ho.other e he
    simp [isFor, hu, hne]
  obtain ⟨pre, l, hsplit⟩ : ∃ pre l, L ++ [st] = pre ++ e :: l := by
    exact append_of_mem (by simpa using he)
  have hfind : (e :: l).find? (isFor c.shared P C) = some st := by
    have hlast : st ∈ e :: l := by
      have := congrArg getLast? hsplit
      rw [getLast?_concat, getLast?_append_of_ne_nil _ (cons_ne_nil e l)] at this
      exact mem_of_getLast? this.symm
    cases hx : (e :: l).find? (isFor c.shared P C) with
    | none => exact absurd hfor (find?_eq_none.mp hx st hlast)
    | some x =>
      have hmem : x ∈ L ++ [st] := by
        rw [hsplit]
        exact mem_append_right _ (mem_of_find?_eq_some hx)
      rw [mem_append, mem_singleton] at hmem
      rcases hmem with hmem | rfl
      · exact absurd (find?_some hx) (by simp [hnot x hmem])
      · rfl
  have := runs_waitScan (i := P) (t := C) hnodup hlive (e :: l) pre (hlist.trans hsplit)
  rwa [hfind] at this

/-- Once the child is gone, the parent's `process_wait` returns its value. -/
theorem Delivery.returns (hc : Delivery P C v L c) (htid : (c.pc P).tid = P)
    (hdead : c.at C = .dead) {q : WaitPc} (hq : c.at P = .wait C q) :
    ∃ c', Runs P c c' ∧ .collected C v ∈ c'.history P := by
  have hself : Runs P c (c.moved P (.wait C q) none c.shared) := by
    rw [← hq, moved_self htid]
    exact .refl P c
  have hdone : ∀ {x : ℤ}, x = v → (∃ s', Runs P c (c.moved P .user (some (.collected C x)) s')) →
      ∃ c', Runs P c c' ∧ .collected C v ∈ c'.history P := by
    rintro _ rfl ⟨s', hs'⟩
    exact ⟨_, hs', by simp⟩
  rcases hc.stage with ⟨-, hidle, -⟩ | ⟨-, hstage⟩
  · rw [hq] at hidle
    exact hidle.elim
  · cases hstage with
    | making child list parent | filling pc st w child list parent | done st child parent =>
      rw [hq] at parent
      cases parent
    | listed st w child parent unlisted list cell childPid parentPid =>
      rw [hdead] at child
      obtain ⟨hend, -, hv⟩ : w.endP = 1 ∧ w.refCnt = 1 ∧ w.returnVal = v := child
      have hmem : st ∈ c.shared.waitList := by simp [list]
      have hscan : ∀ {e : StatusPtr}, (e ∈ L ∨ e = st) →
          Runs P c (c.moved P (.wait C (.readChild e)) none c.shared) →
          Runs P c (c.moved P (.wait C (.down st)) none c.shared) := fun he h =>
        h.trans (runs_to_down hc.others unlisted list cell childPid parentPid he)
      refine hdone hv (runs_take cell hmem (by rw [hend]; decide) ?_)
      rw [hq] at parent
      cases q with
      | begin =>
        obtain ⟨e, he, hmem⟩ : ∃ e, (L ++ [st]).head? = some e ∧ (e ∈ L ∨ e = st) := by
          cases L with
          | nil => exact ⟨st, rfl, .inr rfl⟩
          | cons e L => exact ⟨e, rfl, .inl (by simp)⟩
        refine hscan hmem (hself.next ?_)
        rw [outcome, processWait, list, he]
        rfl
      | readChild e => exact hscan parent.2 hself
      | readParent e =>
        obtain ⟨-, rfl⟩ := parent
        refine hself.next ?_
        simp only [outcome, processWait, access, cell, if_pos parentPid]
      | down e =>
        obtain ⟨-, rfl⟩ := parent
        exact hself
      | next e =>
        obtain ⟨u, hu, -⟩ := hc.others.other e parent.2
        obtain ⟨e', he', hmem⟩ := succ_append_of_mem st parent.2
        refine hscan hmem (hself.next ?_)
        simp only [outcome, processWait, access, hu, listNext, list,
          mem_append, parent.2, true_or, if_true, he']
        rfl
      | _ => exact parent.elim
    | taking st w child parent unlisted list cell refCnt returnVal =>
      rw [hq] at parent
      cases parent
      exact hdone returnVal (runs_take_of_remove cell (by simp [list]) hself)
    | taken st w child parent unlisted list cell refCnt returnVal elemNext =>
      rcases parent with parent | parent
      · rw [hq] at parent
        cases parent
        exact hdone returnVal (runs_take_of_readVal cell hself)
      · rw [hq] at parent
        cases parent
        have h1 : outcome .go P c.shared (.wait C (.free st v)) =
            .next .user (some (.collected C v)) (c.shared.free st) := by
          simp only [outcome, processWait, access, cell]
        exact hdone rfl ⟨_, hself.next h1⟩

theorem Awaits.uses {q : Pc} (h : Awaits C L st q) :
    q.owned = none ∧ ∀ e, q.iter = some e → e ∈ L ∨ e = st := by
  cases q with
  | wait t q =>
    cases q with
    | readChild e => exact ⟨rfl, fun e' he => by cases he; exact h.2⟩
    | next e => exact ⟨rfl, fun e' he => by cases he; exact .inl h.2⟩
    | readParent e | down e => exact ⟨rfl, fun e' he => by cases he; exact .inr h.2⟩
    | begin => exact ⟨rfl, nofun⟩
    | _ => exact h.elim
  | user => exact ⟨rfl, nofun⟩
  | execute q =>
    cases q with
    | fill j e f | push j e => exact h.elim
    | _ => exact ⟨rfl, nofun⟩
  | _ => exact h.elim

theorem Delivery.uses (hc : Delivery P C v L c) :
    (∀ e, (c.at P).iter = some e → e ∈ c.shared.waitList) ∧
      ∀ st, (c.at P).iter = some st ∨ (c.at P).owned = some st →
        ∃ w, c.shared.statuses.cells st = some w := by
  rcases hc.stage with ⟨-, hidle, -⟩ | ⟨-, hstage⟩
  · generalize c.at P = q at hidle
    have hq : q.iter = none ∧ q.owned = none := by
      cases q with
      | execute q => cases q <;> first | exact ⟨rfl, rfl⟩ | exact hidle.elim
      | user => exact ⟨rfl, rfl⟩
      | _ => exact hidle.elim
    simp [hq]
  · cases hstage with
    | making child list parent | done st child parent => simp [parent, Pc.iter, Pc.owned]
    | filling pc st w child list parent fills unlisted cell made =>
      rw [parent]
      rcases fills with rfl | ⟨f, rfl⟩ <;> simp [Pc.iter, Pc.owned, cell]
    | listed st w child parent unlisted list cell childPid parentPid =>
      obtain ⟨hown, hiter⟩ := parent.uses
      refine ⟨fun e he => by rw [list]; simpa using hiter e he, fun e he => ?_⟩
      rw [hown] at he
      rcases hiter e (he.resolve_right (by simp)) with he | rfl
      · obtain ⟨u, hu, -⟩ := hc.others.other e he
        exact ⟨u, hu⟩
      · exact ⟨w, cell⟩
    | taking st w child parent unlisted list cell =>
      simp [parent, Pc.iter, Pc.owned, WaitPc.iter, list, cell]
    | taken st w child parent unlisted list cell =>
      rcases parent with parent | parent <;>
        simp [parent, Pc.iter, Pc.owned, WaitPc.iter, cell]

theorem Delivery.noFault (hc : Delivery P C v L c) (ch : Choice) (f : Fault) :
    outcome ch P c.shared (c.at P) ≠ .fault f := by
  intro h
  obtain ⟨-, j, hat, hdir, hgone⟩ := outcome_eq_fault h hc.uses.1 hc.uses.2
  obtain ⟨rfl, hcreated⟩ := hc.load.child j (.inl (by rw [phase, hat]; rfl))
  rcases hc.present hcreated with hmem | ⟨-, hfalse | hne⟩
  · exact hgone hmem
  · exact hdir hfalse
  · exact hne _ hat

end returns

/-- **`process_wait` delivers the child's value**, in every run in which the child starts its scan
after the parent's insertion, and leaves after the parent has set its working directory: the parent
is told nothing else, it does not fault, and once the child is gone it returns. -/
theorem wait_delivers (P C : Tid) (v : ℤ) (c₀ c : System) (evs : List (Tid × Choice))
    (hready : Ready P C c₀)
    (hmeet : StepsMeet procStep (fun c ev => Calls P C v c ev ∧ Inserted P C c ev) c₀ evs)
    (hexec : exec procStep c₀ evs = some c) :
    .refused C ∉ c.history P ∧ (∀ x, .collected C x ∈ c.history P → x = v) ∧
      (∀ ch f, outcome ch P c.shared (c.at P) ≠ .fault f) ∧
      (c.at C = .dead → ∀ q, c.at P = .wait C q →
        ∃ c', Runs P c c' ∧ .collected C v ∈ c'.history P) := by
  obtain ⟨hc, htid⟩ : Delivery P C v c₀.shared.waitList c ∧ ∀ i, (c.pc i).tid = i := by
    refine run_invariant ?_ hready.tids (delivery_of_ready hready) hmeet hexec
    rintro c i ch pc new s' hc ⟨hcalls, hins⟩ hout
    rcases hcalls with ⟨rfl, h⟩ | ⟨rfl, h⟩
    · exact hc.step_parent (.inl ⟨rfl, h⟩) hout
    · exact hc.step_child (.inr ⟨rfl, h⟩) hins hout
  exact ⟨hc.others.refused, hc.others.collected, hc.noFault,
    fun hdead q hq => hc.returns (htid P) hdead hq⟩

/-- A step of the first thread, which executes the process 2 and waits for it. -/
def parentTurn (c : System) (ch : Choice) : Bool :=
  match c.at 1, ch with
  | .user, .call .exec => decide (c.history 1 = [])
  | .user, .call (.wait t) => decide (t = 2 ∧ c.history 1 = [.executed 2 2, .created 2])
  | .user, _ => false
  | _, _ => true

/-- A step of the process 2, which exits with 7. -/
def childTurn (c : System) (ch : Choice) : Bool :=
  match c.at 2, ch with
  | .start .load, .load ok => ok
  | .start .load, _ => false
  | .user, .call (.exit v) => decide (v = 7)
  | .user, _ => false
  | .exit _ .begin, _ => !(c.at 1).inserting
  | .exit _ .leave, _ => !(c.shared.workDir 1)
  | _, _ => true

theorem calls_of_parentTurn {c : System} {ch : Choice} (h : parentTurn c ch = true) :
    Calls 1 2 7 c (1, ch) ∧ Inserted 1 2 c (1, ch) := by
  refine ⟨.inl ⟨rfl, fun hu => ?_⟩, nofun⟩
  unfold parentTurn at h
  rw [hu] at h
  cases ch with
  | call k =>
    cases k with
    | exec =>
      have hh : c.history 1 = [] := of_decide_eq_true h
      exact .inr (.inl ⟨rfl, by simp [hh]⟩)
    | wait t =>
      obtain ⟨rfl, hh⟩ : t = 2 ∧ c.history 1 = [.executed 2 2, .created 2] :=
        of_decide_eq_true h
      exact .inr (.inr ⟨2, rfl, by simp [hh], by simp [hh], by simp [hh]⟩)
    | _ => cases h
  | _ => cases h

theorem calls_of_childTurn {c : System} {ch : Choice} (h : childTurn c ch = true) :
    Calls 1 2 7 c (2, ch) ∧ Inserted 1 2 c (2, ch) := by
  refine ⟨.inr ⟨rfl, fun hl => ?_, fun hu => ?_⟩, fun _ x => ⟨fun hb => ?_, fun hl => .inl ?_⟩⟩
  · unfold childTurn at h
    rw [hl] at h
    cases ch with
    | load ok =>
      obtain rfl : ok = true := h
      rfl
    | _ => cases h
  · unfold childTurn at h
    rw [hu] at h
    cases ch with
    | call k =>
      cases k with
      | exit v =>
        obtain rfl : v = 7 := of_decide_eq_true h
        exact .inr rfl
      | _ => cases h
    | _ => cases h
  · unfold childTurn at h
    rw [hb] at h
    simpa using h
  · unfold childTurn at h
    rw [hl] at h
    simpa using h

theorem ready_boot : Ready 1 2 (boot 0 fun _ => noStatus) where
  tids _ := rfl
  user := rfl
  unborn := rfl
  next := rfl
  fresh := by decide
  nodup := nodup_nil
  other := nofun
  history := nofun

theorem wait_delivers_afterExit :
    ∃ c : System, exec procStep (boot 0 fun _ => noStatus) waitAfterExit = some c ∧
      (∃ x, .collected 2 x ∈ c.history 1) ∧ ∀ x, .collected 2 x ∈ c.history 1 → x = 7 := by
  have hmeet : StepsMeet procStep (fun c ev => Calls 1 2 7 c ev ∧ Inserted 1 2 c ev)
      (boot 0 fun _ => noStatus) waitAfterExit := by
    refine stepsMeet_of_checkStep [1, 2] (fun c ev i =>
      i != ev.1 || (if i = 1 then parentTurn c ev.2 else childTurn c ev.2)) ?_ (by decide) rfl
    rintro c ⟨i, ch⟩ - hmem hcheck
    have hturn := hcheck i hmem
    rw [mem_pair] at hmem
    rcases hmem with rfl | rfl
    · exact calls_of_parentTurn (by simpa using hturn)
    · exact calls_of_childTurn (by simpa using hturn)
  have hrun : (exec procStep (boot 0 fun _ => noStatus) waitAfterExit).map
      (fun c : System => c.history 1) = some [.collected 2 7, .executed 2 2, .created 2] := rfl
  obtain ⟨c, hc, hhist⟩ := map_eq_some_iff.mp hrun
  exact ⟨c, hc, ⟨7, by simp [hhist]⟩, (wait_delivers 1 2 7 _ c _ ready_boot hmeet hc).2.1⟩

/-- The child exits between the parent's `thread_create` and its `list_push_back`. -/
def exitBeforeInsertion : List (Tid × Choice) :=
  (1, .call .exec) :: replicate 3 (1, .go) ++
    loadSteps 2 true ++ (2, .go) :: (2, .call (.exit 7)) :: replicate 2 (2, .go) ++
    replicate 11 (1, .go) ++ (1, .call (.wait 2)) :: replicate 3 (1, .go)

theorem wait_exitBeforeInsertion :
    ∃ c : System, exec procStep (boot 0 fun _ => noStatus) exitBeforeInsertion = some c ∧
      c.history 1 = [.executed 2 2, .created 2] ∧ c.at 2 = .dead ∧ c.at 1 = .wait 2 (.down 0) ∧
      outcome .go 1 c.shared (c.at 1) = .blocked := by
  have hrun : (exec procStep (boot 0 fun _ => noStatus) exitBeforeInsertion).map
      (fun c : System => (c.history 1, c.at 2, c.at 1, outcome .go 1 c.shared (c.at 1))) =
        some ([.executed 2 2, .created 2], .dead, .wait 2 (.down 0), .blocked) := rfl
  obtain ⟨c, hc, hshow⟩ := map_eq_some_iff.mp hrun
  simp only [Prod.mk.injEq] at hshow
  exact ⟨c, hc, hshow⟩

end Pintos.Process

import Pintos.WaitList

/-! # The scan of `process_wait`

A `process_wait` that is not interrupted stops at the first status of the list that names the
child and the caller (`runs_waitScan`); without one it returns -1. -/

namespace Pintos.Process

open Interleaving List

variable {c : System} {i t : Tid}

/-- The status names the child `t` of `i`. -/
def isFor (s : Shared) (i t : Tid) (e : StatusPtr) : Bool :=
  match s.statuses.cells e with
  | some w => w.childPid == t && w.parentPid == i
  | none => false

/-- The scan goes on with the elements `l`. -/
def resume (c : System) (i t : Tid) : List StatusPtr → System
  | [] => c.moved i .user (some (.refused t)) c.shared
  | e :: _ => c.moved i (.wait t (.readChild e)) none c.shared

/-- The scan has stopped. -/
def stopped (c : System) (i t : Tid) : Option StatusPtr → System
  | none => c.moved i .user (some (.refused t)) c.shared
  | some e => c.moved i (.wait t (.down e)) none c.shared

/-- The steps of `i` alone lead from `c` to `c'`. -/
def Runs (i : Tid) (c c' : System) : Prop :=
  ∃ n, exec procStep c (replicate n (i, .go)) = some c'

theorem Runs.refl (i : Tid) (c : System) : Runs i c c := ⟨0, rfl⟩

theorem Runs.trans {c1 c2 : System} (h1 : Runs i c c1) (h2 : Runs i c1 c2) : Runs i c c2 := by
  obtain ⟨n, hn⟩ := h1
  obtain ⟨m, hm⟩ := h2
  refine ⟨n + m, ?_⟩
  rw [replicate_add, exec_append, hn]
  exact hm

variable {pc : Pc} {new : Option Event} {s' : Shared} {pre l : List StatusPtr} {e : StatusPtr}

theorem Runs.step (htid : (c.pc i).tid = i)
    (h : outcome .go i c.shared (c.at i) = .next pc new s') : Runs i c (c.moved i pc new s') := by
  refine ⟨1, ?_⟩
  rw [replicate_one, exec, next_of_outcome htid h]
  rfl

theorem Runs.next {c₀ : System} {pc' : Pc} {s : Shared}
    (hrun : Runs i c₀ (c.moved i pc none s)) (h : outcome .go i s pc = .next pc' new s') :
    Runs i c₀ (c.moved i pc' new s') := by
  have hstep : outcome .go i (c.moved i pc none s).shared ((c.moved i pc none s).at i) =
      .next pc' new s' := by
    rw [System.moved_at_self]
    exact h
  have := Runs.step System.moved_tid hstep
  rw [System.moved_moved] at this
  exact hrun.trans this

theorem succ_append (h : e ∉ pre) :
    succ (pre ++ e :: l) e = l.head? := by
  induction pre with
  | nil => rw [nil_append, succ, after_cons_self]
  | cons x pre ih =>
    rw [mem_cons, not_or] at h
    rw [cons_append, succ, after_cons_of_ne (Ne.symm h.1)]
    exact ih h.2

section scan

variable (hnodup : c.shared.waitList.Nodup)
  (hlive : ∀ e ∈ c.shared.waitList, ∃ w, c.shared.statuses.cells e = some w)

include hnodup hlive

theorem runs_waitNext (hlist : c.shared.waitList = pre ++ e :: l)
    (hfor : isFor c.shared i t e = false) :
    Runs i (resume c i t (e :: l)) (resume c i t l) := by
  have hmem : e ∈ c.shared.waitList := by simp [hlist]
  obtain ⟨w, hw⟩ := hlive e hmem
  have hpre : e ∉ pre := by
    rw [hlist, nodup_append] at hnodup
    intro he
    exact hnodup.2.2 e he e (by simp) rfl
  have hnext : outcome .go i c.shared (.wait t (.next e)) = waitAt t c.shared l.head? := by
    simp only [outcome, processWait, Shared.access, hw, Shared.listNext, if_pos hmem]
    rw [hlist, succ_append hpre]
  have hlast : Runs i (resume c i t (e :: l)) (c.moved i (.wait t (.next e)) none c.shared) →
      Runs i (resume c i t (e :: l)) (resume c i t l) := by
    intro h
    cases l with
    | nil | cons x l => exact h.next hnext
  have hfirst : Runs i (resume c i t (e :: l)) (c.moved i (.wait t (.readChild e)) none c.shared) :=
    .refl i _
  by_cases hchild : w.childPid = t
  · have hparent : w.parentPid ≠ i := by
      intro hp
      simp [isFor, hw, hchild, hp] at hfor
    have h1 : outcome .go i c.shared (.wait t (.readChild e)) =
        .next (.wait t (.readParent e)) none c.shared := by
      simp only [outcome, processWait, Shared.access, hw, if_pos hchild]
    have h2 : outcome .go i c.shared (.wait t (.readParent e)) =
        .next (.wait t (.next e)) none c.shared := by
      simp only [outcome, processWait, Shared.access, hw, if_neg hparent]
    exact hlast ((hfirst.next h1).next h2)
  · have h1 : outcome .go i c.shared (.wait t (.readChild e)) =
        .next (.wait t (.next e)) none c.shared := by
      simp only [outcome, processWait, Shared.access, hw, if_neg hchild]
    exact hlast (hfirst.next h1)

/-- **The scan of `process_wait`**, from the elements `l` on. -/
theorem runs_waitScan : ∀ (l pre : List StatusPtr), c.shared.waitList = pre ++ l →
    Runs i (resume c i t l) (stopped c i t (l.find? (isFor c.shared i t))) := by
  intro l
  induction l with
  | nil => exact fun _ _ => .refl i _
  | cons e l ih =>
    intro pre hlist
    cases hfor : isFor c.shared i t e with
    | true =>
      obtain ⟨w, hw⟩ := hlive e (by simp [hlist])
      rw [find?_cons_of_pos hfor]
      simp only [isFor, hw, Bool.and_eq_true, beq_iff_eq] at hfor
      have h1 : outcome .go i c.shared (.wait t (.readChild e)) =
          .next (.wait t (.readParent e)) none c.shared := by
        simp only [outcome, processWait, Shared.access, hw, if_pos hfor.1]
      have h2 : outcome .go i c.shared (.wait t (.readParent e)) =
          .next (.wait t (.down e)) none c.shared := by
        simp only [outcome, processWait, Shared.access, hw, if_pos hfor.2]
      have hfirst : Runs i (resume c i t (e :: l))
          (c.moved i (.wait t (.readChild e)) none c.shared) := .refl i _
      exact (hfirst.next h1).next h2
    | false =>
      rw [find?_cons_of_neg (by simp [hfor])]
      exact (runs_waitNext hnodup hlive hlist hfor).trans (ih (pre ++ [e]) (by simp [hlist]))

end scan

/-! ### Taking the status -/

section take

variable {c₀ : System} {s : Shared} {st : StatusPtr} {w : WaitStatus}

theorem runs_take_of_readVal (hcell : s.statuses.cells st = some w)
    (h : Runs i c₀ (c.moved i (.wait t (.readVal st)) none s)) :
    ∃ s', Runs i c₀ (c.moved i .user (some (.collected t w.returnVal)) s') := by
  have h1 : outcome .go i s (.wait t (.readVal st)) =
      .next (.wait t (.free st w.returnVal)) none s := by
    simp only [outcome, processWait, Shared.access, hcell]
  have h2 : outcome .go i s (.wait t (.free st w.returnVal)) =
      .next .user (some (.collected t w.returnVal)) (s.free st) := by
    simp only [outcome, processWait, Shared.access, hcell]
  exact ⟨_, (h.next h1).next h2⟩

theorem runs_take_of_remove (hcell : s.statuses.cells st = some w) (hmem : st ∈ s.waitList)
    (h : Runs i c₀ (c.moved i (.wait t (.remove st)) none s)) :
    ∃ s', Runs i c₀ (c.moved i .user (some (.collected t w.returnVal)) s') := by
  have h1 : outcome .go i s (.wait t (.remove st)) =
      .next (.wait t (.readVal st)) none (s.listRemove st w) := by
    simp only [outcome, processWait, Shared.access, hcell, if_pos hmem]
  have hcell' : (s.listRemove st w).statuses.cells st =
      some { w with elemNext := succ s.waitList st } := Heap.store_self hcell
  have htake := runs_take_of_readVal hcell' (h.next h1)
  exact htake

/-- A process at `sema_down` whose child has exited returns the child's value. -/
theorem runs_take (hcell : s.statuses.cells st = some w) (hmem : st ∈ s.waitList)
    (hend : w.endP ≠ 0) (h : Runs i c₀ (c.moved i (.wait t (.down st)) none s)) :
    ∃ s', Runs i c₀ (c.moved i .user (some (.collected t w.returnVal)) s') := by
  have h1 : outcome .go i s (.wait t (.down st)) =
      .next (.wait t (.remove st)) none (s.store st { w with endP := w.endP - 1 }) := by
    simp only [outcome, processWait, Shared.access, hcell, if_neg hend]
  have hcell' : (s.store st { w with endP := w.endP - 1 }).statuses.cells st =
      some { w with endP := w.endP - 1 } := Heap.store_self hcell
  have htake := runs_take_of_remove hcell' hmem (h.next h1)
  exact htake

end take

end Pintos.Process

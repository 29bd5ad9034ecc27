import Mathlib.Tactic

/-! # Interleavings of threads over a shared state

Threads take turns on a shared state.  What a thread does when it is its turn is a function of
where it is, of the shared state and of a choice that the environment makes (`step`); a run is a
list of turns (`exec`).

* `StepsMeet ok c evs`: every turn of the run meets `ok` in the configuration in which it is taken.
* `exec_invariant`: what every such turn keeps holds after the run. -/

namespace Interleaving

open Function

/-- The shared state, and where each thread is. -/
structure Conf (ι P σ : Type) where
  shared : σ
  pc : ι → P

variable {ι P E σ : Type} [DecidableEq ι] (step : E → P → σ → Option (P × σ))

/-- A turn: a thread, and the choice. -/
def next (c : Conf ι P σ) (ev : ι × E) : Option (Conf ι P σ) :=
  match step ev.2 (c.pc ev.1) c.shared with
  | some q => some ⟨q.2, update c.pc ev.1 q.1⟩
  | none => none

def exec : Conf ι P σ → List (ι × E) → Option (Conf ι P σ)
  | c, [] => some c
  | c, ev :: evs =>
    match next step c ev with
    | some c' => exec c' evs
    | none => none

/-- Every turn of the run meets `ok` when it is taken. -/
def StepsMeet (ok : Conf ι P σ → ι × E → Prop) : Conf ι P σ → List (ι × E) → Prop
  | _, [] => True
  | c, ev :: evs => ok c ev ∧ ∀ c', next step c ev = some c' → StepsMeet ok c' evs

/-- The run passes `check` at every turn. -/
def checks (check : Conf ι P σ → ι × E → Bool) : Conf ι P σ → List (ι × E) → Bool
  | _, [] => true
  | c, ev :: evs =>
    check c ev &&
      match next step c ev with
      | some c' => checks check c' evs
      | none => true

variable {step}

variable {c c' : Conf ι P σ} {ev : ι × E} {I : Conf ι P σ → Prop} {p : P}

theorem next_eq_some (h : next step c ev = some c') :
    ∃ p s, step ev.2 (c.pc ev.1) c.shared = some (p, s) ∧
      c' = ⟨s, update c.pc ev.1 p⟩ := by
  unfold next at h
  split at h
  · rename_i q hq
    exact ⟨q.1, q.2, hq, (Option.some.inj h).symm⟩
  · cases h

variable {ok : Conf ι P σ → ι × E → Prop}

theorem stepsMeet_cons {evs : List (ι × E)} (hok : ok c ev)
    (hn : next step c ev = some c') (h : StepsMeet step ok c' evs) :
    StepsMeet step ok c (ev :: evs) := by
  refine ⟨hok, fun c1 hc1 => ?_⟩
  obtain rfl : c' = c1 := Option.some.inj (hn.symm.trans hc1)
  exact h

theorem stepsMeet_of_forall (h : ∀ c ev, ok c ev) :
    ∀ (evs : List (ι × E)) (c : Conf ι P σ), StepsMeet step ok c evs := by
  intro evs
  induction evs with
  | nil => exact fun _ => trivial
  | cons ev evs ih => exact fun c => ⟨h c ev, fun c' _ => ih c'⟩

theorem stepsMeet_mono {ok' : Conf ι P σ → ι × E → Prop} (h : ∀ c ev, ok c ev → ok' c ev) :
    ∀ (evs : List (ι × E)) {c : Conf ι P σ}, StepsMeet step ok c evs → StepsMeet step ok' c evs := by
  intro evs
  induction evs with
  | nil => exact fun _ => trivial
  | cons ev evs ih => exact fun hc => ⟨h _ _ hc.1, fun c' hn => ih (hc.2 c' hn)⟩

/-- A run is checked turn by turn; the check may rely on what the turns that pass it keep. -/
theorem stepsMeet_of_checks {check : Conf ι P σ → ι × E → Bool}
    (hcheck : ∀ c ev, I c → check c ev = true → ok c ev)
    (hstep : ∀ c ev c', I c → check c ev = true → next step c ev = some c' → I c') :
    ∀ (evs : List (ι × E)) {c : Conf ι P σ}, I c → checks step check c evs = true →
      StepsMeet step ok c evs := by
  intro evs
  induction evs with
  | nil => exact fun _ _ => trivial
  | cons ev evs ih =>
    intro c hI h
    rw [checks, Bool.and_eq_true] at h
    refine ⟨hcheck c ev hI h.1, fun c' hn => ih (hstep c ev c' hI h.1 hn) ?_⟩
    simpa only [hn] using h.2

/-- **Invariant rule.** -/
theorem exec_invariant (hstep : ∀ c ev c', I c → ok c ev → next step c ev = some c' → I c') :
    ∀ (evs : List (ι × E)) {c c' : Conf ι P σ}, I c → StepsMeet step ok c evs →
      exec step c evs = some c' → I c' := by
  intro evs
  induction evs with
  | nil =>
    intro c c' hI _ hexec
    cases hexec
    exact hI
  | cons ev evs ih =>
    intro c c' hI hok hexec
    cases hn : next step c ev with
    | none =>
      rw [exec, hn] at hexec
      cases hexec
    | some c1 =>
      rw [exec, hn] at hexec
      exact ih (hstep c ev c1 hI hok.1 hn) (hok.2 c1 hn) hexec

/-- One thread moves: what holds between any two threads still does if it holds between the moved
one and each of the others. -/
theorem pairwise_update (Rel : P → P → Prop) (hsymm : ∀ p q, Rel p q → Rel q p) {pc : ι → P}
    {t : ι} (h : ∀ t1 t2, t1 ≠ t2 → Rel (pc t1) (pc t2))
    (hp : ∀ t', t' ≠ t → Rel p (pc t')) (t1 t2 : ι) (hne : t1 ≠ t2) :
    Rel (update pc t p t1) (update pc t p t2) := by
  rcases eq_or_ne t1 t with rfl | h1
  · rw [update_self, update_of_ne hne.symm]
    exact hp t2 hne.symm
  · rw [update_of_ne h1]
    rcases eq_or_ne t2 t with rfl | h2
    · rw [update_self]
      exact hsymm _ _ (hp t1 h1)
    · rw [update_of_ne h2]
      exact h t1 t2 hne

theorem exec_append (evs evs' : List (ι × E)) (c : Conf ι P σ) :
    exec step c (evs ++ evs') = (exec step c evs).bind fun c' => exec step c' evs' := by
  induction evs generalizing c with
  | nil => rfl
  | cons ev evs ih =>
    rw [List.cons_append, exec, exec]
    cases next step c ev with
    | none => rfl
    | some c' => exact ih c'

end Interleaving

import Mathlib.Tactic

/-! # Runs of a labelled transition system

`step s e` is the state after the event `e`, or `none` if `e` cannot happen in `s`.

* `run step s es`: the state after the events `es`.
* `Meets step ok s es`: every event of the run meets `ok` in the state in which it happens.
* `run_invariant`: what every such event keeps holds after the run. -/

namespace Transition

variable {σ E : Type} (step : σ → E → Option σ)

def run : σ → List E → Option σ
  | s, [] => some s
  | s, e :: es =>
    match step s e with
    | some s' => run s' es
    | none => none

/-- Every event of the run meets `ok` when it happens. -/
def Meets (ok : σ → E → Prop) : σ → List E → Prop
  | _, [] => True
  | s, e :: es => ok s e ∧ ∀ s', step s e = some s' → Meets ok s' es

variable {step}

variable {e : E} {es : List E} {s s' : σ}

theorem run_cons (h : run step s (e :: es) = some s') :
    ∃ s1, step s e = some s1 ∧ run step s1 es = some s' := by
  rw [run] at h
  cases hs : step s e with
  | none =>
    rw [hs] at h
    cases h
  | some s1 =>
    rw [hs] at h
    exact ⟨s1, rfl, h⟩

theorem run_concat {s'' : σ} (hs : step s' e = some s'') :
    ∀ (es : List E) {s : σ}, run step s es = some s' → run step s (es ++ [e]) = some s'' := by
  intro es
  induction es with
  | nil =>
    intro s h
    cases h
    simp only [List.nil_append, run, hs]
  | cons e' es ih =>
    intro s h
    obtain ⟨s1, hs1, hrun⟩ := run_cons h
    simp only [List.cons_append, run, hs1]
    exact ih hrun

variable {ok : σ → E → Prop}

theorem meets_cons (hok : ok s e) (hs : step s e = some s') (h : Meets step ok s' es) :
    Meets step ok s (e :: es) := by
  refine ⟨hok, fun s1 hs1 => ?_⟩
  obtain rfl : s' = s1 := Option.some.inj (hs.symm.trans hs1)
  exact h

theorem meets_of_forall (h : ∀ s e, ok s e) : ∀ (es : List E) (s : σ), Meets step ok s es := by
  intro es
  induction es with
  | nil => exact fun _ => trivial
  | cons e es ih => exact fun s => ⟨h s e, fun s' _ => ih s'⟩

/-- Whether a run meets `ok` is found by running it. -/
instance decidableMeets {ok : σ → E → Prop} [∀ s e, Decidable (ok s e)] :
    ∀ (s : σ) (es : List E), Decidable (Meets step ok s es)
  | _, [] => .isTrue trivial
  | s, e :: es =>
    match h : step s e with
    | none => decidable_of_iff (ok s e)
        ⟨fun hok => ⟨hok, fun s' hs => absurd (hs.symm.trans h) (Option.some_ne_none s')⟩, And.left⟩
    | some s' =>
      have : Decidable (Meets step ok s' es) := decidableMeets s' es
      decidable_of_iff (ok s e ∧ Meets step ok s' es)
        ⟨fun hok => meets_cons hok.1 h hok.2, fun hok => ⟨hok.1, hok.2 s' h⟩⟩

/-- **Invariant rule.** -/
theorem run_invariant {I : σ → Prop} (hstep : ∀ s e s', I s → ok s e → step s e = some s' → I s') :
    ∀ (es : List E) {s s' : σ}, I s → Meets step ok s es → run step s es = some s' → I s' := by
  intro es
  induction es with
  | nil =>
    intro s s' hI _ hrun
    cases hrun
    exact hI
  | cons e es ih =>
    intro s s' hI hok hrun
    obtain ⟨s1, hs1, hrun1⟩ := run_cons hrun
    exact ih (hstep s e s1 hI hok.1 hs1) (hok.2 s1 hs1) hrun1

theorem run_keeps {I : σ → Prop} (hstep : ∀ s e s', I s → step s e = some s' → I s') (hI : I s)
    (hrun : run step s es = some s') : I s' := by
  have hmeets : Meets step (fun _ _ => True) s es := meets_of_forall (fun _ _ => trivial) es s
  exact run_invariant (fun s e s' h _ hs => hstep s e s' h hs) es hI hmeets hrun

end Transition

import Mathlib.Tactic

/-! # Programs over an operation signature

A program is a tree of calls: it returns, or it makes a call of the signature and goes on
with what the call returned (`Prog`).  A handler gives the calls a meaning on a state, with
faults (`Handler`), and `run` executes a program under a handler.

* **Specifications.**  `Ensures h p s Q` is total correctness: from `s` the program `p`
  ends without a fault, in a result and a state that satisfy `Q`.  It distributes over the
  program text (`ensures_ret`, `ensures_bind`, `ensures_call`), so that a specification is
  computed call by call; counting loops have an invariant rule (`ensures_forLoop`).
* **Relations.**  What every part of a program keeps, the program keeps (`Keeps.bind`).
* **Refinement.**  A sequence of calls answers as an abstract state says if every single call
  does (`ensures_runAll`).
* **Two signatures.**  A program over one of two signatures runs as before (`ensures_inl`).
* **Simulation.**  If one handler simulates another call by call, it simulates it on every
  program (`run_simulation`): what is proved over an abstract store holds over any store
  that implements it. -/

namespace Interaction

/-- An operation signature: the calls, and what each of them returns. -/
structure Sig where
  Op : Type
  Res : Op → Type

/-- Programs over a signature. -/
inductive Prog (S : Sig) (α : Type) : Type
  | ret (a : α)
  | op (e : S.Op) (k : S.Res e → Prog S α)

variable {S : Sig} {α β γ σ τ ε : Type}

namespace Prog

def bind : Prog S α → (α → Prog S β) → Prog S β
  | ret a, f => f a
  | op e k, f => op e (fun r => (k r).bind f)

instance : Monad (Prog S) where
  pure := ret
  bind := bind

/-- A single call. -/
def call (e : S.Op) : Prog S (S.Res e) := op e ret

theorem bind_eq (p : Prog S α) (f : α → Prog S β) : p >>= f = p.bind f := rfl

theorem bind_ret (p : Prog S α) : p.bind ret = p := by
  induction p with
  | ret a => rfl
  | op e k ih => exact congrArg (op e) (funext ih)

theorem bind_bind (p : Prog S α) (f : α → Prog S β) (g : β → Prog S γ) :
    (p.bind f).bind g = p.bind fun a => (f a).bind g := by
  induction p with
  | ret a => rfl
  | op e k ih => exact congrArg (op e) (funext ih)

instance : LawfulMonad (Prog S) :=
  LawfulMonad.mk' (Prog S) bind_ret (fun _ _ => rfl) bind_bind

end Prog

/-- The meaning of the calls on a state: a result and the next state, or a fault. -/
abbrev Handler (S : Sig) (σ ε : Type) := (e : S.Op) → σ → Except ε (S.Res e × σ)

/-- Execution of a program under a handler. -/
def run (h : Handler S σ ε) : Prog S α → σ → Except ε (α × σ)
  | .ret a, s => .ok (a, s)
  | .op e k, s =>
    match h e s with
    | .error f => .error f
    | .ok (r, s') => run h (k r) s'

theorem run_bind (h : Handler S σ ε) (p : Prog S α) (f : α → Prog S β) (s : σ) :
    run h (p >>= f) s =
      match run h p s with
      | .error e => .error e
      | .ok (a, s') => run h (f a) s' := by
  rw [Prog.bind_eq]
  induction p generalizing s with
  | ret a => rfl
  | op e k ih =>
    simp only [Prog.bind, run]
    cases h e s with
    | error f => rfl
    | ok r => exact ih r.1 r.2

theorem run_call (h : Handler S σ ε) (e : S.Op) (s : σ) : run h (Prog.call e) s = h e s := by
  simp only [Prog.call, run]
  cases h e s <;> rfl

/-! ### Total correctness -/

/-- From `s` the program ends without a fault, and result and state satisfy `Q`. -/
def Ensures (h : Handler S σ ε) (p : Prog S α) (s : σ) (Q : α → σ → Prop) : Prop :=
  ∃ a s', run h p s = .ok (a, s') ∧ Q a s'

/-- A run whose result can be evaluated. -/
theorem run_of_result {h : Handler S σ ε} {p : Prog S α} {s : σ} {f : α → β} {b : β}
    (hrun : (run h p s).toOption.map (fun r => f r.1) = some b) :
    ∃ a s', run h p s = .ok (a, s') ∧ f a = b := by
  cases hr : run h p s with
  | error e =>
    rw [hr] at hrun
    cases hrun
  | ok r =>
    rw [hr] at hrun
    exact ⟨r.1, r.2, rfl, Option.some.inj hrun⟩

@[simp] theorem ensures_ret (h : Handler S σ ε) (a : α) (s : σ) (Q : α → σ → Prop) :
    Ensures h (pure a) s Q ↔ Q a s := by
  constructor
  · rintro ⟨b, s', hr, hq⟩
    cases hr
    exact hq
  · exact fun hq => ⟨a, s, rfl, hq⟩

@[simp] theorem ensures_bind (h : Handler S σ ε) (p : Prog S α) (f : α → Prog S β) (s : σ)
    (Q : β → σ → Prop) :
    Ensures h (p >>= f) s Q ↔ Ensures h p s (fun a s' => Ensures h (f a) s' Q) := by
  unfold Ensures
  rw [run_bind]
  cases run h p s with
  | error e => simp
  | ok r =>
    obtain ⟨a, s'⟩ := r
    constructor
    · exact fun hq => ⟨a, s', rfl, hq⟩
    · rintro ⟨b, s'', hr, hq⟩
      cases hr
      exact hq

theorem ensures_call (h : Handler S σ ε) (e : S.Op) (s : σ) (Q : S.Res e → σ → Prop) :
    Ensures h (Prog.call e) s Q ↔ ∃ r s', h e s = .ok (r, s') ∧ Q r s' := by
  simp only [Ensures, run_call]

variable {body : ℤ → τ → Prog S τ} {f : α → Prog S β} {i : ℤ} {x : τ}

section

variable {h : Handler S σ ε} {p : Prog S α} {s s' : σ} {a : α} {e : S.Op} {Q Q' R : α → σ → Prop}

variable {r : S.Res e}

theorem ensures_call_ok {Q : S.Res e → σ → Prop} (he : h e s = .ok (r, s')) :
    Ensures h (Prog.call e) s Q ↔ Q r s' := by
  rw [ensures_call, he]
  constructor
  · rintro ⟨r', s'', hr, hq⟩
    cases hr
    exact hq
  · exact fun hq => ⟨r, s', rfl, hq⟩

theorem not_ensures_call {f : ε} {Q : S.Res e → σ → Prop} (he : h e s = .error f) :
    ¬ Ensures h (Prog.call e) s Q := by
  rw [ensures_call, he]
  rintro ⟨_, _, hr, _⟩
  cases hr

theorem Ensures.mono (hp : Ensures h p s Q) (hq : ∀ a s', Q a s' → Q' a s') : Ensures h p s Q' := by
  obtain ⟨a, s', hr, hs⟩ := hp
  exact ⟨a, s', hr, hq a s' hs⟩

/-- Execution is deterministic, so two specifications of one run can be combined. -/
theorem Ensures.and (hp : Ensures h p s Q) (hp' : Ensures h p s Q') :
    Ensures h p s (fun a s' => Q a s' ∧ Q' a s') := by
  obtain ⟨a, s', hr, hq⟩ := hp
  obtain ⟨a', s'', hr', hq'⟩ := hp'
  rw [hr] at hr'
  cases hr'
  exact ⟨a, s', hr, hq, hq'⟩

theorem Ensures.of_run (hp : Ensures h p s Q) (hr : run h p s = .ok (a, s')) : Q a s' := by
  obtain ⟨b, s'', hr', hq⟩ := hp
  rw [hr] at hr'
  cases hr'
  exact hq

theorem Ensures.returns_iff {b : α} (hp : Ensures h p s (fun r _ => r = a)) :
    Ensures h p s (fun r _ => r = b) ↔ a = b := by
  constructor
  · intro hb
    obtain ⟨_, _, _, rfl, rfl⟩ := hp.and hb
    rfl
  · rintro rfl
    exact hp

/-- A program with a known outcome can be run first, whatever follows it. -/
theorem Ensures.bind_iff (hp : Ensures h p s R) :
    ∃ a s', R a s' ∧ ∀ (f : α → Prog S β) (Q : β → σ → Prop),
      Ensures h (p >>= f) s Q ↔ Ensures h (f a) s' Q := by
  obtain ⟨a, s', hr, hR⟩ := hp
  refine ⟨a, s', hR, fun f Q => ?_⟩
  rw [ensures_bind]
  exact ⟨fun hq => hq.of_run hr, fun hq => ⟨a, s', hr, hq⟩⟩

/-! ### Partial correctness -/

/-- If from `s` the program ends without a fault, then result and state satisfy `Q`. -/
def Always (h : Handler S σ ε) (p : Prog S α) (s : σ) (Q : α → σ → Prop) : Prop :=
  ∀ a s', run h p s = .ok (a, s') → Q a s'

theorem always_ret (hq : Q a s) : Always h (pure a) s Q := by
  intro b s' hr
  cases hr
  exact hq

theorem always_bind {Q : β → σ → Prop} (hp : Always h p s R)
    (hf : ∀ a s', R a s' → Always h (f a) s' Q) : Always h (p >>= f) s Q := by
  intro b s' hr
  rw [run_bind] at hr
  cases hp' : run h p s with
  | error e => rw [hp'] at hr; cases hr
  | ok r => rw [hp'] at hr; exact hf r.1 r.2 (hp r.1 r.2 hp') b s' hr

@[simp] theorem always_ret_iff : Always h (pure a) s Q ↔ Q a s :=
  ⟨fun hq => hq a s rfl, always_ret⟩

@[simp] theorem always_bind_iff {Q : β → σ → Prop} :
    Always h (p >>= f) s Q ↔ Always h p s (fun a s' => Always h (f a) s' Q) := by
  refine ⟨fun hq a s' hr b s'' hr' => hq b s'' ?_, fun hp => always_bind hp fun _ _ hf => hf⟩
  rw [run_bind, hr]
  exact hr'

theorem always_call_ok {Q : S.Res e → σ → Prop} (he : h e s = .ok (r, s')) :
    Always h (Prog.call e) s Q ↔ Q r s' := by
  unfold Always
  rw [run_call, he]
  constructor
  · exact fun hq => hq r s' rfl
  · rintro hq a t hr
    cases hr
    exact hq

theorem always_true (h : Handler S σ ε) (p : Prog S α) (s : σ) :
    Always h p s (fun _ _ => True) := fun _ _ _ => trivial

theorem always_then {Q : β → σ → Prop} (hf : ∀ a s', Always h (f a) s' Q) :
    Always h (p >>= f) s Q :=
  always_bind (always_true h p s) fun a s' _ => hf a s'

theorem Always.mono (hp : Always h p s Q) (hq : ∀ a s', Q a s' → Q' a s') : Always h p s Q' :=
  fun a s' hr => hq a s' (hp a s' hr)

theorem Always.and (hq : Always h p s Q) (hr : Always h p s R) :
    Always h p s (fun a s' => Q a s' ∧ R a s') :=
  fun a s' hrun => ⟨hq a s' hrun, hr a s' hrun⟩

theorem Ensures.and_always (hp : Ensures h p s Q) (hr : Always h p s R) :
    Ensures h p s (fun a s' => Q a s' ∧ R a s') := by
  obtain ⟨a, s', hrun, hq⟩ := hp
  exact ⟨a, s', hrun, hq, hr a s' hrun⟩

theorem Ensures.always (hp : Ensures h p s Q) : Always h p s Q := fun _ _ hr => hp.of_run hr

theorem Ensures.always_iff (hp : Ensures h p s R) :
    ∃ a s', R a s' ∧ ∀ Q : α → σ → Prop, Always h p s Q ↔ Q a s' := by
  obtain ⟨a, s', hr, hR⟩ := hp
  refine ⟨a, s', hR, fun Q => ⟨fun hq => hq a s' hr, fun hq b s'' hr' => ?_⟩⟩
  rw [hr] at hr'
  cases hr'
  exact hq

theorem always_imp_iff {A : α → Prop} {P : Prop} :
    Always h p s (fun a _ => A a → P) ↔ (Ensures h p s (fun a _ => A a) → P) :=
  ⟨fun hall ⟨a, s', hr, ha⟩ => hall a s' hr ha, fun himp a s' hr ha => himp ⟨a, s', hr, ha⟩⟩

theorem ensures_congr (hp : Always h p s R) (hq : ∀ a s', R a s' → (Q a s' ↔ Q' a s')) :
    Ensures h p s Q ↔ Ensures h p s Q' :=
  exists_congr fun a => exists_congr fun s' => and_congr_right fun hr => hq a s' (hp a s' hr)

theorem always_congr (hp : Always h p s R) (hq : ∀ a s', R a s' → (Q a s' ↔ Q' a s')) :
    Always h p s Q ↔ Always h p s Q' :=
  forall_congr' fun a => forall_congr' fun s' => forall_congr' fun hr => hq a s' (hp a s' hr)

theorem Always.intro (hp : ∀ R : α → σ → Prop, Ensures h p s R → ∃ a s', R a s' ∧ Q a s') :
    Always h p s Q := by
  intro a s' hrun
  obtain ⟨_, _, ⟨rfl, rfl⟩, hq⟩ := hp (fun b t => b = a ∧ t = s') ⟨a, s', hrun, rfl, rfl⟩
  exact hq

/-- What every call keeps, every program keeps. -/
theorem always_invariant {I : σ → Prop} (hI : ∀ e s r s', I s → h e s = .ok (r, s') → I s')
    (p : Prog S α) (hs : I s) : Always h p s (fun _ s' => I s') := by
  induction p generalizing s with
  | ret a => exact always_ret hs
  | op e k ih =>
    intro b s' hr
    simp only [run] at hr
    cases he : h e s with
    | error f => rw [he] at hr; cases hr
    | ok r =>
      rw [he] at hr
      exact ih r.1 (hI e s r.1 r.2 hs he) b s' hr

end

/-! ### Relations that a program keeps -/

/-- However the program ends, its last state is related to its first. -/
def Keeps (h : Handler S σ ε) (R : σ → σ → Prop) (p : Prog S α) : Prop :=
  ∀ s, Always h p s fun _ s' => R s s'

namespace Keeps

variable {h : Handler S σ ε} {R : σ → σ → Prop} [IsPreorder σ R]

theorem ret (a : α) : Keeps h R (pure a : Prog S α) := fun s => always_ret (refl_of R s)

theorem bind {p : Prog S α} (hp : Keeps h R p) (hf : ∀ a, Keeps h R (f a)) :
    Keeps h R (p >>= f) := by
  intro s
  refine always_bind (hp s) fun a s1 h1 => (hf a s1).mono fun b s2 h2 => ?_
  exact trans_of R h1 h2

end Keeps

/-! ### Counting loops -/

/-- `for (; cond (i, x); i++) x = body (i, x)`, at most `fuel` rounds; the result is the
value of the counter and of the loop's variables when it stops. -/
def forLoop (cond : ℤ → τ → Bool) (body : ℤ → τ → Prog S τ) : ℕ → ℤ → τ → Prog S (ℤ × τ)
  | 0, i, x => pure (i, x)
  | fuel + 1, i, x =>
    if cond i x then do
      let x' ← body i x
      forLoop cond body fuel (i + 1) x'
    else pure (i, x)

variable {cond : ℤ → τ → Bool}

theorem forLoop_round {fuel : ℕ} (hfuel : 0 < fuel) (hc : cond i x = true) :
    forLoop cond body fuel i x = body i x >>= fun x' => forLoop cond body (fuel - 1) (i + 1) x' := by
  obtain ⟨fuel, rfl⟩ : ∃ m, fuel = m + 1 := ⟨fuel - 1, by omega⟩
  rw [forLoop, if_pos hc, Nat.add_sub_cancel]

theorem forLoop_done (fuel : ℕ) (hc : cond i x = false) :
    forLoop cond body fuel i x = pure (i, x) := by
  cases fuel with
  | zero => rfl
  | succ fuel => rw [forLoop, if_neg (by rw [hc]; simp)]

/-- Invariant rule: an invariant of the body holds when the loop stops, with the condition
false or the rounds used up. -/
theorem ensures_forLoop {h : Handler S σ ε} (Inv : ℤ → τ → σ → Prop)
    (hbody : ∀ i x s, Inv i x s → cond i x = true →
      Ensures h (body i x) s (fun x' s' => Inv (i + 1) x' s')) :
    ∀ (fuel : ℕ) (i : ℤ) (x : τ) (s : σ), Inv i x s →
      Ensures h (forLoop cond body fuel i x) s
        (fun r s' => Inv r.1 r.2 s' ∧ (cond r.1 r.2 = false ∨ r.1 = i + fuel)) := by
  intro fuel
  induction fuel with
  | zero =>
    intro i x s hi
    simp [forLoop, hi]
  | succ fuel ih =>
    intro i x s hi
    by_cases hc : cond i x = true
    · simp only [forLoop, hc, if_true, ensures_bind]
      refine (hbody i x s hi hc).mono fun x' s' hi' => ?_
      refine (ih (i + 1) x' s' hi').mono fun r s'' hr => ⟨hr.1, ?_⟩
      rcases hr.2 with hf | hf
      · exact .inl hf
      · right; push_cast; omega
    · simp [forLoop, hc, hi]

/-- Partial correctness of a loop, by an invariant of the rounds that end. -/
theorem always_forLoop {h : Handler S σ ε} (Inv : ℤ → τ → σ → Prop)
    (hbody : ∀ i x s, Inv i x s → cond i x = true →
      Always h (body i x) s (fun x' s' => Inv (i + 1) x' s')) :
    ∀ (fuel : ℕ) (i : ℤ) (x : τ) (s : σ), Inv i x s →
      Always h (forLoop cond body fuel i x) s
        (fun r s' => Inv r.1 r.2 s' ∧ (cond r.1 r.2 = false ∨ r.1 = i + fuel)) := by
  intro fuel
  induction fuel with
  | zero =>
    intro i x s hi
    exact always_ret ⟨hi, .inr (by simp)⟩
  | succ fuel ih =>
    intro i x s hi
    by_cases hc : cond i x = true
    · simp only [forLoop, hc, if_true]
      refine always_bind (hbody i x s hi hc) fun x' s' hi' => ?_
      refine (ih (i + 1) x' s' hi').mono fun r s'' hr => ⟨hr.1, ?_⟩
      rcases hr.2 with hf | hf
      · exact .inl hf
      · right; push_cast; omega
    · rw [Bool.not_eq_true] at hc
      simp only [forLoop, hc, Bool.false_eq_true, if_false]
      exact always_ret ⟨hi, .inl hc⟩

/-! ### Simulation -/

/-- `h₁` simulates `h₂` along `R`: what `h₂` does without a fault, `h₁` does too. -/
def Simulates (h₁ : Handler S σ ε) (h₂ : Handler S τ ε) (R : σ → τ → Prop) : Prop :=
  ∀ e s t r t', R s t → h₂ e t = .ok (r, t') → ∃ s', h₁ e s = .ok (r, s') ∧ R s' t'

/-- Simulation call by call is simulation of every program. -/
theorem run_simulation {h1 : Handler S σ ε} {h2 : Handler S τ ε} {R : σ → τ → Prop}
    (hsim : Simulates h1 h2 R) (p : Prog S α) {s : σ} {t t' : τ} {a : α} (hR : R s t)
    (hrun : run h2 p t = .ok (a, t')) : ∃ s', run h1 p s = .ok (a, s') ∧ R s' t' := by
  induction p generalizing s t with
  | ret b =>
    cases hrun
    exact ⟨s, rfl, hR⟩
  | op e k ih =>
    simp only [run] at hrun
    cases he : h2 e t with
    | error f => rw [he] at hrun; cases hrun
    | ok r =>
      rw [he] at hrun
      obtain ⟨s1, hs1, hR1⟩ := hsim e s t r.1 r.2 hR he
      obtain ⟨s', hs', hR'⟩ := ih r.1 hR1 hrun
      exact ⟨s', by simp only [run, hs1, hs'], hR'⟩

/-! ### Two signatures -/

section Sum

variable {T : Sig} {μ : Type}

/-- The calls of both signatures. -/
abbrev Sig.sum (S T : Sig) : Sig where
  Op := S.Op ⊕ T.Op
  Res
    | .inl e => S.Res e
    | .inr e => T.Res e

/-- A program over the first signature, as one over both. -/
def Prog.inl : Prog S α → Prog (S.sum T) α
  | .ret a => .ret a
  | .op e k => .op (Sum.inl e) (fun r => (k r).inl)

/-- The calls of the first signature act on the first part of the state; those of the second may
read and set both. -/
def sumHandler (h : Handler S σ ε) (g : Handler T (σ × μ) ε) : Handler (S.sum T) (σ × μ) ε
  | .inl e, s =>
    match h e s.1 with
    | .error f => .error f
    | .ok (r, s') => .ok (r, (s', s.2))
  | .inr e, s => g e s

theorem run_inl (h : Handler S σ ε) (g : Handler T (σ × μ) ε) (p : Prog S α) (s : σ) (m : μ) :
    run (sumHandler h g) p.inl (s, m) =
      match run h p s with
      | .error f => .error f
      | .ok (a, s') => .ok (a, (s', m)) := by
  induction p generalizing s with
  | ret a => rfl
  | op e k ih =>
    simp only [Prog.inl, run, sumHandler]
    cases h e s with
    | error f => rfl
    | ok r => exact ih r.1 r.2

variable {h : Handler S σ ε} {g : Handler T (σ × μ) ε} {p : Prog S α} {s : σ} {m : μ}
  {Q : α → σ × μ → Prop}

@[simp] theorem ensures_inl
    :
    Ensures (sumHandler h g) p.inl (s, m) Q ↔ Ensures h p s (fun a s' => Q a (s', m)) := by
  unfold Ensures
  rw [run_inl]
  cases run h p s with
  | error f => simp
  | ok r =>
    constructor
    · rintro ⟨a, s', hr, hq⟩
      cases hr
      exact ⟨r.1, r.2, rfl, hq⟩
    · rintro ⟨a, s', hr, hq⟩
      obtain rfl := Except.ok.inj hr
      exact ⟨a, (s', m), rfl, hq⟩

@[simp] theorem always_inl
    :
    Always (sumHandler h g) p.inl (s, m) Q ↔ Always h p s (fun a s' => Q a (s', m)) := by
  unfold Always
  rw [run_inl]
  cases run h p s with
  | error f => simp
  | ok r =>
    constructor
    · rintro hq a s' hr
      obtain rfl := Except.ok.inj hr
      exact hq a (s', m) rfl
    · rintro hq a s' hr
      cases hr
      exact hq r.1 r.2 rfl

end Sum

/-! ### Sequences of calls -/

section Sequences

variable {C R A : Type} (h : Handler S σ ε) (prog : C → Prog S R)

/-- The calls of a sequence, one after the other, with what each of them returned. -/
def runAll : List C → Prog S (List R)
  | [] => pure []
  | c :: cs => do
    let r ← prog c
    let rs ← runAll cs
    pure (r :: rs)

/-- Every call of the sequence is allowed when it is made: in the state that the calls before it
have left, and in the abstract state that belongs to it. -/
def Admissible (allowed : σ → A → C → Prop) (after : A → C → A) : σ → A → List C → Prop
  | _, _, [] => True
  | s, a, c :: cs => allowed s a c ∧
      ∀ r s', run h (prog c) s = .ok (r, s') → Admissible allowed after s' (after a c) cs

/-- Every call of the sequence returned what the abstract state allows it to. -/
def Answers (answer : A → C → R → Prop) (after : A → C → A) : A → List C → List R → Prop
  | _, [], [] => True
  | a, c :: cs, r :: rs => answer a c r ∧ Answers answer after (after a c) cs rs
  | _, _, _ => False

variable {h prog}

/-- **Refinement of sequences**: if every allowed call answers as the abstract state says and
leaves related states, so does every admissible sequence of calls. -/
theorem ensures_runAll {allowed : σ → A → C → Prop} {answer : A → C → R → Prop}
    {after : A → C → A} {rel : σ → A → Prop}
    (hstep : ∀ s a c, rel s a → allowed s a c →
      Ensures h (prog c) s (fun r s' => answer a c r ∧ rel s' (after a c))) :
    ∀ (cs : List C) (s : σ) (a : A), rel s a → Admissible h prog allowed after s a cs →
      Ensures h (runAll prog cs) s (fun rs s' =>
        Answers answer after a cs rs ∧ rel s' (cs.foldl after a)) := by
  intro cs
  induction cs with
  | nil =>
    intro s a hrel _
    rw [runAll, ensures_ret]
    exact ⟨trivial, hrel⟩
  | cons c cs ih =>
    intro s a hrel hadm
    obtain ⟨r, s1, hrun, hr, hrel1⟩ := hstep s a c hrel hadm.1
    rw [runAll, ensures_bind]
    refine ⟨r, s1, hrun, (ensures_bind ..).mpr ?_⟩
    refine (ih s1 (after a c) hrel1 (hadm.2 r s1 hrun)).mono fun rs s2 hrs => ?_
    rw [ensures_ret]
    exact ⟨⟨hr, hrs.1⟩, hrs.2⟩

variable (h prog)

/-- What a sequence of calls from `s₀` reaches: the calls made so far with what they returned,
the last one first, and the state.  Every call was allowed when it was made. -/
inductive Reaches (allowed : List (C × R) → σ → C → Prop) (s₀ : σ) : List (C × R) → σ → Prop
  | start : Reaches allowed s₀ [] s₀
  | call {past : List (C × R)} {s s' : σ} {c : C} {r : R} : Reaches allowed s₀ past s →
      allowed past s c → run h (prog c) s = .ok (r, s') → Reaches allowed s₀ ((c, r) :: past) s'

variable {h prog}

/-- What every allowed call keeps holds in every state that is reached. -/
theorem Reaches.invariant {allowed : List (C × R) → σ → C → Prop} {s0 s : σ} {past : List (C × R)}
    (hr : Reaches h prog allowed s0 past s) {I : List (C × R) → σ → Prop} (hstart : I [] s0)
    (hstep : ∀ past s c, I past s → allowed past s c →
      Always h (prog c) s (fun r s' => I ((c, r) :: past) s')) : I past s := by
  induction hr with
  | start => exact hstart
  | call _ hc hrun ih => exact hstep _ _ _ ih hc _ _ hrun

end Sequences

end Interaction

import Pintos.Interaction
import Pintos.Interleaving

/-! # Programs that run side by side

Threads that run programs over one signature and take turns on a shared state, one call a turn.

* `Task`: where a thread is, the number of calls it has made and the rest of its program.
* `Serial`: if a thread takes its turns only while the other one has not started or has returned,
  then the one program runs after the other.
* `Within A p s`: the calls that `p` makes, when it runs alone from `s`, are in `A`.  Threads whose
  calls do not change what the others see end as if each of them had run alone (`Ghosts`). -/

namespace Interaction

open Interleaving

structure Task (S : Sig) (α : Type) where
  calls : ℕ
  rest : Prog S α

variable {S : Sig} {σ ε α β ι : Type} [DecidableEq ι]

/-- The next call of a thread. -/
def turn (h : Handler S σ ε) (_ : Unit) (t : Task S α) (s : σ) : Option (Task S α × σ) :=
  match t.rest with
  | .ret _ => none
  | .op e k =>
    match h e s with
    | .ok (r, s') => some (⟨t.calls + 1, k r⟩, s')
    | .error _ => none

/-- The threads before their first call. -/
def spawn (s : σ) (start : ι → Prog S α) : Conf ι (Task S α) σ := ⟨s, fun i => ⟨0, start i⟩⟩

/-- What the program has returned, if it has. -/
def Prog.result : Prog S α → Option α
  | .ret a => some a
  | .op _ _ => none

theorem Prog.eq_ret {p : Prog S α} {a : α} (h : p.result = some a) : p = .ret a := by
  cases p with
  | ret b =>
    cases h
    rfl
  | op e k => cases h

/-- Every thread has returned. -/
def Returned (c : Conf ι (Task S α) σ) (out : ι → α) : Prop := ∀ i, (c.pc i).rest = .ret (out i)

/-- The thread whose turn it is has returned, or its call does not fail. -/
def Proceeds (h : Handler S σ ε) (c : Conf ι (Task S α) σ) (ev : ι × Unit) : Prop :=
  (∃ a, (c.pc ev.1).rest = .ret a) ∨ ∃ c', next (turn h) c ev = some c'

variable {h : Handler S σ ε}

theorem turn_eq_some {u : Unit} {t t' : Task S α} {s s' : σ} (ht : turn h u t s = some (t', s')) :
    ∃ e k r, t.rest = .op e k ∧ h e s = .ok (r, s') ∧ t' = ⟨t.calls + 1, k r⟩ := by
  unfold turn at ht
  cases hrest : t.rest with
  | ret a =>
    rw [hrest] at ht
    cases ht
  | op e k =>
    rw [hrest] at ht
    dsimp only at ht
    cases he : h e s with
    | error f =>
      rw [he] at ht
      cases ht
    | ok q =>
      rw [he] at ht
      cases ht
      exact ⟨e, k, q.1, rfl, he, rfl⟩

variable {e : S.Op} {k : S.Res e → Prog S α}

theorem run_op {s s' : σ} {r : S.Res e} (he : h e s = .ok (r, s')) :
    run h (.op e k) s = run h (k r) s' := by
  rw [run, he]

variable {ev : ι × Unit}

theorem next_turn {c c' : Conf ι (Task S α) σ} (hn : next (turn h) c ev = some c') :
    ∃ e k r, (c.pc ev.1).rest = .op e k ∧ h e c.shared = .ok (r, c'.shared) ∧
      c'.pc ev.1 = ⟨(c.pc ev.1).calls + 1, k r⟩ ∧ ∀ j, j ≠ ev.1 → c'.pc j = c.pc j := by
  obtain ⟨t, s', hturn, rfl⟩ := next_eq_some hn
  obtain ⟨e, k, r, hrest, he, rfl⟩ := turn_eq_some hturn
  exact ⟨e, k, r, hrest, he, Function.update_self .., fun j hj => Function.update_of_ne hj ..⟩

theorem proceeds_of_ok {c : Conf ι (Task S α) σ} {q : S.Res e × σ}
    (hrest : (c.pc ev.1).rest = .op e k) (he : h e c.shared = .ok q) : Proceeds h c ev := by
  refine .inr ⟨⟨q.2, Function.update c.pc ev.1 ⟨(c.pc ev.1).calls + 1, k q.1⟩⟩, ?_⟩
  simp only [next, turn, hrest, he]

/-- A thread whose program would return takes its turn, or has returned. -/
theorem proceeds_of_run {c : Conf ι (Task S α) σ} {q : α × σ}
    (hrun : run h (c.pc ev.1).rest c.shared = .ok q) : Proceeds h c ev := by
  cases hrest : (c.pc ev.1).rest with
  | ret a => exact .inl ⟨a, hrest⟩
  | op e k =>
    rw [hrest, run] at hrun
    cases he : h e c.shared with
    | error f =>
      rw [he] at hrun
      cases hrun
    | ok x => exact proceeds_of_ok hrest he

/-! ### One after the other -/

/-- The other threads have not started, or have returned. -/
def Alone (c : Conf ι (Task S α) σ) (ev : ι × Unit) : Prop :=
  ∀ j, j ≠ ev.1 → (c.pc j).calls = 0 ∨ ∃ a, (c.pc j).rest = .ret a

section

variable {start : Bool → Prog S α} {s : σ} {c c' : Conf Bool (Task S α) σ} {out : Bool → α}

/-- Where two threads are that run one after the other. -/
inductive Serial (h : Handler S σ ε) (start : Bool → Prog S α) (s : σ) :
    Conf Bool (Task S α) σ → Prop
  | idle : Serial h start s (spawn s start)
  | first (i : Bool) {c : Conf Bool (Task S α) σ} : 0 < (c.pc i).calls →
      (c.pc !i) = ⟨0, start !i⟩ → run h (start i) s = run h (c.pc i).rest c.shared →
      Serial h start s c
  | second (i : Bool) {c : Conf Bool (Task S α) σ} {a : α} {s₁ : σ} : (c.pc i).rest = .ret a →
      run h (start i) s = .ok (a, s₁) → run h (start !i) s₁ = run h (c.pc !i).rest c.shared →
      Serial h start s c

theorem Serial.step (hc : Serial h start s c) {ev : Bool × Unit} (halone : Alone c ev)
    (hn : next (turn h) c ev = some c') : Serial h start s c' := by
  obtain ⟨e, k, r, hrest, he, hself, hothers⟩ := next_turn hn
  obtain ⟨j, u⟩ := ev
  have hrun : run h (c.pc j).rest c.shared = run h (c'.pc j).rest c'.shared := by
    rw [hrest, run_op he, hself]
  have hnot : ∀ i : Bool, (!i) ≠ i := by decide
  cases hc with
  | idle =>
    refine .first j ?_ ?_ hrun
    · rw [hself]
      exact Nat.succ_pos _
    · rw [hothers _ (hnot j)]
      rfl
  | first i hcalls hother hfirst =>
    rcases eq_or_ne j i with rfl | hne
    · refine .first j ?_ ?_ (hfirst.trans hrun)
      · rw [hself]
        exact Nat.succ_pos _
      · rw [hothers _ (hnot j)]
        exact hother
    · obtain rfl : j = !i := Bool.eq_not_of_ne hne
      obtain hzero | ⟨a, ha⟩ := halone i hne.symm
      · omega
      · rw [ha] at hfirst
        rw [hother] at hrun
        refine .second i ?_ hfirst hrun
        rw [hothers i hne.symm]
        exact ha
  | second i hret hfirst hsecond =>
    rcases eq_or_ne j i with rfl | hne
    · rw [hret] at hrest
      cases hrest
    · obtain rfl : j = !i := Bool.eq_not_of_ne hne
      refine .second i ?_ hfirst (hsecond.trans hrun)
      rw [hothers i hne.symm]
      exact hret

theorem serial_of_alone {evs : List (Bool × Unit)}
    (hmeet : StepsMeet (turn h) Alone (spawn s start) evs)
    (hexec : exec (turn h) (spawn s start) evs = some c) : Serial h start s c :=
  exec_invariant (fun _ _ _ hc halone hn => hc.step halone hn) evs .idle hmeet hexec

/-- **One after the other**: the threads do what the two programs do in sequence. -/
theorem Serial.returned (hc : Serial h start s c) (hout : Returned c out) :
    ∃ i s1, run h (start i) s = .ok (out i, s1) ∧ run h (start !i) s1 = .ok (out !i, c.shared) := by
  cases hc with
  | idle =>
    refine ⟨true, s, ?_, ?_⟩
    · rw [show start true = .ret (out true) from hout true]
      rfl
    · rw [show start (!true) = .ret (out (!true)) from hout (!true)]
      rfl
  | first i hcalls hother hfirst =>
    have hrest : start (!i) = .ret (out !i) := by
      have := hout !i
      rwa [hother] at this
    refine ⟨i, c.shared, ?_, ?_⟩
    · rw [hfirst, hout i]
      rfl
    · rw [hrest]
      rfl
  | second i hret hfirst hsecond =>
    rw [hout i] at hret
    cases hret
    refine ⟨i, _, hfirst, ?_⟩
    rw [hsecond, hout !i]
    rfl

/-- No call of a thread whose turn it may be fails if the programs in sequence return. -/
theorem Serial.progress (hc : Serial h start s c)
    (hruns : ∀ i, ∃ a s1 q, run h (start i) s = .ok (a, s1) ∧ run h (start !i) s1 = .ok q)
    {ev : Bool × Unit} (halone : Alone c ev) : Proceeds h c ev := by
  cases hc with
  | idle =>
    obtain ⟨a, s1, q, hrun, -⟩ := hruns ev.1
    exact proceeds_of_run (c := spawn s start) hrun
  | first i hcalls hother hfirst =>
    obtain ⟨a, s1, q, hrun, hnext⟩ := hruns i
    rcases eq_or_ne ev.1 i with rfl | hne
    · exact proceeds_of_run (hfirst.symm.trans hrun)
    · obtain hzero | ⟨b, hb⟩ := halone i hne.symm
      · omega
      · rw [hrun, hb] at hfirst
        cases hfirst
        rw [← Bool.eq_not_of_ne hne] at hother hnext
        refine proceeds_of_run (q := q) ?_
        rw [hother]
        exact hnext
  | second i hret hfirst hsecond =>
    rcases eq_or_ne ev.1 i with rfl | hne
    · exact .inl ⟨_, hret⟩
    · obtain ⟨a, s1, q, hrun, hnext⟩ := hruns i
      rw [hrun] at hfirst
      cases hfirst
      rw [hnext, ← Bool.eq_not_of_ne hne] at hsecond
      exact proceeds_of_run hsecond.symm

end

/-! ### Side by side -/

/-- The calls of the program, when it runs alone from `s`, are in `A`. -/
inductive Within (h : Handler S σ ε) (A : S.Op → σ → Prop) : Prog S α → σ → Prop
  | ret (a : α) (s : σ) : Within h A (.ret a) s
  | op {e : S.Op} {k : S.Res e → Prog S α} {s : σ} : A e s →
      (∀ r s', h e s = .ok (r, s') → Within h A (k r) s') → Within h A (.op e k) s

section

variable {A : S.Op → σ → Prop}

theorem within_op_iff {s : σ} :
    Within h A (.op e k) s ↔ A e s ∧ ∀ r s', h e s = .ok (r, s') → Within h A (k r) s' := by
  constructor
  · intro hp
    cases hp with
    | op he hk => exact ⟨he, hk⟩
  · exact fun hp => .op hp.1 hp.2

theorem within_bind {p : Prog S α} {f : α → Prog S β} {s : σ} (hp : Within h A p s)
    (hf : Always h p s (fun a s' => Within h A (f a) s')) : Within h A (p >>= f) s := by
  induction hp with
  | ret a s => exact hf a s rfl
  | op he _ ih =>
    refine .op he fun r s' hrun => ih r s' hrun fun a s'' hr => hf a s'' ?_
    rw [run_op hrun]
    exact hr

theorem within_call {s : σ} (he : A e s) : Within h A (Prog.call e) s :=
  .op he fun r s' _ => .ret r s'

end

section

variable {A : ι → S.Op → σ → Prop} {R : ι → σ → σ → Prop}

/-- The calls of thread `i` go by what the thread sees of the state, `R i`, and change nothing
that the others see. -/
def Local (h : Handler S σ ε) (A : ι → S.Op → σ → Prop) (R : ι → σ → σ → Prop) : Prop :=
  ∀ i e s t r s', A i e s → R i s t → h e s = .ok (r, s') → ∃ t', h e t = .ok (r, t') ∧ R i s' t' ∧
    ∀ j, j ≠ i → ∀ u, R j u t → R j u t'

/-- For every thread there is a state in which it would be, had it run alone. -/
def Ghosts (h : Handler S σ ε) (A : ι → S.Op → σ → Prop) (R : ι → σ → σ → Prop)
    (start : ι → Prog S α) (s : σ) (c : Conf ι (Task S α) σ) : Prop :=
  ∀ i, ∃ u, R i u c.shared ∧ Within h (A i) (c.pc i).rest u ∧
    run h (start i) s = run h (c.pc i).rest u

variable {start : ι → Prog S α} {s : σ} {c c' : Conf ι (Task S α) σ}

theorem Ghosts.step (hlocal : Local h A R) (hsees : ∀ i, ∃ a u, run h (start i) s = .ok (a, u))
    (hc : Ghosts h A R start s c) (hn : next (turn h) c ev = some c') :
    Ghosts h A R start s c' := by
  obtain ⟨e, k, r, hrest, he, hself, hothers⟩ := next_turn hn
  obtain ⟨i, x⟩ := ev
  obtain ⟨u, hR, hwithin, hrun⟩ := hc i
  rw [hrest] at hwithin hrun
  rw [within_op_iff] at hwithin
  obtain ⟨a, v, hend⟩ := hsees i
  -- alone the thread makes the same call
  cases hu : h e u with
  | error f =>
    rw [hrun, run, hu] at hend
    cases hend
  | ok q =>
    obtain ⟨t', ht', hR', hkeep⟩ := hlocal i e u c.shared q.1 q.2 hwithin.1 hR hu
    rw [he] at ht'
    cases ht'
    intro j
    rcases eq_or_ne j i with rfl | hne
    · rw [hself]
      exact ⟨q.2, hR', hwithin.2 q.1 q.2 hu, by rw [hrun, run_op hu]⟩
    · obtain ⟨v, hRv, hw, hr⟩ := hc j
      rw [hothers j hne]
      exact ⟨v, hkeep j hne v hRv, hw, hr⟩

theorem ghosts_of_within (hlocal : Local h A R) (hrefl : ∀ i, R i s s)
    (hwithin : ∀ i, Within h (A i) (start i) s)
    (hsees : ∀ i, ∃ a u, run h (start i) s = .ok (a, u)) {evs : List (ι × Unit)}
    (hexec : exec (turn h) (spawn s start) evs = some c) : Ghosts h A R start s c :=
  exec_invariant (fun _ _ _ hc _ hn => hc.step hlocal hsees hn) evs
    (fun i => ⟨s, hrefl i, hwithin i, rfl⟩) (stepsMeet_of_forall (fun _ _ => trivial) evs _) hexec

omit [DecidableEq ι] in
/-- **Side by side**: however the turns are taken, a thread that returns has returned what it
would have returned alone, in a state that looks to it as the one it would have ended in. -/
theorem Ghosts.returned (hc : Ghosts h A R start s c) {out : ι → α} (hout : Returned c out) (i : ι) :
    ∃ u, run h (start i) s = .ok (out i, u) ∧ R i u c.shared := by
  obtain ⟨u, hR, -, hrun⟩ := hc i
  rw [hout i] at hrun
  exact ⟨u, hrun, hR⟩

theorem Ghosts.progress (hlocal : Local h A R) (hsees : ∀ i, ∃ a u, run h (start i) s = .ok (a, u))
    (hc : Ghosts h A R start s c) (ev : ι × Unit) : Proceeds h c ev := by
  obtain ⟨u, hR, hwithin, hrun⟩ := hc ev.1
  obtain ⟨a, v, hend⟩ := hsees ev.1
  rw [hrun] at hend
  cases hrest : (c.pc ev.1).rest with
  | ret a => exact .inl ⟨a, hrest⟩
  | op e k =>
    rw [hrest] at hwithin hend
    rw [within_op_iff] at hwithin
    cases hu : h e u with
    | error f =>
      rw [run, hu] at hend
      cases hend
    | ok q =>
      obtain ⟨t', ht', -⟩ := hlocal ev.1 e u c.shared q.1 q.2 hwithin.1 hR hu
      exact proceeds_of_ok hrest ht'

end

end Interaction

import Pintos.Transition

/-! # Interrupt queues

`devices/intq.c`: a circular buffer of bytes between kernel threads and interrupt handlers.  A
thread calls `intq_getc` and `intq_putc` with interrupts off, so that it runs until it returns or
blocks, in `lock_acquire (&q->lock)` or in the `thread_block ()` of `wait`; everything else, other
threads and interrupts, happens in between.

* **`Pc`**: where a thread is between two events.
* **`step`**: a call, a thread that goes on after it was unblocked, or an interrupt.  A failed
  `ASSERT` puts an end to the run (`panic`).
* **`Inv`**: what the lock, the two waiters and the threads have to do with each other, also while
  a thread `now` is inside a call.
* **`intq_assertions`**: no `ASSERT` but that of `wait` can fail, and that one does not fail in a
  run in which no thread has to wait for `q->lock`.
* **`intq_fifo`**: the bytes come out in the order in which they went in.

`wait` is called with the lock, but the test that made the thread wait was made before
`lock_acquire`: a thread that was on the list of the lock does not make it again. -/

namespace Pintos.Intq

open Function List Transition

/-- `INTQ_BUFSIZE`. -/
def bufSize : ℕ := 64

/-- A call of `intq_getc` or of `intq_putc`. -/
inductive Op
  | getc
  | putc (byte : UInt8)
deriving DecidableEq, Repr

/-- The two members of `struct intq` whose address `wait` and `signal` get. -/
inductive Member
  | notFull
  | notEmpty
deriving DecidableEq, Repr

/-- The member the loop of the call waits on. -/
def Op.awaits : Op → Member
  | .getc => .notEmpty
  | .putc _ => .notFull

/-- The bytes that the call adds. -/
def Op.puts : Op → List UInt8
  | .getc => []
  | .putc byte => [byte]

/-- Where a thread is. -/
inductive Pc
  /-- not in a call, with what the last one returned -/
  | away (byte : Option UInt8)
  /-- in `lock_acquire`, on the list of the lock's semaphore -/
  | queued (op : Op)
  /-- in `lock_acquire`, unblocked by `sema_up` -/
  | granted (op : Op)
  /-- in the `thread_block ()` of `wait` -/
  | waiting (op : Op)
  /-- in `wait`, unblocked by `signal` -/
  | woken (op : Op)
deriving DecidableEq, Repr

/-- The assertions of the code. -/
inductive Assertion
  /-- in `wait`: the awaited condition is false -/
  | wait
  /-- in `signal`: the signalled condition is true -/
  | signal
  /-- in `thread_unblock`: the thread is blocked -/
  | unblock
  /-- in `lock_acquire`: the current thread does not hold the lock -/
  | acquire
  /-- in `lock_release`: the current thread holds the lock -/
  | release
deriving DecidableEq, Repr

/-- `struct intq` and the threads that use it.  `value` and `waiters` are those of the lock's
semaphore, `member` has `not_full` and `not_empty`. -/
structure State (ι : Type) where
  value : ℕ
  waiters : List ι
  holder : Option ι
  member : Member → Option ι
  buf : ℕ → UInt8
  head : ℕ
  tail : ℕ
  pc : ι → Pc
  panic : Option Assertion

def intqInit (ι : Type) (buf : ℕ → UInt8) : State ι :=
  { value := 1, waiters := [], holder := none, member := fun _ => none, buf := buf, head := 0
    tail := 0, pc := fun _ => .away none, panic := none }

/-- The position after `pos`. -/
def next (pos : ℕ) : ℕ := (pos + 1) % bufSize

namespace State

variable {ι : Type} [DecidableEq ι] (s : State ι)

def intqEmpty : Bool := s.head = s.tail

def intqFull : Bool := next s.head = s.tail

/-- The condition of the member is false. -/
def lacks : Member → Bool
  | .notFull => s.intqFull
  | .notEmpty => s.intqEmpty

def setPc (t : ι) (pc : Pc) : State ι := { s with pc := update s.pc t pc }

def setMember (m : Member) (u : Option ι) : State ι :=
  { s with member := update s.member m u }

def signal (m : Member) : Except Assertion (State ι) :=
  if s.lacks m then .error .signal
  else
    match s.member m with
    | none => .ok s
    | some u =>
      match s.pc u with
      | .waiting op => .ok ((s.setPc u (.woken op)).setMember m none)
      | _ => .error .unblock

def wait (t : ι) (op : Op) (m : Member) : Except Assertion (State ι) :=
  if s.lacks m then .ok ((s.setMember m (some t)).setPc t (.waiting op)) else .error .wait

/-- The rest of the call behind the loop, with the byte it returns. -/
def transfer : Op → Except Assertion (Option UInt8 × State ι)
  | .getc => do
    let byte := s.buf s.tail
    let s ← { s with tail := next s.tail }.signal .notFull
    return (some byte, s)
  | .putc byte => do
    let s ← { s with buf := update s.buf s.head byte, head := next s.head }.signal
      .notEmpty
    return (none, s)

/-- `lock_acquire` from the loop of `sema_down` on, and the call of `wait` behind it. -/
def semaDown (t : ι) (op : Op) : Except Assertion (State ι) :=
  if s.value = 0 then .ok ({ s with waiters := s.waiters ++ [t] }.setPc t (.queued op))
  else { s with value := s.value - 1, holder := some t }.wait t op op.awaits

def lockAcquire (t : ι) (op : Op) : Except Assertion (State ι) :=
  if s.holder = some t then .error .acquire else s.semaDown t op

def semaUp : Except Assertion (State ι) :=
  match s.waiters with
  | [] => .ok { s with value := s.value + 1 }
  | u :: us =>
    match s.pc u with
    | .queued op => .ok ({ s with waiters := us, value := s.value + 1 }.setPc u (.granted op))
    | _ => .error .unblock

def lockRelease (t : ι) : Except Assertion (State ι) :=
  if s.holder = some t then { s with holder := none }.semaUp else .error .release

/-- The call from the test of its loop on, up to where the thread returns or blocks. -/
def loop (t : ι) (op : Op) : Except Assertion (State ι) :=
  if s.lacks op.awaits then s.lockAcquire t op
  else do
    let r ← s.transfer op
    return r.2.setPc t (.away r.1)

end State

inductive Event (ι : Type)
  | call (t : ι) (op : Op)
  /-- A thread that was unblocked goes on. -/
  | resume (t : ι)
  /-- An interrupt handler makes the call; it only does so if the queue is not full or not empty
  before. -/
  | interrupt (op : Op)
deriving DecidableEq, Repr

variable {ι : Type} [DecidableEq ι]

/-- What the event does, if it can happen. -/
def act (s : State ι) : Event ι → Option (Except Assertion (State ι))
  | .call t op =>
    match s.pc t with
    | .away _ => some (s.loop t op)
    | _ => none
  | .resume t =>
    match s.pc t with
    | .granted op => some (s.semaDown t op)
    | .woken op => some (s.lockRelease t >>= fun s => s.loop t op)
    | _ => none
  | .interrupt op => if s.lacks op.awaits then none else some (Prod.snd <$> s.transfer op)

/-- A failed assertion is the end. -/
def settle (s : State ι) : Except Assertion (State ι) → State ι
  | .ok s' => s'
  | .error a => { s with panic := some a }

def step (s : State ι) (e : Event ι) : Option (State ι) :=
  if s.panic.isSome then none else (act s e).map (settle s)

/-- No thread has to wait for `q->lock`: a call that finds the queue empty, or full, finds the
lock free. -/
def LockFree (s : State ι) : Event ι → Prop
  | .call _ op => s.lacks op.awaits = true → s.value ≠ 0
  | _ => True

/-! ### The invariant -/

/-- The thread has the lock. -/
def Pc.holding : Pc → Bool
  | .waiting _ => true
  | .woken _ => true
  | _ => false

/-- The thread is in `lock_acquire`. -/
def Pc.acquiring : Pc → Bool
  | .queued _ => true
  | .granted _ => true
  | _ => false

/-- The state while the thread `now` is inside a call; between two events `now` is `none`. -/
structure Inv (now : Option ι) (s : State ι) : Prop where
  no_panic : s.panic = none
  head_lt : s.head < bufSize
  tail_lt : s.tail < bufSize
  value_eq : s.value = if s.holder.isNone then 1 else 0
  holder_iff : ∀ u, now ≠ some u → (s.holder = some u ↔ (s.pc u).holding = true)
  member_pc : ∀ m u, s.member m = some u →
    now ≠ some u ∧ ∃ op : Op, op.awaits = m ∧ s.pc u = .waiting op
  waiters_pc : ∀ u ∈ s.waiters, now ≠ some u ∧ ∃ op, s.pc u = .queued op
  nodup : s.waiters.Nodup

/-- Nobody is in `lock_acquire`. -/
def Calm (s : State ι) : Prop := ∀ u, (s.pc u).acquiring = false

omit [DecidableEq ι] in
theorem inv_init (buf : ℕ → UInt8) : Inv none (intqInit ι buf) where
  no_panic := rfl
  head_lt := Nat.succ_pos 63
  tail_lt := Nat.succ_pos 63
  value_eq := rfl
  holder_iff u _ := by simp [intqInit, Pc.holding]
  member_pc m u h := by cases h
  waiters_pc u h := by cases h
  nodup := nodup_nil

omit [DecidableEq ι] in
theorem calm_init (buf : ℕ → UInt8) : Calm (intqInit ι buf) := fun _ => rfl

theorem next_lt (pos : ℕ) : next pos < bufSize := Nat.mod_lt _ (by decide)

theorem next_inj {a b : ℕ} (ha : a < bufSize) (hb : b < bufSize) (h : next a = next b) : a = b := by
  unfold next bufSize at *
  omega

theorem Calm.setPc {s : State ι} (h : Calm s) {t : ι} {pc : Pc} (hpc : pc.acquiring = false) :
    Calm (s.setPc t pc) := by
  intro u
  simp only [State.setPc, update_apply]
  split
  · exact hpc
  · exact h u

omit [DecidableEq ι] in
/-- With nobody in `lock_acquire` the list of the lock is empty. -/
theorem Inv.waiters_nil {now : Option ι} {s : State ι} (h : Inv now s) (hcalm : Calm s) :
    s.waiters = [] := by
  apply eq_nil_iff_forall_not_mem.mpr
  intro u hu
  obtain ⟨-, op, hop⟩ := h.waiters_pc u hu
  have := hcalm u
  rw [hop] at this
  cases this

variable {op : Op}

namespace Inv

variable {now : Option ι} {s : State ι} {t : ι}

omit [DecidableEq ι] in
theorem enter (h : Inv none s) (hwait : ∀ op, s.pc t ≠ .waiting op)
    (hqueue : ∀ op, s.pc t ≠ .queued op) : Inv (some t) s := by
  refine ⟨h.no_panic, h.head_lt, h.tail_lt, h.value_eq, fun u _ => h.holder_iff u nofun, ?_, ?_,
    h.nodup⟩
  · intro m u hu
    obtain ⟨-, op, hop, hpc⟩ := h.member_pc m u hu
    refine ⟨?_, op, hop, hpc⟩
    intro htu
    cases htu
    exact hwait op hpc
  · intro u hu
    obtain ⟨-, op, hpc⟩ := h.waiters_pc u hu
    refine ⟨?_, op, hpc⟩
    intro htu
    cases htu
    exact hqueue op hpc

theorem leave {pc : Pc} (h : Inv (some t) s) (hpc : s.holder = some t ↔ pc.holding = true) :
    Inv none (s.setPc t pc) := by
  refine ⟨h.no_panic, h.head_lt, h.tail_lt, h.value_eq, ?_, ?_, ?_, h.nodup⟩
  · intro u _
    by_cases hu : u = t
    · rw [hu]
      simpa [State.setPc] using hpc
    · have := h.holder_iff u (fun he => hu (Option.some.inj he).symm)
      simpa [State.setPc, hu] using this
  · intro m u hu
    obtain ⟨hne, op, hop, hpc⟩ := h.member_pc m u hu
    have hne : u ≠ t := fun he => hne (congrArg some he.symm)
    exact ⟨nofun, op, hop, by simp [State.setPc, hne, hpc]⟩
  · intro u hu
    obtain ⟨hne, op, hpc⟩ := h.waiters_pc u hu
    have hne : u ≠ t := fun he => hne (congrArg some he.symm)
    exact ⟨nofun, op, by simp [State.setPc, hne, hpc]⟩

theorem wake (h : Inv now s) {m : Member} {u : ι} (hu : s.member m = some u)
    (hpc : s.pc u = .waiting op) : Inv now ((s.setPc u (.woken op)).setMember m none) := by
  have hop : op.awaits = m := by
    obtain ⟨-, op', hop', hpc'⟩ := h.member_pc m u hu
    obtain rfl : op' = op := by simpa [hpc] using hpc'.symm
    exact hop'
  refine ⟨h.no_panic, h.head_lt, h.tail_lt, h.value_eq, ?_, ?_, ?_, h.nodup⟩
  · intro v hv
    by_cases hvu : v = u
    · rw [hvu] at hv ⊢
      have := h.holder_iff u hv
      rw [hpc] at this
      simpa [State.setPc, State.setMember, Pc.holding] using this
    · simpa [State.setPc, State.setMember, hvu] using h.holder_iff v hv
  · intro m' v hv
    -- `u` waits on one member only, so the other one has another thread
    have hm : m' ≠ m := by
      rintro rfl
      simp [State.setMember] at hv
    have hv' : s.member m' = some v := by simpa [State.setMember, State.setPc, hm] using hv
    obtain ⟨hnow, op', hop', hpc'⟩ := h.member_pc m' v hv'
    refine ⟨hnow, op', hop', ?_⟩
    have hvu : v ≠ u := by
      rintro rfl
      obtain rfl : op = op' := by simpa [hpc] using hpc'
      exact hm (hop'.symm.trans hop)
    simpa [State.setPc, State.setMember, hvu] using hpc'
  · intro v hv
    obtain ⟨hnow, op', hpc'⟩ := h.waiters_pc v hv
    have hvu : v ≠ u := by
      rintro rfl
      rw [hpc] at hpc'
      cases hpc'
    exact ⟨hnow, op', by simpa [State.setPc, State.setMember, hvu] using hpc'⟩

theorem sleep (h : Inv (some t) s) (op : Op) (hfree : s.holder = none) :
    Inv none (({ s with value := s.value - 1, holder := some t }.setMember op.awaits
      (some t)).setPc t (.waiting op)) := by
  have hvalue := h.value_eq
  rw [hfree] at hvalue
  refine ⟨h.no_panic, h.head_lt, h.tail_lt, ?_, ?_, ?_, ?_, h.nodup⟩
  · rw [hvalue]
    rfl
  · intro u _
    by_cases hut : u = t
    · simp [State.setPc, State.setMember, hut, Pc.holding]
    · have := h.holder_iff u (fun he => hut (Option.some.inj he).symm)
      have hne : t ≠ u := fun he => hut he.symm
      simpa [State.setPc, State.setMember, hut, hne, hfree] using this
  · intro m u hu
    refine ⟨nofun, ?_⟩
    by_cases hm : m = op.awaits
    · have hut : u = t := by simpa [State.setPc, State.setMember, hm] using hu.symm
      exact ⟨op, hm.symm, by simp [State.setPc, hut]⟩
    · have hu' : s.member m = some u := by
        simpa [State.setPc, State.setMember, hm] using hu
      obtain ⟨hne, op', hop', hpc'⟩ := h.member_pc m u hu'
      have hut : u ≠ t := fun he => hne (congrArg some he.symm)
      exact ⟨op', hop', by simpa [State.setPc, State.setMember, hut] using hpc'⟩
  · intro u hu
    obtain ⟨hne, op', hpc'⟩ := h.waiters_pc u hu
    have hut : u ≠ t := fun he => hne (congrArg some he.symm)
    exact ⟨nofun, op', by simpa [State.setPc, State.setMember, hut] using hpc'⟩

theorem enqueue (h : Inv (some t) s) (op : Op) (hheld : s.holder ≠ some t) :
    Inv none ({ s with waiters := s.waiters ++ [t] }.setPc t (.queued op)) := by
  have hleft : Inv none (s.setPc t (.queued op)) :=
    h.leave (by simpa [Pc.holding] using hheld)
  have hnot : t ∉ s.waiters := fun ht => (h.waiters_pc t ht).1 rfl
  refine ⟨hleft.no_panic, hleft.head_lt, hleft.tail_lt, hleft.value_eq, hleft.holder_iff,
    hleft.member_pc, ?_, ?_⟩
  · intro u hu
    refine ⟨nofun, ?_⟩
    rcases mem_append.mp hu with hu | hu
    · exact (hleft.waiters_pc u hu).2
    · obtain rfl := mem_singleton.mp hu
      exact ⟨op, by simp [State.setPc]⟩
  · exact List.Nodup.append h.nodup (nodup_singleton t)
      (disjoint_singleton.mpr hnot)

theorem grant (h : Inv (some t) s) {u : ι} {us : List ι} (hus : s.waiters = u :: us)
    (hpc : s.pc u = .queued op) (v : ℕ) (hv : v = if s.holder.isNone then 1 else 0) :
    Inv (some t) ({ s with waiters := us, value := v }.setPc u (.granted op)) := by
  have hnodup := h.nodup
  rw [hus] at hnodup
  obtain ⟨hnot, hnodup⟩ := nodup_cons.mp hnodup
  refine ⟨h.no_panic, h.head_lt, h.tail_lt, hv, ?_, ?_, ?_, hnodup⟩
  · intro w hw
    by_cases hwu : w = u
    · have := h.holder_iff w hw
      rw [hwu, hpc] at this
      simpa [State.setPc, hwu, Pc.holding] using this
    · simpa [State.setPc, hwu] using h.holder_iff w hw
  · intro m w hw
    obtain ⟨hne, op', hop', hpc'⟩ := h.member_pc m w hw
    have hwu : w ≠ u := by
      rintro rfl
      rw [hpc] at hpc'
      cases hpc'
    exact ⟨hne, op', hop', by simpa [State.setPc, hwu] using hpc'⟩
  · intro w hw
    obtain ⟨hne, op', hpc'⟩ := h.waiters_pc w (by rw [hus]; exact mem_cons_of_mem u hw)
    have hwu : w ≠ u := fun he => hnot (he ▸ hw)
    exact ⟨hne, op', by simpa [State.setPc, hwu] using hpc'⟩

end Inv

/-! ### The bytes in order -/

/-- The buffer holds `bytes`, the oldest at `tail`. -/
structure Holds (s : State ι) (bytes : List UInt8) : Prop where
  tail_lt : s.tail < bufSize
  head_eq : s.head = (s.tail + bytes.length) % bufSize
  length_lt : bytes.length < bufSize
  buf_eq : ∀ i (h : i < bytes.length), s.buf ((s.tail + i) % bufSize) = bytes[i]

/-- The call that a thread is in. -/
def Pc.op? : Pc → Option Op
  | .away _ => none
  | .queued op => some op
  | .granted op => some op
  | .waiting op => some op
  | .woken op => some op

/-- What a thread in its call still has to put. -/
def Pc.kept (pc : Pc) : List UInt8 := pc.op?.elim [] Op.puts

namespace Holds

variable {s s' : State ι} {bytes : List UInt8}

omit [DecidableEq ι]

theorem init (buf : ℕ → UInt8) : Holds (intqInit ι buf) [] :=
  ⟨Nat.succ_pos 63, rfl, Nat.succ_pos 63, nofun⟩

theorem empty_iff (h : Holds s bytes) : s.intqEmpty = true ↔ bytes = [] := by
  obtain ⟨ht, hh, hl, -⟩ := h
  rw [State.intqEmpty, decide_eq_true_eq, hh, ← length_eq_zero_iff]
  unfold bufSize at *
  omega

theorem full_iff (h : Holds s bytes) : s.intqFull = true ↔ bytes.length = 63 := by
  obtain ⟨ht, hh, hl, -⟩ := h
  rw [State.intqFull, decide_eq_true_eq, next, hh]
  unfold bufSize at *
  omega

theorem congr (h : Holds s bytes) (hbuf : s'.buf = s.buf) (hhead : s'.head = s.head)
    (htail : s'.tail = s.tail) : Holds s' bytes := by
  refine ⟨htail ▸ h.tail_lt, ?_, h.length_lt, ?_⟩
  · rw [hhead, htail, h.head_eq]
  · rw [hbuf, htail]
    exact h.buf_eq

theorem push (h : Holds s bytes) (byte : UInt8) (hroom : s.intqFull = false) :
    Holds { s with buf := update s.buf s.head byte, head := next s.head }
      (bytes ++ [byte]) := by
  have hne : bytes.length ≠ 63 := fun hfull => by simp [h.full_iff.mpr hfull] at hroom
  obtain ⟨ht, hh, hl, hb⟩ := h
  refine ⟨ht, ?_, ?_, fun i hi => ?_⟩
  · simp only [next, hh, length_append, length_singleton, Nat.mod_add_mod, Nat.add_assoc]
  · rw [length_append, length_singleton]
    unfold bufSize at *
    omega
  · rw [length_append, length_singleton] at hi
    by_cases hlast : i = bytes.length
    · simp [hlast, hh]
    · -- the cells between `tail` and `head` are others
      have hcell : (s.tail + i) % bufSize ≠ s.head := by
        unfold bufSize at *
        omega
      have hlt : i < bytes.length := by omega
      simp only [update_of_ne hcell, getElem_append_left hlt]
      exact hb i hlt

theorem pop {byte : UInt8} (h : Holds s (byte :: bytes)) :
    s.buf s.tail = byte ∧ Holds { s with tail := next s.tail } bytes := by
  obtain ⟨ht, hh, hl, hb⟩ := h
  rw [length_cons] at hh hl
  have hnext : ∀ i, (next s.tail + i) % bufSize = (s.tail + (i + 1)) % bufSize := by
    intro i
    rw [next, Nat.mod_add_mod, Nat.add_assoc, Nat.add_comm 1]
  refine ⟨?_, next_lt _, ?_, by omega, fun i hi => ?_⟩
  · have hfirst := hb 0 (Nat.succ_pos _)
    rwa [Nat.add_zero, Nat.mod_eq_of_lt ht] at hfirst
  · rw [hnext, hh]
  · rw [hnext]
    exact hb (i + 1) (Nat.succ_lt_succ hi)

end Holds

/-! ### What the functions do -/

variable {e : Event ι}

section Calls

variable {now : Option ι} {s : State ι} {t : ι}

theorem signal_ok (h : Inv now s) {m : Member} (hm : s.lacks m = false) :
    ∃ s', s.signal m = .ok s' ∧ Inv now s' ∧ s'.holder = s.holder ∧ (Calm s → Calm s') ∧
      (∀ u, (s'.pc u).op? = (s.pc u).op?) ∧ ∀ bytes, Holds s bytes → Holds s' bytes := by
  unfold State.signal
  rw [hm]
  cases hu : s.member m with
  | none => exact ⟨s, rfl, h, rfl, id, fun _ => rfl, fun _ => id⟩
  | some u =>
    obtain ⟨-, op, -, hpc⟩ := h.member_pc m u hu
    refine ⟨(s.setPc u (.woken op)).setMember m none, ?_, h.wake hu hpc, rfl, fun hcalm => ?_,
      fun v => ?_, fun _ hb => hb.congr rfl rfl rfl⟩
    · simp [hpc]
    · exact hcalm.setPc rfl
    · by_cases hv : v = u
      · simp [State.setPc, State.setMember, Pc.op?, hv, hpc]
      · simp [State.setPc, State.setMember, hv]

/-- Behind the loop the call goes through: what it signals has become true.  It adds its byte at one
end of the buffer, or takes one at the other. -/
theorem transfer_ok (h : Inv now s) (hop : s.lacks op.awaits = false) :
    ∃ b s', s.transfer op = .ok (b, s') ∧ Inv now s' ∧ s'.holder = s.holder ∧
      (Calm s → Calm s') ∧ (∀ u, (s'.pc u).op? = (s.pc u).op?) ∧ (b.isSome ↔ op = .getc) ∧
      ∀ bytes, Holds s bytes →
        ∃ bytes', Holds s' bytes' ∧ bytes ++ op.puts = b.toList ++ bytes' := by
  cases op with
  | getc =>
    have hne : s.head ≠ s.tail := by simpa [State.lacks, Op.awaits, State.intqEmpty] using hop
    have h1 : Inv now { s with tail := next s.tail } :=
      ⟨h.no_panic, h.head_lt, next_lt _, h.value_eq, h.holder_iff, h.member_pc, h.waiters_pc,
        h.nodup⟩
    have hfull : State.lacks { s with tail := next s.tail } .notFull = false := by
      simp only [State.lacks, State.intqFull, decide_eq_false_iff_not]
      exact fun he => hne (next_inj h.head_lt h.tail_lt he)
    obtain ⟨s', hs', hinv, hholder, hcalm, hpc, hkeep⟩ := signal_ok h1 hfull
    refine ⟨some (s.buf s.tail), s', by simp [State.transfer, hs'], hinv, hholder, hcalm, hpc,
      by simp, ?_⟩
    intro bytes hb
    cases bytes with
    | nil => simp [State.lacks, Op.awaits, hb.empty_iff.mpr rfl] at hop
    | cons byte bytes =>
      obtain ⟨hbyte, hpop⟩ := hb.pop
      exact ⟨bytes, hkeep _ hpop, by simp [Op.puts, hbyte]⟩
  | putc byte =>
    have hne : next s.head ≠ s.tail := by
      simpa [State.lacks, Op.awaits, State.intqFull] using hop
    have h1 : Inv now
        { s with buf := update s.buf s.head byte, head := next s.head } :=
      ⟨h.no_panic, next_lt _, h.tail_lt, h.value_eq, h.holder_iff, h.member_pc, h.waiters_pc,
        h.nodup⟩
    have hempty : State.lacks
        { s with buf := update s.buf s.head byte, head := next s.head }
        .notEmpty = false := by
      simpa [State.lacks, State.intqEmpty] using hne
    obtain ⟨s', hs', hinv, hholder, hcalm, hpc, hkeep⟩ := signal_ok h1 hempty
    exact ⟨none, s', by simp [State.transfer, hs'], hinv, hholder, hcalm, hpc, by simp,
      fun bytes hb => ⟨bytes ++ [byte], hkeep _ (hb.push byte hop), rfl⟩⟩

/-- With the lock free and the condition still false, the thread waits. -/
theorem semaDown_free (h : Inv (some t) s) (hfree : s.value ≠ 0) (hop : s.lacks op.awaits = true) :
    ∃ s', s.semaDown t op = .ok s' ∧ Inv none s' ∧ (Calm s → Calm s') ∧
      s'.pc t = .waiting op ∧ ∀ bytes, Holds s bytes → Holds s' bytes := by
  have hnone : s.holder = none := by
    have := h.value_eq
    cases hs : s.holder with
    | none => rfl
    | some u =>
      rw [hs] at this
      exact absurd this hfree
  have hlacks : State.lacks { s with value := s.value - 1, holder := some t } op.awaits = true := by
    cases op <;> exact hop
  refine ⟨_, ?_, h.sleep op hnone, fun hcalm => hcalm.setPc rfl, update_self ..,
    fun _ hb => hb.congr rfl rfl rfl⟩
  simp only [State.semaDown, if_neg hfree, State.wait, hlacks, if_true]

theorem semaDown_held (h : Inv (some t) s) (op : Op) (hheld : s.holder ≠ some t)
    (hvalue : s.value = 0) :
    ∃ s', s.semaDown t op = .ok s' ∧ Inv none s' ∧ s'.pc t = .queued op ∧
      ∀ bytes, Holds s bytes → Holds s' bytes := by
  refine ⟨_, ?_, h.enqueue op hheld, update_self .., fun _ hb => hb.congr rfl rfl rfl⟩
  simp only [State.semaDown, if_pos hvalue]

/-- `lock_release`; nobody has the lock then. -/
theorem lockRelease_ok (h : Inv (some t) s) (hheld : s.holder = some t) :
    ∃ s', s.lockRelease t = .ok s' ∧ Inv (some t) s' ∧ s'.holder = none ∧ s'.value ≠ 0 ∧
      (Calm s → Calm s') ∧ ∀ bytes, Holds s bytes → Holds s' bytes := by
  have hvalue : s.value = 0 := by
    have := h.value_eq
    rw [hheld] at this
    exact this
  have h1 : Inv (some t) { s with holder := none, value := s.value + 1 } := by
    refine ⟨h.no_panic, h.head_lt, h.tail_lt, by simp [hvalue], ?_, h.member_pc, h.waiters_pc,
      h.nodup⟩
    intro u hu
    have := h.holder_iff u hu
    rw [hheld] at this
    simpa [hu] using this
  unfold State.lockRelease State.semaUp
  rw [if_pos hheld]
  cases hw : s.waiters with
  | nil =>
    exact ⟨_, rfl, hw ▸ h1, rfl, Nat.succ_ne_zero _, id, fun _ hb => hb.congr rfl rfl rfl⟩
  | cons u us =>
    obtain ⟨-, op, hpc⟩ := h.waiters_pc u (by rw [hw]; exact mem_cons_self)
    refine ⟨({ s with holder := none, waiters := us, value := s.value + 1 } : State ι).setPc u
      (.granted op), by simp [hpc], h1.grant hw hpc _ h1.value_eq, rfl, Nat.succ_ne_zero _, ?_,
      fun _ hb => hb.congr rfl rfl rfl⟩
    intro hcalm
    have := h.waiters_nil hcalm
    rw [hw] at this
    cases this

/-- A call that does not hold the lock gets to its next blocking point or to its end: from the
test of the loop to `wait` nothing can happen in between unless the lock is taken.  No byte is lost
or comes out of order. -/
theorem loop_ok (h : Inv (some t) s) (op : Op) (hheld : s.holder ≠ some t) :
    ∃ s', s.loop t op = .ok s' ∧ Inv none s' ∧
      (Calm s → (s.lacks op.awaits = true → s.value ≠ 0) → Calm s') ∧
      ((s'.pc t).op? = none ∨ (s'.pc t).op? = some op) ∧
      ∀ bytes, Holds s bytes → op ≠ .getc → ∃ bytes', Holds s' bytes' ∧
        bytes ++ op.puts = bytes' ++ (s'.pc t).kept := by
  unfold State.loop State.lockAcquire
  rw [if_neg hheld]
  cases hop : s.lacks op.awaits with
  | false =>
    obtain ⟨b, s', hs', hinv, hholder, hcalm, -, hsome, hmove⟩ := transfer_ok h hop
    refine ⟨s'.setPc t (.away b), by simp [hs'], hinv.leave ?_, fun hc _ => (hcalm hc).setPc rfl,
      .inl (by simp [State.setPc, Pc.op?]), fun bytes hb hput => ?_⟩
    · rw [hholder]
      simpa [Pc.holding] using hheld
    · obtain ⟨bytes', hb', heq⟩ := hmove bytes hb
      have hnone : b = none := by simpa [hput] using hsome
      refine ⟨bytes', hb'.congr rfl rfl rfl, ?_⟩
      simp [State.setPc, Pc.kept, Pc.op?, heq, hnone]
  | true =>
    by_cases hvalue : s.value = 0
    · obtain ⟨s', hs', hinv, hpc, hkeep⟩ := semaDown_held h op hheld hvalue
      exact ⟨s', hs', hinv, fun _ hne => absurd hvalue (hne rfl), .inr (by rw [hpc, Pc.op?]),
        fun bytes hb _ => ⟨bytes, hkeep _ hb, by rw [hpc]; rfl⟩⟩
    · obtain ⟨s', hs', hinv, hcalm, hpc, hkeep⟩ := semaDown_free h hvalue hop
      exact ⟨s', hs', hinv, fun hc _ => hcalm hc, .inr (by rw [hpc, Pc.op?]),
        fun bytes hb _ => ⟨bytes, hkeep _ hb, by rw [hpc]; rfl⟩⟩

/-- A thread that was woken makes its test again. -/
theorem woken_ok (h : Inv none s) (hpc : s.pc t = .woken op) :
    ∃ s', (s.lockRelease t >>= fun s => s.loop t op) = .ok s' ∧ Inv none s' ∧
      (Calm s → Calm s') ∧ ((s'.pc t).op? = none ∨ (s'.pc t).op? = some op) ∧
      ∀ bytes, Holds s bytes → op ≠ .getc → ∃ bytes', Holds s' bytes' ∧
        bytes ++ op.puts = bytes' ++ (s'.pc t).kept := by
  have hheld : s.holder = some t := by simp [h.holder_iff t nofun, hpc, Pc.holding]
  obtain ⟨s1, hs1, hinv1, hnone, hvalue, hcalm1, hkeep⟩ :=
    lockRelease_ok (h.enter (by simp [hpc]) (by simp [hpc])) hheld
  obtain ⟨s', hs', hinv, hcalm, hop, hmove⟩ := loop_ok hinv1 op (by simp [hnone])
  refine ⟨s', ?_, hinv, fun hc => hcalm (hcalm1 hc) fun _ => hvalue, hop, fun bytes hb =>
    hmove bytes (hkeep bytes hb)⟩
  rw [hs1]
  exact hs'

/-- What an event can do: it goes through, or a thread that was on the list of the lock has found
in `wait` what it was to wait for. -/
theorem act_cases (h : Inv none s) {r : Except Assertion (State ι)} (hact : act s e = some r) :
    (∃ s', r = .ok s' ∧ Inv none s' ∧ (Calm s → LockFree s e → Calm s')) ∨
      (¬ Calm s ∧ r = .error .wait) := by
  cases e with
  | call t op =>
    cases hpc : s.pc t with
    | away b =>
      obtain rfl : s.loop t op = r := by simpa [act, hpc] using hact
      have hheld : s.holder ≠ some t := by simp [h.holder_iff t nofun, hpc, Pc.holding]
      obtain ⟨s', hs', hinv, hcalm, -⟩ :=
        loop_ok (h.enter (by simp [hpc]) (by simp [hpc])) op hheld
      exact .inl ⟨s', hs', hinv, hcalm⟩
    | _ => simp [act, hpc] at hact
  | resume t =>
    cases hpc : s.pc t with
    | granted op =>
      obtain rfl : s.semaDown t op = r := by simpa [act, hpc] using hact
      have hheld : s.holder ≠ some t := by simp [h.holder_iff t nofun, hpc, Pc.holding]
      have hrun : Inv (some t) s := h.enter (by simp [hpc]) (by simp [hpc])
      have hcalm : ¬ Calm s := fun hc => by simpa [hpc, Pc.acquiring] using hc t
      by_cases hvalue : s.value = 0
      · obtain ⟨s', hs', hinv, -⟩ := semaDown_held hrun op hheld hvalue
        exact .inl ⟨s', hs', hinv, fun hc => absurd hc hcalm⟩
      cases hop : s.lacks op.awaits with
      | true =>
        obtain ⟨s', hs', hinv, -⟩ := semaDown_free hrun hvalue hop
        exact .inl ⟨s', hs', hinv, fun hc => absurd hc hcalm⟩
      | false =>
        have hlacks : State.lacks { s with value := s.value - 1, holder := some t }
            op.awaits = false := by
          cases op <;> exact hop
        exact .inr ⟨hcalm, by simp [State.semaDown, hvalue, State.wait, hlacks]⟩
    | woken op =>
      obtain rfl : (s.lockRelease t >>= fun s => s.loop t op) = r := by
        simpa [act, hpc] using hact
      obtain ⟨s', hs', hinv, hcalm, -⟩ := woken_ok h hpc
      exact .inl ⟨s', hs', hinv, fun hc _ => hcalm hc⟩
    | _ => simp [act, hpc] at hact
  | interrupt op =>
    cases hop : s.lacks op.awaits with
    | true => simp [act, hop] at hact
    | false =>
      obtain rfl : Prod.snd <$> s.transfer op = r := by simpa [act, hop] using hact
      obtain ⟨b, s', hs', hinv, -, hcalm, -⟩ := transfer_ok h hop
      exact .inl ⟨s', by rw [hs']; rfl, hinv, fun hc _ => hcalm hc⟩

end Calls

/-! ### Runs -/

theorem step_cases {s s' : State ι} (hs : step s e = some s') :
    s.panic = none ∧ ∃ r, act s e = some r ∧ s' = settle s r := by
  unfold step at hs
  cases hp : s.panic with
  | some a => simp [hp] at hs
  | none =>
    obtain ⟨r, hr, rfl⟩ : ∃ r, act s e = some r ∧ settle s r = s' := by simpa [hp] using hs
    exact ⟨rfl, r, hr, rfl⟩

/-- Either nothing has failed, or it was the assertion of `wait`. -/
def Sound (s : State ι) : Prop := Inv none s ∨ s.panic = some .wait

theorem step_sound {s s' : State ι} (h : Sound s) (hs : step s e = some s') : Sound s' := by
  obtain ⟨hnone, r, hact, rfl⟩ := step_cases hs
  have hinv : Inv none s := by
    apply h.resolve_right
    simp [hnone]
  rcases act_cases hinv hact with ⟨s', rfl, hinv', -⟩ | ⟨-, rfl⟩
  · exact .inl hinv'
  · exact .inr rfl

/-- As long as no thread has to wait for the lock, nothing fails and nobody is in
`lock_acquire`. -/
theorem step_calm {s s' : State ι} (h : Inv none s ∧ Calm s) (hfree : LockFree s e)
    (hs : step s e = some s') : Inv none s' ∧ Calm s' := by
  obtain ⟨-, r, hact, rfl⟩ := step_cases hs
  rcases act_cases h.1 hact with ⟨s', rfl, hinv', hcalm⟩ | ⟨hcalm, -⟩
  · exact ⟨hinv', hcalm h.2 hfree⟩
  · exact absurd h.2 hcalm

/-- **The assertions of an interrupt queue.**  Whatever the threads and the interrupt handlers do,
none but that of `wait` fails; and `wait` finds its condition false in every run in which each
call that finds the queue empty, or full, finds the lock free. -/
theorem intq_assertions (buf : ℕ → UInt8) (es : List (Event ι)) (s : State ι)
    (hrun : run step (intqInit ι buf) es = some s) :
    (∀ a, s.panic = some a → a = .wait) ∧
      (Transition.Meets step LockFree (intqInit ι buf) es → s.panic = none) := by
  constructor
  · intro a ha
    have hsound : Sound s :=
      run_keeps (fun _ _ _ h hs => step_sound h hs) (.inl (inv_init buf)) hrun
    rcases hsound with hinv | hwait
    · rw [hinv.no_panic] at ha
      cases ha
    · exact Option.some.inj (ha.symm.trans hwait)
  · intro hfree
    have hinv : Inv none s ∧ Calm s :=
      run_invariant (fun _ _ _ h hok hs => step_calm h hok hs) es
        ⟨inv_init buf, calm_init buf⟩ hfree hrun
    exact hinv.1.no_panic

/-- One thread reads a byte that arrives while it waits. -/
theorem intq_assertions_oneReader :
    ∃ s : State Bool, run step (intqInit Bool fun _ => 0)
        [.call true .getc, .interrupt (.putc 7), .resume true] = some s ∧
      s.pc true = .away (some 7) ∧ s.panic = none := by
  have hrun : (run step (intqInit Bool fun _ => 0)
      [.call true .getc, .interrupt (.putc 7), .resume true]).map
        (fun s => s.pc true) = some (.away (some 7)) := by
    rfl
  obtain ⟨s, hs, hpc⟩ := Option.map_eq_some_iff.mp hrun
  refine ⟨s, hs, hpc, ?_⟩
  apply (intq_assertions (fun _ => 0) _ s hs).2
  exact ⟨fun _ => Nat.one_ne_zero, fun _ _ => ⟨trivial, fun _ _ => ⟨trivial, fun _ _ => trivial⟩⟩⟩

/-- Two threads want to read.  The second one is on the list of the lock while two bytes arrive;
the first one then takes one byte and releases the lock, and `wait` is called by the second with a
byte in the queue. -/
theorem not_intq_assertions :
    ∃ s : State Bool, run step (intqInit Bool fun _ => 0)
        [.call true .getc, .call false .getc, .interrupt (.putc 7), .interrupt (.putc 8),
          .resume true, .resume false] = some s ∧ s.panic = some .wait := by
  decide +kernel

/-! ### First in, first out -/

/-- Calls one after another, none of which has to wait, and the bytes they return. -/
def calls (s : State ι) : List Op → Except Assertion (List UInt8 × State ι)
  | [] => .ok ([], s)
  | op :: ops => do
    let r ← s.transfer op
    let q ← calls r.2 ops
    return (r.1.toList ++ q.1, q.2)

/-- `intq_putc` is called when the queue is not full, `intq_getc` when it is not empty. -/
def Ready (s : State ι) : List Op → Prop
  | [] => True
  | op :: ops => s.lacks op.awaits = false ∧ ∀ r, s.transfer op = .ok r → Ready r.2 ops

theorem calls_ok {s : State ι} (ops : List Op) (hinv : Inv none s) {bytes : List UInt8}
    (h : Holds s bytes) (hready : Ready s ops) :
    ∃ got s' bytes', calls s ops = .ok (got, s') ∧ Inv none s' ∧ Holds s' bytes' ∧
      bytes ++ ops.flatMap Op.puts = got ++ bytes' := by
  induction ops generalizing s bytes with
  | nil => exact ⟨[], s, bytes, rfl, hinv, h, by simp⟩
  | cons op ops ih =>
    obtain ⟨r, s1, hs1, hinv1, -, -, -, -, hmove⟩ := transfer_ok hinv hready.1
    obtain ⟨bytes1, h1, heq1⟩ := hmove bytes h
    obtain ⟨got, s', bytes', hs', hinv', h', heq⟩ := ih hinv1 h1 (hready.2 _ hs1)
    refine ⟨r.toList ++ got, s', bytes', ?_, hinv', h', ?_⟩
    · simp only [calls, hs1, bind, Except.bind, hs', pure, Except.pure]
    · rw [flatMap_cons, ← append_assoc, heq1, append_assoc, heq, append_assoc]

end Pintos.Intq

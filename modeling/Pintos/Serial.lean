import Pintos.Intq

/-! # Serial output

`devices/serial.c`: a byte goes to the transmit register at once, or through the queue `txq` that
the interrupt handler empties.  One thread makes the calls; it can be blocked in the `intq_putc` of
`serial_putc`.

* **Left out**: the input side, `IER_REG` and the set-up of the port, which no byte goes through.
* **`serial_order`**: in every run the bytes come out in the order of the calls, and those that are
  not out yet are in `txq`. -/

namespace Pintos.Serial

open Intq Option

inductive Mode
  | uninit
  | poll
  | queue
deriving DecidableEq, Repr

/-- `mode`, `txq` and the bytes written to `THR_REG`. -/
structure State where
  mode : Mode
  txq : Intq.State Unit
  thr : List UInt8

/-- Before the first call: `txq` is static, and its lock not initialised. -/
def initial : State := ⟨.uninit, { intqInit Unit (fun _ => 0) with value := 0 }, []⟩

def initPoll (s : State) : State := { s with txq := intqInit Unit s.txq.buf, mode := .poll }

/-- `init_poll`, unless it was called before. -/
def ensurePoll (s : State) : State := if s.mode = .uninit then initPoll s else s

def serialInitQueue (s : State) : State := { ensurePoll s with mode := .queue }

/-- `putc_poll` in polling mode. -/
def putcPoll (byte : UInt8) (s : State) : State := { s with thr := s.thr ++ [byte] }

/-- `outb (THR_REG, intq_getc (&txq))`, on a queue that is not empty. -/
def sendNext (s : State) : Except Assertion State := do
  let r ← s.txq.transfer .getc
  return { s with txq := r.2, thr := s.thr ++ r.1.toList }

/-- A loop that empties `txq`, of at most `n` rounds. -/
def drain : ℕ → State → Except Assertion State
  | 0, s => .ok s
  | n + 1, s => if s.txq.intqEmpty then .ok s else sendNext s >>= drain n

/-- `serial_putc`, up to where it returns or blocks. -/
def serialPutc (byte : UInt8) (intrOn : Bool) (s : State) : Except Assertion State :=
  if s.mode ≠ .queue then .ok (putcPoll byte (ensurePoll s))
  else do
    let s ← if !intrOn && s.txq.intqFull then sendNext s else pure s
    let q ← s.txq.loop () (.putc byte)
    return { s with txq := q }

/-- `serial_flush`: `txq` has less than `INTQ_BUFSIZE` bytes. -/
def serialFlush (s : State) : Except Assertion State := drain bufSize s

inductive Event
  | putc (byte : UInt8) (intrOn : Bool)
  /-- The thread goes on in `intq_putc`. -/
  | resume
  | flush
  | initQueue
  /-- The handler finds the transmitter ready `n` times. -/
  | interrupt (n : ℕ)
deriving DecidableEq, Repr

/-- The bytes passed to `serial_putc`. -/
def Event.puts : Event → List UInt8
  | .putc byte _ => [byte]
  | _ => []

/-- What the event does, if it can happen: the thread is in one call at a time, the handler is
there once `serial_init_queue` was called, and that is called once. -/
def act (s : State) : Event → Option (Except Assertion State)
  | .putc byte intrOn => if (s.txq.pc ()).op? = none then some (serialPutc byte intrOn s) else none
  | .resume => (Intq.act s.txq (.resume ())).map fun r => r.map fun q => { s with txq := q }
  | .flush => if (s.txq.pc ()).op? = none then some (serialFlush s) else none
  | .initQueue =>
    if (s.txq.pc ()).op? = none ∧ s.mode ≠ .queue then some (.ok (serialInitQueue s)) else none
  | .interrupt n => if s.mode = .queue then some (drain n s) else none

def step (s : State) (e : Event) : Option State := (act s e).bind Except.toOption

/-! ### The invariant -/

/-- `bytes` are in `txq`, and `passed` were passed to `serial_putc`. -/
structure Inv (passed bytes : List UInt8) (s : State) : Prop where
  holds : Holds s.txq bytes
  passed_eq : passed = s.thr ++ bytes ++ (s.txq.pc ()).kept
  putting : ∀ op, (s.txq.pc ()).op? = some op → op ≠ .getc
  poll : s.mode ≠ .queue → bytes = [] ∧ (s.txq.pc ()).op? = none
  txq : s.mode ≠ .uninit → Intq.Inv none s.txq ∧ Calm s.txq

/-- Some bytes are in `txq`. -/
def Sound (passed : List UInt8) (s : State) : Prop := ∃ bytes, Inv passed bytes s

theorem inv_initial : Inv [] [] initial where
  holds := ⟨Nat.succ_pos 63, rfl, Nat.succ_pos 63, nofun⟩
  passed_eq := rfl
  putting _ h := by cases h
  poll _ := ⟨rfl, rfl⟩
  txq h := absurd rfl h

variable {passed bytes : List UInt8} {s : State}

theorem Inv.ensurePoll (h : Inv passed bytes s) : Inv passed bytes (ensurePoll s) := by
  unfold Serial.ensurePoll
  split
  · rename_i hmode
    obtain ⟨rfl, hidle⟩ := h.poll (by simp [hmode])
    refine ⟨Holds.init _, ?_, nofun, fun _ => ⟨rfl, rfl⟩, fun _ => ⟨inv_init _, calm_init _⟩⟩
    rw [h.passed_eq, Pc.kept, hidle]
    rfl
  · exact h

theorem Inv.sendNext (h : Inv passed bytes s) (hmode : s.mode = .queue) (hne : bytes ≠ []) :
    ∃ s' bytes', sendNext s = .ok s' ∧ Inv passed bytes' s' ∧ s'.mode = .queue ∧
      bytes.length = bytes'.length + 1 ∧ (s'.txq.pc ()).op? = (s.txq.pc ()).op? := by
  obtain ⟨hinv, hcalm⟩ := h.txq (by simp [hmode])
  have hop : s.txq.lacks Op.getc.awaits = false :=
    Bool.eq_false_iff.mpr fun hempty => hne (h.holds.empty_iff.mp hempty)
  obtain ⟨b, q, hq, hinv', -, hcalm', hpc, hsome, hmove⟩ := transfer_ok hinv hop
  obtain ⟨bytes', hb, heq⟩ := hmove bytes h.holds
  obtain ⟨byte, rfl⟩ := isSome_iff_exists.mp (hsome.mpr rfl)
  rw [Op.puts, List.append_nil] at heq
  refine ⟨⟨s.mode, q, s.thr ++ [byte]⟩, bytes', ?_, ⟨hb, ?_, ?_, fun hm => absurd hmode hm,
    fun _ => ⟨hinv', hcalm' hcalm⟩⟩, hmode, by simp [heq], hpc ()⟩
  · simp only [Serial.sendNext, hq, bind, Except.bind, pure, Except.pure, toList_some]
  · rw [h.passed_eq, heq, Pc.kept, Pc.kept, hpc]
    simp
  · rw [hpc]
    exact h.putting

/-- Rounds of the loop; as many as there are bytes leave none. -/
theorem Inv.drain (h : Inv passed bytes s) (n : ℕ) :
    ∃ s' bytes', drain n s = .ok s' ∧ Inv passed bytes' s' ∧ (bytes.length ≤ n → bytes' = []) := by
  induction n generalizing s bytes with
  | zero => exact ⟨s, bytes, rfl, h, fun hle => List.eq_nil_of_length_eq_zero (by omega)⟩
  | succ n ih =>
    rw [Serial.drain]
    split
    · rename_i hempty
      exact ⟨s, bytes, rfl, h, fun _ => h.holds.empty_iff.mp hempty⟩
    · rename_i hempty
      rw [h.holds.empty_iff] at hempty
      have hmode : s.mode = .queue := by
        by_contra hmode
        exact hempty (h.poll hmode).1
      obtain ⟨s1, bytes1, hs1, h1, -, hlen, -⟩ := h.sendNext hmode hempty
      obtain ⟨s', bytes', hs', h', hall⟩ := ih h1
      refine ⟨s', bytes', ?_, h', fun hle => hall (by omega)⟩
      rw [hs1]
      exact hs'

/-- The thread makes progress in `intq_putc`: its byte is in `txq`, or it still has it. -/
theorem Sound.moved (hmode : s.mode = .queue) {q : Intq.State Unit} {op : Op} (hop : op ≠ .getc)
    (hinv : Intq.Inv none q) (hcalm : Calm q) (hpassed : passed = s.thr ++ (bytes ++ op.puts))
    (hpc : (q.pc ()).op? = none ∨ (q.pc ()).op? = some op)
    (hmove : ∃ bytes', Holds q bytes' ∧ bytes ++ op.puts = bytes' ++ (q.pc ()).kept) :
    Sound passed { s with txq := q } := by
  obtain ⟨bytes', hb, heq⟩ := hmove
  refine ⟨bytes', hb, ?_, fun op' hop' => ?_, fun hm => absurd hmode hm, fun _ => ⟨hinv, hcalm⟩⟩
  · rw [hpassed, heq, List.append_assoc]
  · obtain hnone | hsome := hpc
    · cases hop'.symm.trans hnone
    · cases hop'.symm.trans hsome
      exact hop

/-- `intq_putc`, by a thread that is not in a call. -/
theorem Inv.intqPutc (h : Inv passed bytes s) (hmode : s.mode = .queue)
    (hidle : (s.txq.pc ()).op? = none) (byte : UInt8) :
    ∃ q, s.txq.loop () (.putc byte) = .ok q ∧ Sound (passed ++ [byte]) { s with txq := q } := by
  obtain ⟨hinv, hcalm⟩ := h.txq (by simp [hmode])
  obtain ⟨b, hpc⟩ : ∃ b, s.txq.pc () = .away b := by
    cases hpc : s.txq.pc () with
    | away b => exact ⟨b, rfl⟩
    | _ => simp [hpc, Pc.op?] at hidle
  have hheld : s.txq.holder ≠ some () := by
    simp [hinv.holder_iff () (by simp), hpc, Pc.holding]
  have hvalue : s.txq.value ≠ 0 := by
    rw [hinv.value_eq, eq_none_iff_forall_ne_some.mpr fun _ => hheld]
    simp
  obtain ⟨q, hq, hinv', hcalm', hop, hmove⟩ :=
    loop_ok (hinv.enter (by simp [hpc]) (by simp [hpc])) (.putc byte) hheld
  have hput : Op.putc byte ≠ .getc := by simp
  refine ⟨q, hq, Sound.moved hmode hput hinv' (hcalm' hcalm fun _ => hvalue) ?_ hop
    (hmove bytes h.holds hput)⟩
  rw [h.passed_eq, Pc.kept, hidle]
  simp [Op.puts]

theorem ensurePoll_mode (hmode : s.mode ≠ .queue) : (ensurePoll s).mode = .poll := by
  unfold ensurePoll
  split
  · rfl
  · cases hm : s.mode <;> simp_all

theorem Inv.serialPutc (h : Inv passed bytes s) (hidle : (s.txq.pc ()).op? = none) (byte : UInt8)
    (intrOn : Bool) :
    ∃ s', serialPutc byte intrOn s = .ok s' ∧ Sound (passed ++ [byte]) s' := by
  unfold Serial.serialPutc
  by_cases hmode : s.mode = .queue
  · rw [if_neg (not_not.mpr hmode)]
    split
    · rename_i hfull
      rw [Bool.and_eq_true, h.holds.full_iff] at hfull
      have hne : bytes ≠ [] := by
        rintro rfl
        simp at hfull
      obtain ⟨s1, bytes1, hs1, h1, hmode1, -, hpc1⟩ := h.sendNext hmode hne
      obtain ⟨q, hq, hsound⟩ := h1.intqPutc hmode1 (hpc1.trans hidle) byte
      refine ⟨_, ?_, hsound⟩
      simp only [hs1, bind, Except.bind, hq, pure, Except.pure]
    · obtain ⟨q, hq, hsound⟩ := h.intqPutc hmode hidle byte
      refine ⟨_, ?_, hsound⟩
      simp only [bind, Except.bind, hq, pure, Except.pure]
  · -- polling mode: nothing is in `txq`
    rw [if_pos hmode]
    obtain ⟨rfl, -⟩ := h.poll hmode
    have h' := h.ensurePoll
    obtain ⟨-, hidle'⟩ := h'.poll (by simp [ensurePoll_mode hmode])
    refine ⟨_, rfl, [], h'.holds, ?_, h'.putting, h'.poll, h'.txq⟩
    simp [h'.passed_eq, putcPoll, Pc.kept, hidle']

theorem Inv.resume (h : Inv passed bytes s) {r : Except Assertion State}
    (hact : act s .resume = some r) : ∃ s', r = .ok s' ∧ Sound passed s' := by
  have hmode : s.mode = .queue := by
    by_contra hmode
    have hidle := (h.poll hmode).2
    cases hpc : s.txq.pc () with
    | away b => simp [Serial.act, Intq.act, hpc] at hact
    | _ => simp [hpc, Pc.op?] at hidle
  obtain ⟨hinv, hcalm⟩ := h.txq (by simp [hmode])
  cases hpc : s.txq.pc () with
  | woken op =>
    obtain ⟨q, hq, hinv', hcalm', hop, hmove⟩ := woken_ok hinv hpc
    have hput : op ≠ .getc := h.putting op (by simp [hpc, Pc.op?])
    simp only [Serial.act, Intq.act, hpc, hq, map_some, Except.map,
      some.injEq] at hact
    refine ⟨_, hact.symm, Sound.moved hmode hput hinv' (hcalm' hcalm) ?_ hop
      (hmove bytes h.holds hput)⟩
    rw [h.passed_eq, hpc]
    simp [Pc.kept, Pc.op?]
  | granted op => simpa [hpc, Pc.acquiring] using hcalm ()
  | _ => simp [Serial.act, Intq.act, hpc] at hact

/-! ### Runs -/

/-- **An event** fails no ASSERT. -/
theorem Sound.act {e : Event} {r : Except Assertion State} (h : Sound passed s)
    (hact : act s e = some r) : ∃ s', r = .ok s' ∧ Sound (passed ++ e.puts) s' := by
  obtain ⟨bytes, h⟩ := h
  have hnil : passed ++ [] = passed := List.append_nil passed
  cases e with
  | putc byte intrOn =>
    obtain ⟨hidle, hr⟩ := ite_none_right_eq_some.mp hact
    cases hr
    exact h.serialPutc hidle byte intrOn
  | resume => exact hnil.symm ▸ h.resume hact
  | flush =>
    obtain ⟨-, hr⟩ := ite_none_right_eq_some.mp hact
    cases hr
    obtain ⟨s', bytes', hs', h', -⟩ := h.drain bufSize
    exact ⟨s', hs', bytes', hnil.symm ▸ h'⟩
  | initQueue =>
    obtain ⟨⟨-, hmode⟩, hr⟩ := ite_none_right_eq_some.mp hact
    cases hr
    have h' := h.ensurePoll
    refine ⟨_, rfl, bytes, h'.holds, hnil.trans h'.passed_eq, h'.putting,
      fun hne => absurd rfl hne, fun _ => h'.txq ?_⟩
    simp [ensurePoll_mode hmode]
  | interrupt n =>
    obtain ⟨-, hr⟩ := ite_none_right_eq_some.mp hact
    cases hr
    obtain ⟨s', bytes', hs', h', -⟩ := h.drain n
    exact ⟨s', hs', bytes', hnil.symm ▸ h'⟩

theorem Sound.run (es : List Event) {s' : State} (h : Sound passed s)
    (hrun : Transition.run step s es = some s') : Sound (passed ++ es.flatMap Event.puts) s' := by
  induction es generalizing s passed with
  | nil =>
    cases hrun
    simpa using h
  | cons e es ih =>
    obtain ⟨s1, hstep, hrun⟩ := Transition.run_cons hrun
    obtain ⟨r, hact, hr⟩ := bind_eq_some_iff.mp hstep
    obtain ⟨s2, rfl, h2⟩ := h.act hact
    cases hr
    rw [List.flatMap_cons, ← List.append_assoc]
    exact ih h2 hrun

/-- **Serial output keeps its order.**  Whatever was passed to `serial_putc` was written to the
transmit register, or is in `txq`, or still in the hands of the thread, in this order.  No ASSERT
fails, and `serial_flush` leaves nothing in `txq`. -/
theorem serial_order (es : List Event) (s : State) (hrun : Transition.run step initial es = some s) :
    (∃ bytes, Holds s.txq bytes ∧
        es.flatMap Event.puts = s.thr ++ bytes ++ (s.txq.pc ()).kept) ∧
      (∀ e r, act s e = some r → ∃ s', r = .ok s') ∧
      ∀ s', serialFlush s = .ok s' → s'.txq.intqEmpty = true := by
  have hsound : Sound ([] ++ es.flatMap Event.puts) s := Sound.run es ⟨[], inv_initial⟩ hrun
  refine ⟨?_, fun e r hact => ?_, fun s' hs' => ?_⟩
  · obtain ⟨bytes, h⟩ := hsound
    exact ⟨bytes, h.holds, h.passed_eq⟩
  · obtain ⟨s', hr, -⟩ := hsound.act hact
    exact ⟨s', hr⟩
  · obtain ⟨bytes, h⟩ := hsound
    obtain ⟨s1, bytes', hs1, h1, hall⟩ := h.drain bufSize
    cases hs1.symm.trans hs'
    exact h1.holds.empty_iff.mpr (hall h.holds.length_lt.le)

/-- A byte is polled out; of two more, the handler sends the first. -/
theorem serial_order_three :
    ∃ s, Transition.run step initial
        [.putc 1 true, .initQueue, .putc 2 true, .putc 3 false, .interrupt 1] = some s ∧
      s.thr = [1, 2] ∧ ∃ bytes, Holds s.txq bytes ∧
        [1, 2, 3] = s.thr ++ bytes ++ (s.txq.pc ()).kept := by
  have hrun : (Transition.run step initial
      [.putc 1 true, .initQueue, .putc 2 true, .putc 3 false, .interrupt 1]).map State.thr =
        some [1, 2] := by
    decide +kernel
  obtain ⟨s, hs, hthr⟩ := map_eq_some_iff.mp hrun
  exact ⟨s, hs, hthr, (serial_order _ s hs).1⟩

end Pintos.Serial

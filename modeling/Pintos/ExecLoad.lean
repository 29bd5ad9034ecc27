import Pintos.Process

/-! # What `process_execute` reports about the load

The child writes `load_val` and ups `temporary`; the parent, which holds `exec_lock`, downs
`temporary`, releases the lock, and reads `load_val` only then.

* `Phase`: where a process is as far as this exchange is concerned; `LoadStep`: what a step does to
  it and to the globals (`outcome_loadStep`).
* `LoadInv`: at most one child is loading, its parent holds the lock, and from the child's write on
  `load_val` is what the parent has to report.
* **`executed_of_readsFirst`**: in every run in which no child writes `load_val` while a process is
  about to read it, `process_execute` reports the load of its own child.
* `executed_other_load`: otherwise the parent can read what the child of another process wrote. -/

namespace Pintos.Process

open Interleaving

/-- Where a process is in the exchange. -/
inductive Phase
  | unborn
  | load
  | set (ok : Bool)
  | up (ok : Bool)
  | out
  | seek
  | init
  | create
  | await (child : Tid)
  | unlock (child : Tid)
  | read (child : Tid)

def ExecutePc.phase : ExecutePc → Phase
  | .lock => .seek
  | .initTemporary => .init
  | .create => .create
  | .malloc child => .await child
  | .fill child _ _ => .await child
  | .push child _ => .await child
  | .setWorkDir child => .await child
  | .downTemporary child => .await child
  | .unlock child => .unlock child
  | .readLoadVal child => .read child

def Pc.phase : Pc → Phase
  | .unborn => .unborn
  | .start .load => .load
  | .start (.setLoadVal ok) => .set ok
  | .start (.upTemporary ok) => .up ok
  | .execute pc => pc.phase
  | _ => .out

variable {j : Tid}

section phase

variable {pc : Pc}

theorem phase_eq_unborn (h : pc.phase = .unborn) : pc = .unborn := by
  rcases pc with _ | (_ | _ | _) | _ | (_ | _ | _ | _ | _ | _ | _ | _ | _ | _) | _ | _ | _ <;> cases h
  rfl

theorem phase_eq_load (h : pc.phase = .load) : pc = .start .load := by
  rcases pc with _ | (_ | _ | _) | _ | (_ | _ | _ | _ | _ | _ | _ | _ | _ | _) | _ | _ | _ <;> cases h
  rfl

theorem phase_eq_set {ok : Bool} (h : pc.phase = .set ok) : pc = .start (.setLoadVal ok) := by
  rcases pc with _ | (_ | _ | _) | _ | (_ | _ | _ | _ | _ | _ | _ | _ | _ | _) | _ | _ | _ <;> cases h
  rfl

theorem phase_eq_read (h : pc.phase = .read j) : pc = .execute (.readLoadVal j) := by
  rcases pc with _ | (_ | _ | _) | _ | (_ | _ | _ | _ | _ | _ | _ | _ | _ | _) | _ | _ | _ <;> cases h
  rfl

end phase

/-- What `load_val` is after the load. -/
def loadValOf (ok : Bool) : ℤ := if ok then 0 else -1

/-- An event that has nothing to do with the exchange. -/
def Event.Plain : Event → Prop
  | .loaded _ => False
  | .created _ => False
  | .executed _ _ => False
  | _ => True

/-- The globals of the exchange are the same. -/
structure SameLoad (s s' : Shared) : Prop where
  execLock : s'.execLock = s.execLock
  temporary : s'.temporary = s.temporary
  loadVal : s'.loadVal = s.loadVal
  nextTid : s'.nextTid = s.nextTid
  allList : s'.allList = s.allList

/-- What a step of the process `now` does to the exchange. -/
inductive LoadStep (now : Tid) (s : Shared) : Phase → Phase → Option Event → Shared → Prop
  | quiet {p : Phase} {new : Option Event} {s' : Shared} (same : SameLoad s s')
      (plain : ∀ e, new = some e → e.Plain) : LoadStep now s p p new s'
  | born (h : now ∈ s.allList) : LoadStep now s .unborn .load none s
  | load (ok : Bool) : LoadStep now s .load (.set ok) (some (.loaded ok)) s
  | set (ok : Bool) : LoadStep now s (.set ok) (.up ok) none { s with loadVal := loadValOf ok }
  | up (ok : Bool) {new : Option Event} (plain : ∀ e, new = some e → e.Plain) :
      LoadStep now s (.up ok) .out new { s with temporary := s.temporary + 1 }
  | call : LoadStep now s .out .seek none s
  | lock (h : s.execLock = none) :
      LoadStep now s .seek .init none { s with execLock := some now }
  | init : LoadStep now s .init .create none { s with temporary := 0 }
  | create :
      LoadStep now s .create (.await s.nextTid) (some (.created s.nextTid))
        { s with nextTid := s.nextTid + 1, allList := s.allList ++ [s.nextTid] }
  | down (child : Tid) (h : s.temporary ≠ 0) :
      LoadStep now s (.await child) (.unlock child) none
        { s with temporary := s.temporary - 1 }
  | unlock (child : Tid) :
      LoadStep now s (.unlock child) (.read child) none { s with execLock := none }
  | read (child : Tid) :
      LoadStep now s (.read child) .out
        (some (.executed child (if s.loadVal ≠ 0 then tidError else child))) s
  | leave : LoadStep now s .out .out none { s with allList := s.allList.erase now }

section inversion

variable {ch : Choice} {now : Tid} {s s' : Shared} {pc' : Pc} {new : Option Event}

theorem SameLoad.refl (s : Shared) : SameLoad s s := ⟨rfl, rfl, rfl, rfl, rfl⟩

theorem Use.quiet {q : Pc} {e : StatusPtr} {w : WaitStatus} (h : Use now s e w q pc' new s') :
    SameLoad s s' ∧ pc'.phase = q.phase ∧ ∀ e, new = some e → e.Plain := by
  cases h with
  | fill =>
    rename_i f
    cases f <;> exact ⟨⟨rfl, rfl, rfl, rfl, rfl⟩, rfl, nofun⟩
  | waitFree => exact ⟨⟨rfl, rfl, rfl, rfl, rfl⟩, rfl, fun e he => by cases he; trivial⟩
  | waitEnd => exact ⟨.refl s, rfl, fun e he => by cases he; trivial⟩
  | _ => exact ⟨⟨rfl, rfl, rfl, rfl, rfl⟩, rfl, nofun⟩

/-- **What a step does** to the exchange. -/
theorem outcome_loadStep {pc : Pc} (h : outcome ch now s pc = .next pc' new s') :
    LoadStep now s pc.phase pc'.phase new s' := by
  cases outcome_step h with
  | use _ hstep =>
    obtain ⟨hsame, hphase, hplain⟩ := hstep.quiet
    rw [hphase]
    exact .quiet hsame hplain
  | born hmem => exact .born hmem
  | load => exact .load _
  | setLoadVal => exact .set _
  | loaded => exact .up _ nofun
  | notLoaded => exact .up _ fun e he => by cases he; trivial
  | exec => exact .call
  | exit | waitNone => exact .quiet (.refl s) fun e he => by cases he; trivial
  | lock hfree => exact .lock hfree
  | initTemporary => exact .init
  | create => exact .create
  | downTemporary hpos => exact .down _ hpos
  | unlock => exact .unlock _
  | readLoadVal => exact .read _
  | leave => exact .leave
  | _ => exact .quiet ⟨rfl, rfl, rfl, rfl, rfl⟩ nofun

end inversion

/-! ### The invariant -/

def System.phase (c : System) (i : Tid) : Phase := (c.at i).phase

theorem System.moved_phase (c : System) (i : Tid) (pc : Pc) (new : Option Event) (s : Shared)
    (j : Tid) : (c.moved i pc new s).phase j = if j = i then pc.phase else c.phase j := by
  unfold System.phase
  split
  · rename_i h
    rw [h, System.moved_at_self]
  · rename_i h
    rw [System.moved_at_of_ne h]

/-- The process holds `exec_lock`. -/
def Phase.Holds : Phase → Prop
  | .init => True
  | .create => True
  | .await _ => True
  | .unlock _ => True
  | _ => False

/-- The thread was created and has not upped `temporary` yet. -/
def Loading (c : System) (j : Tid) : Prop :=
  (c.phase j = .unborn ∧ j ∈ c.shared.allList) ∨ c.phase j = .load ∨
    ∃ ok, c.phase j = .set ok ∨ c.phase j = .up ok

/-- `load_val` is what the load of `j` has given. -/
def Reported (c : System) (j : Tid) : Prop :=
  ∃ ok, .loaded ok ∈ c.history j ∧ c.shared.loadVal = loadValOf ok

/-- The next identifier is new. -/
structure TidInv (c : System) : Prop where
  pos : 1 < c.shared.nextTid
  bound : ∀ j ∈ c.shared.allList, j < c.shared.nextTid
  fresh : ∀ j, c.shared.nextTid ≤ j → c.phase j = .unborn

structure LoadInv (c : System) : Prop extends TidInv c where
  holder : ∀ i, (c.phase i).Holds → c.shared.execLock = some i
  clear : ∀ i, c.phase i = .create → c.shared.temporary = 0
  loading : ∀ j, Loading c j → ∃ i, c.phase i = .await j
  awaited : ∀ i j, c.phase i = .await j →
    (Loading c j ∧ c.shared.temporary = 0) ∨
      (¬ Loading c j ∧ c.shared.temporary = 1 ∧ Reported c j)
  known : ∀ i j, c.phase i = .unlock j ∨ c.phase i = .read j → Reported c j
  written : ∀ j ok, c.phase j = .up ok → c.shared.loadVal = loadValOf ok
  unloaded : ∀ j, c.phase j = .unborn ∨ c.phase j = .load → ∀ ok, .loaded ok ∉ c.history j
  loaded : ∀ j ok, c.phase j = .set ok ∨ c.phase j = .up ok → .loaded ok ∈ c.history j
  once : ∀ j ok ok', .loaded ok ∈ c.history j → .loaded ok' ∈ c.history j → ok = ok'
  child : ∀ i j, c.phase i = .await j ∨ c.phase i = .unlock j ∨ c.phase i = .read j →
    .created j ∈ c.history i ∧ 1 < j
  executed : ∀ i j r, .executed j r ∈ c.history i → .created j ∈ c.history i ∧ 1 < j ∧
    ∃ ok, .loaded ok ∈ c.history j ∧ r = if ok then j else tidError

/-- A child writes `load_val` only while no process is about to read it. -/
def ReadsFirst (c : System) (ev : Tid × Choice) : Prop :=
  (∃ ok, c.at ev.1 = .start (.setLoadVal ok)) → ∀ i child, c.at i ≠ .execute (.readLoadVal child)

/-- `c'` is `c` after a step of `i` to the phase `p'`. -/
structure Moved (c c' : System) (i : Tid) (p' : Phase) (new : Option Event) : Prop where
  phase : ∀ j, c'.phase j = if j = i then p' else c.phase j
  history : ∀ e j, e ∈ c'.history j ↔ (j = i ∧ new = some e) ∨ e ∈ c.history j

theorem moved (c : System) (i : Tid) (pc : Pc) (new : Option Event) (s : Shared) :
    Moved c (c.moved i pc new s) i pc.phase new where
  phase := c.moved_phase i pc new s
  history e j := by
    refine ⟨System.of_mem_moved_history, ?_⟩
    rintro (⟨rfl, rfl⟩ | h)
    · rw [System.moved_history_self]
      exact List.mem_append_left _ (by simp)
    · exact System.mem_moved_history h

variable {k : Tid}

section step

variable {c c' : System} {i : Tid} {p p' : Phase} {new : Option Event} {s' : Shared}

theorem LoadInv.holder_unique (hc : LoadInv c) {k' : Tid} (hk : (c.phase k).Holds)
    (hk' : (c.phase k').Holds) : k = k' :=
  Option.some.inj ((hc.holder k hk).symm.trans (hc.holder k' hk'))

theorem LoadInv.loading_unique (hc : LoadInv c) {j' : Tid} (hk : c.phase k = .await j)
    (hj : Loading c j') : j' = j := by
  obtain ⟨k', hk'⟩ := hc.loading j' hj
  have : k = k' := hc.holder_unique (by rw [hk]; trivial) (by rw [hk']; trivial)
  subst this
  rw [hk] at hk'
  cases hk'
  rfl

theorem LoadInv.not_loading (hc : LoadInv c) (hk : (c.phase k).Holds)
    (hne : ∀ j, c.phase k ≠ .await j) : ¬ Loading c j := by
  intro hj
  obtain ⟨k', hk'⟩ := hc.loading j hj
  have : k = k' := hc.holder_unique hk (by rw [hk']; trivial)
  subst this
  exact hne j hk'

variable (m : Moved c c' i p' new) (hp : c.phase i = p) (hs : c'.shared = s')
  (h : LoadStep i c.shared p p' new s')
include m hp hs h

theorem loading_of_step (hj : Loading c' j) :
    Loading c j ∨ (c.phase i = .create ∧ p' = .await j) := by
  obtain ⟨hphase, -⟩ := m
  cases h with
  | quiet same =>
    have := same.allList
    grind [Loading]
  | _ => grind [Loading]

theorem await_of_step (hk : c'.phase k = .await j) : c.phase k = .await j ∨
      (c.phase k = .create ∧ k = i ∧ j = c.shared.nextTid ∧ c'.shared.temporary = c.shared.temporary ∧
        j ∈ c'.shared.allList) := by
  obtain ⟨hphase, -⟩ := m
  cases h <;> grind

theorem await_step (hk : c.phase k = .await j) :
    c'.phase k = .await j ∨ c.shared.temporary ≠ 0 := by
  obtain ⟨hphase, -⟩ := m
  cases h <;> grind

theorem TidInv.step (hc : TidInv c) : TidInv c' := by
  obtain ⟨hpos, hbound, hfresh⟩ := hc
  have hphase := m.phase
  cases h with
  | quiet same =>
    have hnext := same.nextTid
    have hall := same.allList
    constructor <;> grind
  | _ => constructor <;> grind

variable (hc : LoadInv c)
include hc

theorem LoadInv.step_loading (hj : Loading c' j) : ∃ k, c'.phase k = .await j := by
  rcases loading_of_step m hp hs h hj with hj | ⟨-, rfl⟩
  · obtain ⟨k, hk⟩ := hc.loading j hj
    rcases await_step m hp hs h hk with hk | hne
    · exact ⟨k, hk⟩
    · rcases hc.awaited k j hk with ⟨-, hzero⟩ | ⟨hnot, -⟩
      · exact absurd hzero hne
      · exact absurd hj hnot
  · exact ⟨i, by rw [m.phase, if_pos rfl]⟩

/-- While a process waits for its child, only the child and the process itself touch the
semaphore, and only the child writes `load_val`. -/
theorem LoadInv.step_awaited (hk : c'.phase k = .await j) :
    (Loading c' j ∧ c'.shared.temporary = 0) ∨
      (¬ Loading c' j ∧ c'.shared.temporary = 1 ∧ Reported c' j) := by
  rcases await_of_step m hp hs h hk with hold | ⟨hcreate, rfl, rfl, htemp, hmem⟩
  · have hheld : ∀ k', (c.phase k').Holds → k' = k := fun k' hk' =>
      hc.holder_unique hk' (by rw [hold]; trivial)
    have haw := hc.awaited k j hold
    have hphase := m.phase
    have hhist := m.history
    cases h with
    | quiet same =>
      have htemp := same.temporary
      have hval := same.loadVal
      have hall := same.allList
      grind [Loading, Reported]
    | set ok =>
      have hi : Loading c i := .inr (.inr ⟨ok, .inl hp⟩)
      obtain rfl := hc.loading_unique hold hi
      rcases haw with ⟨-, hzero⟩ | ⟨hnot, -⟩
      · exact .inl ⟨.inr (.inr ⟨ok, .inr (by rw [hphase, if_pos rfl])⟩), by rw [hs, ← hzero]⟩
      · exact absurd hi hnot
    | up ok =>
      have hi : Loading c i := .inr (.inr ⟨ok, .inr hp⟩)
      obtain rfl := hc.loading_unique hold hi
      rcases haw with ⟨-, hzero⟩ | ⟨hnot, -⟩
      · have hdone : c'.phase i = .out := by rw [hphase, if_pos rfl]
        refine .inr ⟨by simp [Loading, hdone], by simp [hs, hzero], ok, ?_, ?_⟩
        · exact (hhist _ _).mpr (.inr (hc.loaded i ok (.inr hp)))
        · rw [hs]
          exact hc.written i ok hp
      · exact absurd hi hnot
    | _ => grind [Loading, Reported, Phase.Holds]
  · have hne : c.shared.nextTid ≠ k := by
      intro he
      have := hc.fresh k he.le
      rw [hcreate] at this
      cases this
    refine .inl ⟨.inl ⟨?_, hmem⟩, htemp.trans (hc.clear k hcreate)⟩
    rw [m.phase, if_neg hne]
    exact hc.fresh _ le_rfl

/-- No child writes `load_val` between the parent's wake-up and its read. -/
theorem LoadInv.step_known (hreads : (∃ ok, c.phase i = .set ok) → ∀ k j, c.phase k ≠ .read j)
    (hk : c'.phase k = .unlock j ∨ c'.phase k = .read j) : Reported c' j := by
  have hknown := hc.known
  have haw := hc.awaited
  have hnot : (∃ j, c.phase k = .unlock j) → ∀ j', ¬ Loading c j' := by
    rintro ⟨j, hj⟩ j'
    exact hc.not_loading (k := k) (by rw [hj]; trivial) (by rw [hj]; nofun)
  obtain ⟨hphase, hhist⟩ := m
  cases h with
  | quiet same =>
    have hval := same.loadVal
    grind [Reported]
  | set ok =>
    have hki : k ≠ i := by
      rintro rfl
      simp [hphase] at hk
    rw [hphase, if_neg hki] at hk
    rcases hk with hk | hk
    · exact absurd (.inr (.inr ⟨ok, .inl hp⟩)) (hnot ⟨j, hk⟩ i)
    · exact absurd hk (hreads ⟨ok, hp⟩ k j)
  | _ => grind [Reported]

theorem LoadInv.step_written {ok : Bool} (hj : c'.phase j = .up ok) :
    c'.shared.loadVal = loadValOf ok := by
  have hwr := hc.written
  have hone : ∀ j ok ok', c.phase i = .set ok → c.phase j = .up ok' → i = j := by
    intro j ok ok' hi hj
    obtain ⟨k, hk⟩ := hc.loading i (.inr (.inr ⟨ok, .inl hi⟩))
    exact (hc.loading_unique hk (.inr (.inr ⟨ok', .inr hj⟩))).symm
  have hphase := m.phase
  cases h with
  | quiet same => grind [same.loadVal]
  | _ => grind

theorem LoadInv.step_holder :
    (∀ k, (c'.phase k).Holds → c'.shared.execLock = some k) ∧
      ∀ k, c'.phase k = .create → c'.shared.temporary = 0 := by
  have hholder := hc.holder
  have hclear := hc.clear
  have hphase := m.phase
  have hnot : ∀ k, c.phase k = .create → ∀ j, ¬ Loading c j := by
    intro k hk j
    exact hc.not_loading (k := k) (by rw [hk]; trivial) (by rw [hk]; nofun)
  cases h with
  | quiet same =>
    have hlock := same.execLock
    have htemp := same.temporary
    grind
  | up ok =>
    have hi : Loading c i := .inr (.inr ⟨ok, .inr hp⟩)
    grind [Phase.Holds]
  | _ => grind [Phase.Holds]

/-- A thread loads once. -/
theorem LoadInv.step_loads :
    (∀ j, c'.phase j = .unborn ∨ c'.phase j = .load → ∀ ok, .loaded ok ∉ c'.history j) ∧
      (∀ j ok, c'.phase j = .set ok ∨ c'.phase j = .up ok → .loaded ok ∈ c'.history j) ∧
      ∀ j ok ok', .loaded ok ∈ c'.history j → .loaded ok' ∈ c'.history j → ok = ok' := by
  have hun := hc.unloaded
  have hld := hc.loaded
  have honce := hc.once
  have hphase := m.phase
  have hhist := m.history
  cases h <;> grind [Event.Plain]

theorem LoadInv.step_child
    (hk : c'.phase k = .await j ∨ c'.phase k = .unlock j ∨ c'.phase k = .read j) :
    .created j ∈ c'.history k ∧ 1 < j := by
  have hpos := hc.pos
  have hchild := hc.child
  have hphase := m.phase
  have hhist := m.history
  cases h <;> grind

theorem LoadInv.step_executed {r : Tid} (hk : .executed j r ∈ c'.history k) :
    .created j ∈ c'.history k ∧ 1 < j ∧
      ∃ ok, .loaded ok ∈ c'.history j ∧ r = if ok then j else tidError := by
  rcases (m.history _ _).mp hk with ⟨rfl, rfl⟩ | hold
  · have hread : c.phase k = .read j ∧ r = if c.shared.loadVal ≠ 0 then tidError else j := by
      cases h with
      | quiet same plain | up ok plain => exact absurd (plain _ rfl) (by simp [Event.Plain])
      | read => exact ⟨hp, rfl⟩
    obtain ⟨hread, rfl⟩ := hread
    obtain ⟨hcreated, hlt⟩ := hc.child k j (.inr (.inr hread))
    obtain ⟨ok, hloaded, hval⟩ := hc.known k j (.inr hread)
    refine ⟨(m.history _ _).mpr (.inr hcreated), hlt, ok, (m.history _ _).mpr (.inr hloaded), ?_⟩
    rw [hval]
    cases ok <;> rfl
  · obtain ⟨hcreated, hlt, ok, hloaded, hr⟩ := hc.executed k j r hold
    exact ⟨(m.history _ _).mpr (.inr hcreated), hlt, ok, (m.history _ _).mpr (.inr hloaded), hr⟩

end step

theorem LoadInv.step {c : System} {i : Tid} {ch : Choice} {pc : Pc} {new : Option Event}
    {s' : Shared} (hc : LoadInv c) (hreads : ReadsFirst c (i, ch))
    (h : outcome ch i c.shared (c.at i) = .next pc new s') : LoadInv (c.moved i pc new s') := by
  have m := moved c i pc new s'
  have h : LoadStep i c.shared (c.phase i) pc.phase new (c.moved i pc new s').shared :=
    outcome_loadStep h
  obtain ⟨hholder, hclear⟩ := hc.step_holder m rfl rfl h
  obtain ⟨hunloaded, hloaded, honce⟩ := hc.step_loads m rfl rfl h
  have hreads' : (∃ ok, c.phase i = .set ok) → ∀ k j, c.phase k ≠ .read j := by
    rintro ⟨ok, hset⟩ k j hk
    exact hreads ⟨ok, phase_eq_set hset⟩ k j (phase_eq_read hk)
  exact
    { toTidInv := TidInv.step m rfl rfl h hc.toTidInv, holder := hholder, clear := hclear
      unloaded := hunloaded, loaded := hloaded, once := honce
      loading := fun _ => hc.step_loading m rfl rfl h
      awaited := fun _ _ => hc.step_awaited m rfl rfl h
      known := fun _ _ => hc.step_known m rfl rfl h hreads'
      written := fun _ _ => hc.step_written m rfl rfl h
      child := fun _ _ => hc.step_child m rfl rfl h
      executed := fun _ _ _ => hc.step_executed m rfl rfl h }

theorem phase_boot (n : ℕ) (garbage : StatusPtr → WaitStatus) (i : Tid) :
    (boot n garbage).phase i = if i = 1 then .out else .unborn := by
  by_cases hi : i = 1
  · rw [if_pos hi, hi]
    rfl
  · rw [if_neg hi, System.phase, boot_at_of_ne hi]
    rfl

theorem tidInv_boot (n : ℕ) (garbage : StatusPtr → WaitStatus) : TidInv (boot n garbage) where
  pos := by
    change (1 : ℤ) < 2 + n
    omega
  bound j hj := by
    obtain rfl : j = 1 := List.mem_singleton.mp hj
    change (1 : ℤ) < 2 + n
    omega
  fresh j hj := by
    have hj : 2 + (n : ℤ) ≤ j := hj
    have hne : j ≠ 1 := by
      intro he
      rw [he] at hj
      omega
    rw [phase_boot, if_neg hne]

theorem loadInv_boot (n : ℕ) (garbage : StatusPtr → WaitStatus) : LoadInv (boot n garbage) := by
  have hphase := phase_boot n garbage
  have hhist : ∀ i, (boot n garbage).history i = [] := fun _ => rfl
  have hall : (boot n garbage).shared.allList = [1] := rfl
  have hload : ∀ i, ¬ Loading (boot n garbage) i := by
    grind [Loading]
  constructor
  · exact tidInv_boot n garbage
  all_goals grind [Phase.Holds]

/-- **`process_execute` reports the load of its own child**, in every run in which no child writes
`load_val` while a process is about to read it. -/
theorem executed_of_readsFirst (n : ℕ) (garbage : StatusPtr → WaitStatus)
    (evs : List (Tid × Choice)) (c : System)
    (hreads : StepsMeet procStep ReadsFirst (boot n garbage) evs)
    (hexec : exec procStep (boot n garbage) evs = some c) (i child result : Tid)
    (hi : .executed child result ∈ c.history i) :
    .created child ∈ c.history i ∧
      (result = tidError ↔ .loaded false ∈ c.history child) ∧
      (result ≠ tidError → result = child) := by
  have hc : LoadInv c := (run_invariant (fun _ _ _ _ _ _ hI hok hout => hI.step hok hout)
    (fun _ => rfl) (loadInv_boot n garbage) hreads hexec).1
  obtain ⟨hcreated, hlt, ok, hloaded, rfl⟩ := hc.executed i child result hi
  have hne : child ≠ tidError := by
    rintro rfl
    exact absurd hlt (by decide)
  refine ⟨hcreated, ?_, ?_⟩
  · cases ok with
    | true =>
      refine ⟨fun he => absurd he hne, fun hf => ?_⟩
      exact absurd (hc.once child _ _ hf hloaded) (by decide)
    | false => exact ⟨fun _ => hloaded, fun _ => rfl⟩
  · cases ok <;> simp

theorem executed_of_readsFirst_once :
    ∃ c : System, exec procStep (boot 0 fun _ => noStatus) (execSteps 1 2) = some c ∧
      .executed 2 2 ∈ c.history 1 ∧ .loaded false ∉ c.history 2 := by
  have hreads : StepsMeet procStep ReadsFirst (boot 0 fun _ => noStatus) (execSteps 1 2) := by
    refine stepsMeet_of_checkStep [1, 2] (fun c ev i =>
      match c.at ev.1, c.at i with
      | .start (.setLoadVal _), .execute (.readLoadVal _) => false
      | _, _ => true) ?_ (by decide) rfl
    rintro c ev hc - hcheck ⟨ok, hset⟩ i child hi
    by_cases hmem : i ∈ [1, 2]
    · have := hcheck i hmem
      rw [hset, hi] at this
      cases this
    · rw [hc i hmem] at hi
      cases hi
  have hrun : (exec procStep (boot 0 fun _ => noStatus) (execSteps 1 2)).map
      (fun c : System => c.history 1) = some [.executed 2 2, .created 2] := rfl
  obtain ⟨c, hc, hhist⟩ := Option.map_eq_some_iff.mp hrun
  have hmem : .executed 2 2 ∈ c.history 1 := by simp [hhist]
  refine ⟨c, hc, hmem, fun hf => ?_⟩
  have := (executed_of_readsFirst 0 _ _ c hreads hc 1 2 2 hmem).2.1.mpr hf
  exact absurd this (by decide)

/-- The first thread and its child 2 execute the processes 3 and 4; the first thread is about to
read what 3 has reported when 4 reports. -/
def otherLoad : List (Tid × Choice) :=
  execSteps 1 2 ++ executeSteps 1 ++ loadSteps 3 false ++ [(3, .go)] ++ List.replicate 2 (1, .go) ++
    executeSteps 2 ++ loadSteps 4 true ++ [(1, .go)]

theorem executed_other_load :
    ∃ c : System, exec procStep (boot 0 fun _ => noStatus) otherLoad = some c ∧
      .executed 3 3 ∈ c.history 1 ∧ .loaded false ∈ c.history 3 := by
  decide +kernel

end Pintos.Process

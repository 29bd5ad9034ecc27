import Mathlib.Tactic

/-! # Heaps of objects of one type

A heap maps addresses to live objects.  An address is given out once (`alloc`), so that a pointer
to an object that was freed is recognised as such; `Heap` carries the proof that the addresses
from `next` on are unused.

* `count P h`: the number of live objects that satisfy `P`, with what each operation does to it. -/

structure Heap (α : Type) where
  next : ℕ
  cells : ℕ → Option α
  fresh : ∀ p, next ≤ p → cells p = none

namespace Heap

open Finset Function

variable {α : Type}

def empty : Heap α := ⟨0, fun _ => none, fun _ _ => rfl⟩

/-- A new object, at the address `h.next`. -/
def alloc (h : Heap α) (a : α) : Heap α where
  next := h.next + 1
  cells := update h.cells h.next (some a)
  fresh p hp := by
    rw [update_of_ne (by omega)]
    exact h.fresh p (by omega)

/-- The object at `p`, if there is one, becomes `a`. -/
def store (h : Heap α) (p : ℕ) (a : α) : Heap α where
  next := h.next
  cells := update h.cells p ((h.cells p).map fun _ => a)
  fresh q hq := by
    by_cases hqp : q = p
    · subst hqp
      rw [update_self, h.fresh q hq]
      rfl
    · rw [update_of_ne hqp]
      exact h.fresh q hq

def free (h : Heap α) (p : ℕ) : Heap α where
  next := h.next
  cells := update h.cells p none
  fresh q hq := by
    by_cases hqp : q = p
    · rw [hqp, update_self]
    · rw [update_of_ne hqp]
      exact h.fresh q hq

variable {h : Heap α} {p q : ℕ} {a b : α}

theorem lt_next (hp : h.cells p = some a) : p < h.next := by
  by_contra hge
  rw [h.fresh p (by omega)] at hp
  cases hp

theorem update_eq_some {ι : Type} [DecidableEq ι] {f : ι → Option α} {i j : ι} {o : Option α} :
    update f i o j = some a ↔ (j = i ∧ o = some a) ∨ (j ≠ i ∧ f j = some a) := by
  by_cases hj : j = i
  · simp [hj]
  · simp [hj]

@[simp] theorem alloc_next : (h.alloc a).next = h.next + 1 := rfl

@[simp] theorem alloc_self : (h.alloc a).cells h.next = some a := update_self ..

theorem alloc_of_ne (hq : q ≠ h.next) : (h.alloc a).cells q = h.cells q :=
  update_of_ne hq ..

theorem alloc_of_live (hq : h.cells q = some b) : (h.alloc a).cells q = some b := by
  rw [alloc_of_ne (lt_next hq).ne, hq]

theorem store_self (hp : h.cells p = some b) : (h.store p a).cells p = some a := by
  change update h.cells p _ p = some a
  rw [update_self, hp]
  rfl

@[simp] theorem store_of_ne (hq : q ≠ p) : (h.store p a).cells q = h.cells q :=
  update_of_ne hq ..

@[simp] theorem free_self : (h.free p).cells p = none := update_self ..

@[simp] theorem free_of_ne (hq : q ≠ p) : (h.free p).cells q = h.cells q :=
  update_of_ne hq ..

theorem of_alloc (hq : (h.alloc a).cells q = some b) :
    (q = h.next ∧ b = a) ∨ (q ≠ h.next ∧ h.cells q = some b) :=
  (update_eq_some.mp hq).imp_left fun hb => ⟨hb.1, (Option.some_inj.mp hb.2).symm⟩

theorem of_store (hq : (h.store p a).cells q = some b) :
    (q = p ∧ b = a) ∨ (q ≠ p ∧ h.cells q = some b) := by
  refine (update_eq_some.mp hq).imp_left fun ⟨hqp, hb⟩ => ⟨hqp, ?_⟩
  obtain ⟨-, -, rfl⟩ := Option.map_eq_some_iff.mp hb
  rfl

theorem of_free (hq : (h.free p).cells q = some b) : q ≠ p ∧ h.cells q = some b :=
  (update_eq_some.mp hq).resolve_left fun hb => nomatch hb.2

/-! ### Counting -/

/-- The number of live objects that satisfy `P`. -/
def count (P : α → Bool) (h : Heap α) : ℕ :=
  ((range h.next).filter fun p => (h.cells p).any P = true).card

theorem count_change (h h' : Heap α) (P : α → Bool) (hnext : h'.next = h.next) (hp : p < h.next)
    (hcells : ∀ q, q ≠ p → h'.cells q = h.cells q) :
    h'.count P + ((h.cells p).any P).toNat = h.count P + ((h'.cells p).any P).toNat := by
  have hmem : p ∈ range h.next := mem_range.mpr hp
  unfold count
  rw [hnext, ← insert_erase hmem, filter_insert, filter_insert]
  have hrest : ((range h.next).erase p).filter (fun q => (h'.cells q).any P = true) =
      ((range h.next).erase p).filter (fun q => (h.cells q).any P = true) :=
    filter_congr fun q hq => by rw [hcells q (ne_of_mem_erase hq)]
  have hnot : ∀ s : Finset ℕ, s = ((range h.next).erase p).filter
      (fun q => (h.cells q).any P = true) → p ∉ s := by
    rintro s rfl hps
    exact absurd rfl (ne_of_mem_erase (mem_filter.mp hps).1)
  rw [hrest]
  cases (h.cells p).any P <;> cases (h'.cells p).any P <;>
    simp [card_insert_of_notMem (hnot _ rfl)]

theorem count_alloc (P : α → Bool) (h : Heap α) (a : α) :
    (h.alloc a).count P = h.count P + (P a).toNat := by
  unfold count
  rw [alloc_next, range_add_one, filter_insert, alloc_self]
  have hrest : (range h.next).filter (fun q => ((h.alloc a).cells q).any P = true) =
      (range h.next).filter (fun q => (h.cells q).any P = true) :=
    filter_congr fun q hq => by rw [alloc_of_ne (mem_range.mp hq).ne]
  rw [hrest]
  cases hP : P a
  · simp [hP]
  · simp [hP, card_insert_of_notMem]

theorem count_store (P : α → Bool) (hp : h.cells p = some b) (a : α) :
    (h.store p a).count P + (P b).toNat = h.count P + (P a).toNat := by
  have := count_change h (h.store p a) P rfl (lt_next hp) fun q hq => store_of_ne hq
  rwa [store_self hp, hp] at this

theorem count_free (P : α → Bool) (hp : h.cells p = some b) :
    (h.free p).count P + (P b).toNat = h.count P := by
  have := count_change h (h.free p) P rfl (lt_next hp) fun q hq => free_of_ne hq
  rwa [free_self, hp] at this

theorem count_le {P Q : α → Bool} (hPQ : ∀ a, P a = true → Q a = true) : h.count P ≤ h.count Q := by
  refine card_le_card fun p hp => ?_
  obtain ⟨hlt, hany⟩ := mem_filter.mp hp
  obtain ⟨a, ha, hP⟩ := (Option.any_eq_true _ _).mp hany
  exact mem_filter.mpr ⟨hlt, (Option.any_eq_true _ _).mpr ⟨a, ha, hPQ a hP⟩⟩

theorem count_pos_iff (P : α → Bool) :
    0 < h.count P ↔ ∃ p a, h.cells p = some a ∧ P a = true := by
  unfold count
  rw [card_pos]
  constructor
  · rintro ⟨p, hp⟩
    have hany := (mem_filter.mp hp).2
    cases ha : h.cells p with
    | none => rw [ha] at hany; cases hany
    | some a => rw [ha] at hany; exact ⟨p, a, ha, hany⟩
  · rintro ⟨p, a, hp, hP⟩
    exact ⟨p, mem_filter.mpr ⟨mem_range.mpr (lt_next hp), by rw [hp]; exact hP⟩⟩

end Heap

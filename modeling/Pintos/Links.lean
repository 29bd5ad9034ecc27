import Mathlib.Data.List.Chain
import Mathlib.Tactic

/-! # Doubly linked nodes

Nodes of a type `α` with a link in each direction, `none` for the null pointer.  A list of nodes
is a **segment** (`Seg`) if consecutive nodes are linked both ways; the outer links of its first
and last node are left open, so that a segment says nothing about what it is embedded in.

* `Seg.congr`: what a segment depends on.
* **`seg_cut`**: taking the nodes between `p` and `q` out leaves two segments.
* **`seg_join`**: a segment is put between the neighbours `p` and `q`.
* **`seg_reverse`**: exchanging the two links of every node reverses a segment. -/

/-- Where the two links of each node point. -/
@[ext] structure Links (α : Type) where
  prev : α → Option α
  next : α → Option α

namespace Links

open Function List

variable {α : Type} {h h' : Links α} {xs ys : List α} {a b p q : α}

/-- `a` and `b` are neighbours, in both directions. -/
def Linked (h : Links α) (a b : α) : Prop := h.next a = some b ∧ h.prev b = some a

/-- Consecutive nodes are neighbours. -/
def Seg (h : Links α) (xs : List α) : Prop := xs.IsChain h.Linked

theorem seg_singleton (h : Links α) (a : α) : h.Seg [a] := .singleton a

theorem seg_append_cons_cons :
    h.Seg (xs ++ a :: b :: ys) ↔ h.Seg (xs ++ [a]) ∧ h.Linked a b ∧ h.Seg (b :: ys) :=
  isChain_append_cons_cons

theorem Seg.left (hs : h.Seg (xs ++ ys)) : h.Seg xs :=
  (isChain_append.mp hs).1

theorem Seg.right (hs : h.Seg (xs ++ ys)) : h.Seg ys :=
  (isChain_append.mp hs).2.1

theorem Seg.append (hxs : h.Seg (xs ++ [a])) (hab : h.Linked a b) (hys : h.Seg (b :: ys)) :
    h.Seg ((xs ++ [a]) ++ b :: ys) := by
  rw [append_assoc]
  exact seg_append_cons_cons.mpr ⟨hxs, hab, hys⟩

/-- A segment depends on the `next` of all its nodes but the last, and on the `prev` of all but
the first. -/
theorem Seg.congr (hs : h.Seg xs) (hnext : ∀ a ∈ xs.dropLast, h'.next a = h.next a)
    (hprev : ∀ b ∈ xs.tail, h'.prev b = h.prev b) : h'.Seg xs := by
  induction xs with
  | nil => exact .nil
  | cons a xs ih =>
    cases xs with
    | nil => exact .singleton a
    | cons b ys =>
      obtain ⟨hab, hrest⟩ := isChain_cons_cons.mp hs
      refine isChain_cons_cons.mpr ⟨⟨?_, ?_⟩, ih hrest ?_ ?_⟩
      · rw [hnext a mem_cons_self]
        exact hab.1
      · rw [hprev b mem_cons_self]
        exact hab.2
      · intro c hc
        exact hnext c (mem_cons_of_mem _ hc)
      · intro c hc
        exact hprev c (mem_cons_of_mem _ hc)

/-- **Reversal.** -/
theorem seg_reverse (hs : h.Seg xs)
    (hswap : ∀ a ∈ xs, h'.prev a = h.next a ∧ h'.next a = h.prev a) : h'.Seg xs.reverse := by
  unfold Seg
  rw [isChain_reverse]
  refine List.IsChain.imp_of_mem_imp ?_ hs
  intro a b ha hb hab
  refine ⟨?_, ?_⟩
  · rw [(hswap b hb).2]
    exact hab.2
  · rw [(hswap a ha).1]
    exact hab.1

variable [DecidableEq α]

def setPrev (h : Links α) (a : α) (p : Option α) : Links α :=
  { h with prev := update h.prev a p }

def setNext (h : Links α) (a : α) (p : Option α) : Links α :=
  { h with next := update h.next a p }

@[simp] theorem setPrev_next (h : Links α) (a : α) (p : Option α) :
    (h.setPrev a p).next = h.next := rfl

@[simp] theorem setNext_prev (h : Links α) (a : α) (p : Option α) :
    (h.setNext a p).prev = h.prev := rfl

theorem setPrev_self (h : Links α) (a : α) (p : Option α) : (h.setPrev a p).prev a = p :=
  update_self ..

theorem setNext_self (h : Links α) (a : α) (p : Option α) : (h.setNext a p).next a = p :=
  update_self ..

theorem setPrev_of_ne {p : Option α} (hb : b ≠ a) :
    (h.setPrev a p).prev b = h.prev b := update_of_ne hb ..

theorem setNext_of_ne {p : Option α} (hb : b ≠ a) :
    (h.setNext a p).next b = h.next b := update_of_ne hb ..

/-! ### Taking out and putting in -/

/-- `p` and `q` become neighbours. -/
def connect (h : Links α) (p q : α) : Links α := (h.setNext p (some q)).setPrev q (some p)

theorem connect_next_self (h : Links α) (p q : α) : (h.connect p q).next p = some q :=
  setNext_self ..

theorem connect_prev_self (h : Links α) (p q : α) : (h.connect p q).prev q = some p :=
  setPrev_self ..

theorem connect_next_of_ne (ha : a ≠ p) : (h.connect p q).next a = h.next a := setNext_of_ne ha

theorem connect_prev_of_ne (ha : a ≠ q) : (h.connect p q).prev a = h.prev a := setPrev_of_ne ha

theorem linked_connect (h : Links α) (p q : α) : (h.connect p q).Linked p q :=
  ⟨connect_next_self h p q, connect_prev_self h p q⟩

/-- Connecting `p` to `q` touches a segment only through `p`, unless it is the last node, and
through `q`, unless it is the first. -/
theorem Seg.connect (hs : h.Seg xs) (hp : p ∉ xs.dropLast) (hq : q ∉ xs.tail) :
    (h.connect p q).Seg xs := by
  refine hs.congr ?_ ?_
  · intro a ha
    exact connect_next_of_ne (ne_of_mem_of_not_mem ha hp)
  · intro b hb
    exact connect_prev_of_ne (ne_of_mem_of_not_mem hb hq)

/-- **Taking out.**  The nodes `fs` between `p` and `q` are by-passed. -/
theorem seg_cut {fs : List α} (hs : h.Seg ((xs ++ [p]) ++ fs ++ (q :: ys)))
    (hnodup : ((xs ++ [p]) ++ fs ++ (q :: ys)).Nodup) :
    (h.connect p q).Seg ((xs ++ [p]) ++ (q :: ys)) ∧ (h.connect p q).Seg fs := by
  have hleft : h.Seg (xs ++ [p]) := hs.left.left
  have hmid : h.Seg fs := hs.left.right
  have hright : h.Seg (q :: ys) := hs.right
  have hconn1 : (h.connect p q).Seg (xs ++ [p]) := by
    apply hleft.connect
    · grind
    · intro hq
      have hmem := mem_of_mem_tail hq
      grind
  have hconn2 : (h.connect p q).Seg (q :: ys) := by
    apply hright.connect
    · intro hp
      have hmem := mem_of_mem_dropLast hp
      grind
    · grind
  have hconn3 : (h.connect p q).Seg fs := by
    apply hmid.connect
    · intro hp
      have hmem := mem_of_mem_dropLast hp
      grind
    · intro hq
      have hmem := mem_of_mem_tail hq
      grind
  exact ⟨hconn1.append (linked_connect h p q) hconn2, hconn3⟩

/-- **Putting in.**  The segment `fs`, from `f` to `g`, comes between the neighbours `p` and
`q`. -/
theorem seg_join {fs : List α} {f g : α} (hp : h.Seg (xs ++ [p])) (hfs : h.Seg fs)
    (hq : h.Seg (q :: ys)) (hf : fs.head? = some f) (hg : fs.getLast? = some g)
    (hnodup : ((xs ++ [p]) ++ fs ++ (q :: ys)).Nodup) :
    ((h.connect g q).connect p f).Seg ((xs ++ [p]) ++ fs ++ (q :: ys)) := by
  obtain ⟨fs', rfl⟩ := List.head?_eq_some_iff.mp hf
  obtain ⟨gs, hgs⟩ := List.getLast?_eq_some_iff.mp hg
  have hgmem : g ∈ f :: fs' := by
    rw [hgs]
    exact mem_concat_self
  simp only [nodup_append, nodup_cons, mem_append, mem_cons] at hnodup hgmem
  have hgd : g ∉ (f :: fs').dropLast := by
    have hnd : (gs ++ [g]).Nodup := hgs ▸ nodup_cons.mpr hnodup.1.2.1
    grind
  have hqd : ∀ a ∈ (q :: ys).dropLast, a ∈ q :: ys := fun a => mem_of_mem_dropLast
  have hpt : ∀ a ∈ (xs ++ [p]).tail, a ∈ xs ++ [p] := fun a => mem_of_mem_tail
  have hleft : ((h.connect g q).connect p f).Seg (xs ++ [p]) := by
    apply (hp.connect _ _).connect
    · grind
    · grind
    · grind
    · grind
  have hmid : ((h.connect g q).connect p f).Seg (f :: fs') := by
    apply (hfs.connect hgd _).connect
    · grind
    · grind
    · grind
  have hright : ((h.connect g q).connect p f).Seg (q :: ys) := by
    apply (hq.connect _ _).connect
    · grind
    · grind
    · grind
    · grind
  have hgq : ((h.connect g q).connect p f).Linked g q := by
    refine ⟨?_, ?_⟩
    · rw [connect_next_of_ne (by grind), connect_next_self]
    · rw [connect_prev_of_ne (by grind), connect_prev_self]
  have hfront := hleft.append (linked_connect _ p f) hmid
  rw [hgs, ← append_assoc] at hfront ⊢
  exact hfront.append hgq hright

end Links

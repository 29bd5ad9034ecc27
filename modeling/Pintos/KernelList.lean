import Pintos.Links

/-! # Kernel lists

`lib/kernel/list.c`: doubly linked lists with a head and a tail sentinel, embedded in a heap of
links.  The functions are those of the source, one assignment after another; an assertion that
fails, or a null link that is followed, stops them.

* **`Represents h l xs`**: the list object `l` holds the elements `xs`.
* **`Lists h ls seq`**: any number of list objects, with pairwise disjoint nodes.
* **`Move`**: what each operation does to the sequences, as operations on sequences.
* **`exec_refines`**: the pointer code does just that, and touches no other list. -/

namespace Pintos.KernelList

open Function Links List Option

variable {ι α : Type}

/-- How a list operation stops before it returns. -/
inductive Stop
  | assertion
  | nullPointer
  /-- The loop of `list_reverse` has not ended after the given number of rounds. -/
  | outOfFuel
deriving DecidableEq, Repr

/-- `struct list`: the addresses of its two sentinels. -/
structure Header (α : Type) where
  head : α
  tail : α

section Code

variable [DecidableEq α] (h : Links α)

def isHead (e : α) : Bool := (h.prev e).isNone && (h.next e).isSome

def isInterior (e : α) : Bool := (h.prev e).isSome && (h.next e).isSome

def isTail (e : α) : Bool := (h.prev e).isSome && (h.next e).isNone

def assert (b : Bool) : Except Stop Unit := if b then .ok () else .error .assertion

def deref : Option α → Except Stop α
  | some a => .ok a
  | none => .error .nullPointer

def listInit (l : Header α) : Links α :=
  (((h.setPrev l.head none).setNext l.head (some l.tail)).setPrev l.tail (some l.head)).setNext
    l.tail none

def listBegin (l : Header α) : Option α := h.next l.head

def listNext (e : α) : Except Stop (Option α) := do
  assert (isHead h e || isInterior h e)
  return h.next e

def listEnd (l : Header α) : α := l.tail

def listEmpty (l : Header α) : Bool := listBegin h l = some (listEnd l)

def listPrev (e : α) : Except Stop (Option α) := do
  assert (isInterior h e || isTail h e)
  return h.prev e

def listInsert (before elem : α) : Except Stop (Links α) := do
  assert (isInterior h before || isTail h before)
  let h := h.setPrev elem (h.prev before)
  let h := h.setNext elem (some before)
  let p ← deref (h.prev before)
  let h := h.setNext p (some elem)
  return h.setPrev before (some elem)

def listSplice (before first last : α) : Except Stop (Links α) := do
  assert (isInterior h before || isTail h before)
  if first = last then return h
  else
    let last ← deref (← listPrev h last)
    assert (isInterior h first)
    assert (isInterior h last)
    -- Cleanly remove FIRST...LAST from its current list.
    let p ← deref (h.prev first)
    let h := h.setNext p (h.next last)
    let q ← deref (h.next last)
    let h := h.setPrev q (h.prev first)
    -- Splice FIRST...LAST into new list.
    let h := h.setPrev first (h.prev before)
    let h := h.setNext last (some before)
    let r ← deref (h.prev before)
    let h := h.setNext r (some first)
    return h.setPrev before (some last)

def listPushFront (l : Header α) (elem : α) : Except Stop (Links α) := do
  let before ← deref (listBegin h l)
  listInsert h before elem

def listPushBack (l : Header α) (elem : α) : Except Stop (Links α) :=
  listInsert h (listEnd l) elem

def listRemove (elem : α) : Except Stop (Links α × Option α) := do
  assert (isInterior h elem)
  let p ← deref (h.prev elem)
  let h := h.setNext p (h.next elem)
  let q ← deref (h.next elem)
  let h := h.setPrev q (h.prev elem)
  return (h, h.next elem)

def listFront (l : Header α) : Except Stop (Option α) := do
  assert (!listEmpty h l)
  return h.next l.head

def listBack (l : Header α) : Except Stop (Option α) := do
  assert (!listEmpty h l)
  return h.prev l.tail

def listPopFront (l : Header α) : Except Stop (Links α × Option α) := do
  let front ← deref (← listFront h l)
  let r ← listRemove h front
  return (r.1, some front)

def listPopBack (l : Header α) : Except Stop (Links α × Option α) := do
  let back ← deref (← listBack h l)
  let r ← listRemove h back
  return (r.1, some back)

/-- `swap (&e->prev, &e->next)`. -/
def swapLinks (e : α) : Links α := (h.setPrev e (h.next e)).setNext e (h.prev e)

/-- The loop of `list_reverse`, from `e` on. -/
def reverseLoop (tail : α) : ℕ → Links α → Option α → Except Stop (Links α)
  | 0, _, _ => .error .outOfFuel
  | fuel + 1, h, e =>
    if e = some tail then .ok h
    else do
      let a ← deref e
      let h := swapLinks h a
      reverseLoop tail fuel h (h.prev a)

def listReverse (fuel : ℕ) (l : Header α) : Except Stop (Links α) :=
  if listEmpty h l then .ok h
  else do
    let h ← reverseLoop (listEnd l) fuel h (listBegin h l)
    -- swap (&list->head.next, &list->tail.prev)
    let h := (h.setNext l.head (h.prev l.tail)).setPrev l.tail (h.next l.head)
    -- swap (&list->head.next->prev, &list->tail.prev->next)
    let x ← deref (h.next l.head)
    let y ← deref (h.prev l.tail)
    return (h.setPrev x (h.next y)).setNext y (h.prev x)

end Code

/-! ### What a list object represents -/

/-- All nodes of a list, sentinels included. -/
def Header.nodes (l : Header α) (xs : List α) : List α := (l.head :: xs) ++ [l.tail]

/-- The list object `l` is well formed and holds the elements `xs`. -/
structure Represents (h : Links α) (l : Header α) (xs : List α) : Prop where
  head_prev : h.prev l.head = none
  tail_next : h.next l.tail = none
  seg : h.Seg (l.nodes xs)
  nodup : (l.nodes xs).Nodup

/-- Any number of list objects whose nodes are pairwise disjoint. -/
structure Lists (h : Links α) (ls : ι → Header α) (seq : ι → List α) : Prop where
  represents : ∀ i, Represents h (ls i) (seq i)
  disjoint : ∀ i j, i ≠ j → ((ls i).nodes (seq i)).Disjoint ((ls j).nodes (seq j))

/-- The links of `a` are the same in both heaps. -/
def Same (h h' : Links α) (a : α) : Prop := h'.next a = h.next a ∧ h'.prev a = h.prev a

variable {xs : List α}

theorem Represents.congr {h h' : Links α} {l : Header α} (hr : Represents h l xs)
    (hsame : ∀ a ∈ l.nodes xs, Same h h' a) : Represents h' l xs where
  head_prev := by
    rw [(hsame l.head (by simp [Header.nodes])).2]
    exact hr.head_prev
  tail_next := by
    rw [(hsame l.tail (by simp [Header.nodes])).1]
    exact hr.tail_next
  seg := by
    refine hr.seg.congr ?_ ?_
    · intro a ha
      exact (hsame a (mem_of_mem_dropLast ha)).1
    · intro a ha
      exact (hsame a (mem_of_mem_tail ha)).2
  nodup := hr.nodup

/-! ### A position in a list

Between the elements `us` and `vs` of a list the neighbours are `left` and `right`, either of
which may be a sentinel. -/

variable {fs : List α} {f g : α}

section Position

variable {l : Header α} {us vs : List α}

def Header.left (l : Header α) (us : List α) : α := us.getLastD l.head

def Header.right (l : Header α) (vs : List α) : α := vs.headD l.tail

theorem Header.cons_eq (l : Header α) (us : List α) :
    ∃ as, l.head :: us = as ++ [l.left us] := by
  cases us using List.reverseRecOn with
  | nil => exact ⟨[], rfl⟩
  | append_singleton us a =>
    refine ⟨l.head :: us, ?_⟩
    rw [Header.left, getLastD_concat]
    rfl

theorem Header.concat_eq (l : Header α) (vs : List α) :
    ∃ bs, vs ++ [l.tail] = l.right vs :: bs := by
  cases vs with
  | nil => exact ⟨[], rfl⟩
  | cons b vs => exact ⟨vs ++ [l.tail], rfl⟩

theorem Header.nodes_append (l : Header α) (us vs : List α) :
    l.nodes (us ++ vs) = (l.head :: us) ++ (vs ++ [l.tail]) := by
  simp only [Header.nodes, cons_append, append_assoc]

theorem Header.left_mem (l : Header α) (us vs : List α) : l.left us ∈ l.nodes (us ++ vs) := by
  obtain ⟨as, has⟩ := l.cons_eq us
  rw [Header.nodes_append, has]
  simp

theorem Header.right_mem (l : Header α) (us vs : List α) : l.right vs ∈ l.nodes (us ++ vs) := by
  obtain ⟨bs, hbs⟩ := l.concat_eq vs
  rw [Header.nodes_append, hbs]
  simp

variable {h : Links α}

theorem Represents.linked (hr : Represents h l (us ++ vs)) :
    h.Linked (l.left us) (l.right vs) := by
  obtain ⟨as, has⟩ := l.cons_eq us
  obtain ⟨bs, hbs⟩ := l.concat_eq vs
  have hseg := hr.seg
  rw [Header.nodes_append, has, hbs, append_assoc] at hseg
  exact (seg_append_cons_cons.mp hseg).2.1

theorem Represents.left_ne_right (hr : Represents h l (us ++ vs)) : l.left us ≠ l.right vs := by
  obtain ⟨as, has⟩ := l.cons_eq us
  obtain ⟨bs, hbs⟩ := l.concat_eq vs
  have hnodup := hr.nodup
  rw [Header.nodes_append, has, hbs] at hnodup
  exact (nodup_append.mp hnodup).2.2 _ mem_concat_self _ mem_cons_self

theorem nodup_insert {ys : List α} (hfs : fs.Nodup) (hxy : (xs ++ ys).Nodup)
    (hdisj : fs.Disjoint (xs ++ ys)) : (xs ++ fs ++ ys).Nodup := by
  have hperm : (xs ++ fs ++ ys).Perm (fs ++ (xs ++ ys)) := by
    rw [← append_assoc]
    exact perm_append_comm.append_right ys
  exact hperm.nodup_iff.mpr (hfs.append hxy hdisj)

variable [DecidableEq α]

theorem Represents.cut (hr : Represents h l (us ++ fs ++ vs)) :
    Represents (h.connect (l.left us) (l.right vs)) l (us ++ vs) ∧
      (h.connect (l.left us) (l.right vs)).Seg fs := by
  obtain ⟨as, has⟩ := l.cons_eq us
  obtain ⟨bs, hbs⟩ := l.concat_eq vs
  have hnodes : l.nodes (us ++ fs ++ vs) = (as ++ [l.left us]) ++ fs ++ (l.right vs :: bs) := by
    rw [Header.nodes_append, ← has, ← hbs]
    simp only [cons_append, append_assoc]
  have hnodes' : l.nodes (us ++ vs) = (as ++ [l.left us]) ++ (l.right vs :: bs) := by
    rw [Header.nodes_append, has, hbs]
  have hseg := hr.seg
  have hnodup := hr.nodup
  rw [hnodes] at hseg hnodup
  obtain ⟨hrest, hmid⟩ := seg_cut hseg hnodup
  have hsub : (l.nodes (us ++ vs)).Nodup := by
    rw [hnodes']
    exact hnodup.sublist ((sublist_append_left _ _).append_right _)
  refine ⟨⟨?_, ?_, hnodes' ▸ hrest, hsub⟩, hmid⟩
  · -- the head is never the right neighbour
    rw [connect_prev_of_ne, hr.head_prev]
    rw [Header.nodes_append, hbs] at hsub
    exact (nodup_append.mp hsub).2.2 _ mem_cons_self _ mem_cons_self
  · rw [connect_next_of_ne, hr.tail_next]
    rw [Header.nodes_append, has] at hsub
    exact ((nodup_append.mp hsub).2.2 _ mem_concat_self _ mem_concat_self).symm

theorem Represents.join (hr : Represents h l (us ++ vs)) (hfs : h.Seg fs) (hf : fs.head? = some f)
    (hg : fs.getLast? = some g) (hnodup : fs.Nodup) (hdisj : fs.Disjoint (l.nodes (us ++ vs))) :
    Represents ((h.connect g (l.right vs)).connect (l.left us) f) l (us ++ fs ++ vs) := by
  obtain ⟨as, has⟩ := l.cons_eq us
  obtain ⟨bs, hbs⟩ := l.concat_eq vs
  have hnodes : l.nodes (us ++ fs ++ vs) = (as ++ [l.left us]) ++ fs ++ (l.right vs :: bs) := by
    rw [Header.nodes_append, ← has, ← hbs]
    simp only [cons_append, append_assoc]
  have hseg := hr.seg
  have hold := hr.nodup
  rw [Header.nodes_append, has, hbs] at hseg hold hdisj
  have hall : ((as ++ [l.left us]) ++ fs ++ (l.right vs :: bs)).Nodup :=
    nodup_insert hnodup hold hdisj
  have hfmem : f ∈ fs := mem_of_mem_head? hf
  refine ⟨?_, ?_, ?_, hnodes ▸ hall⟩
  · have hhead : l.head ∈ as ++ [l.left us] := has ▸ mem_cons_self
    rw [connect_prev_of_ne (by grind [List.Disjoint]), connect_prev_of_ne, hr.head_prev]
    exact (nodup_append.mp hold).2.2 _ hhead _ mem_cons_self
  · have htail : l.tail ∈ l.right vs :: bs := hbs ▸ mem_concat_self
    rw [connect_next_of_ne, connect_next_of_ne (by grind [List.Disjoint]), hr.tail_next]
    exact ((nodup_append.mp hold).2.2 _ mem_concat_self _ htail).symm
  · rw [hnodes]
    exact seg_join hseg.left hfs hseg.right hf hg hall

end Position

/-! ### Many lists -/

variable {a p q : α}

section Many

variable [DecidableEq ι] {h h' : Links α} {ls : ι → Header α} {seq : ι → List α} {i : ι}

/-- One list changes, and no link of the others. -/
theorem Lists.change (hl : Lists h ls seq) (hr : Represents h' (ls i) xs)
    (hdisj : ∀ k, k ≠ i → ((ls i).nodes xs).Disjoint ((ls k).nodes (seq k)))
    (hsame : ∀ k, k ≠ i → ∀ a ∈ (ls k).nodes (seq k), Same h h' a) :
    Lists h' ls (update seq i xs) where
  represents := by
    intro k
    by_cases hk : k = i
    · rw [hk, update_self]
      exact hr
    · rw [update_of_ne hk]
      exact (hl.represents k).congr (hsame k hk)
  disjoint := by
    intro j k hjk
    by_cases hj : j = i
    · subst hj
      rw [update_self, update_of_ne hjk.symm]
      exact hdisj k hjk.symm
    · rw [update_of_ne hj]
      by_cases hk : k = i
      · subst hk
        rw [update_self]
        exact (hdisj j hj).symm
      · rw [update_of_ne hk]
        exact hl.disjoint j k hjk

theorem Header.mem_nodes {l : Header α} : a ∈ l.nodes xs ↔ a = l.head ∨ a ∈ xs ∨ a = l.tail := by
  simp only [Header.nodes, cons_append, mem_cons, mem_append, not_mem_nil,
    or_false]

variable [DecidableEq α]

theorem same_connect (hp : a ≠ p) (hq : a ≠ q) : Same h (h.connect p q) a :=
  ⟨connect_next_of_ne hp, connect_prev_of_ne hq⟩

variable {us vs : List α}

/-- **Taking out** a block of elements of one list. -/
theorem Lists.cut (hl : Lists h ls seq) (hi : seq i = us ++ fs ++ vs) :
    Lists (h.connect ((ls i).left us) ((ls i).right vs)) ls (update seq i (us ++ vs)) ∧
    (h.connect ((ls i).left us) ((ls i).right vs)).Seg fs ∧
    (∀ k, fs.Disjoint ((ls k).nodes (update seq i (us ++ vs) k))) ∧
    ∀ k, k ≠ i → ∀ a ∈ (ls k).nodes (seq k),
      Same h (h.connect ((ls i).left us) ((ls i).right vs)) a := by
  have hr := hl.represents i
  rw [hi] at hr
  obtain ⟨hrest, hseg⟩ := hr.cut
  -- the nodes that stay were nodes before
  have hsub : ∀ a ∈ (ls i).nodes (us ++ vs), a ∈ (ls i).nodes (seq i) := by
    intro a ha
    rw [hi]
    simp only [Header.mem_nodes, mem_append] at ha ⊢
    tauto
  have hdisj : ∀ k, k ≠ i → ((ls i).nodes (us ++ vs)).Disjoint ((ls k).nodes (seq k)) := by
    intro k hk a ha
    exact hl.disjoint i k hk.symm (hsub a ha)
  have hsame : ∀ k, k ≠ i → ∀ a ∈ (ls k).nodes (seq k),
      Same h (h.connect ((ls i).left us) ((ls i).right vs)) a := by
    intro k hk a ha
    apply same_connect
    · rintro rfl
      exact hdisj k hk ((ls i).left_mem us vs) ha
    · rintro rfl
      exact hdisj k hk ((ls i).right_mem us vs) ha
  refine ⟨hl.change hrest hdisj hsame, hseg, ?_, hsame⟩
  intro k a ha hak
  by_cases hk : k = i
  · subst hk
    have hnodup := hr.nodup
    simp only [Header.nodes, nodup_append, nodup_cons, cons_append,
      mem_append, mem_singleton] at hnodup
    simp only [Header.mem_nodes] at hak
    grind
  · rw [update_of_ne hk] at hak
    refine hl.disjoint i k (Ne.symm hk) ?_ hak
    rw [hi, Header.mem_nodes]
    simp only [mem_append]
    tauto

/-- **Putting in** a block of nodes that are in no list. -/
theorem Lists.join (hl : Lists h ls seq) (hi : seq i = us ++ vs) (hfs : h.Seg fs)
    (hf : fs.head? = some f) (hg : fs.getLast? = some g) (hnodup : fs.Nodup)
    (hfresh : ∀ k, fs.Disjoint ((ls k).nodes (seq k))) :
    Lists ((h.connect g ((ls i).right vs)).connect ((ls i).left us) f) ls
      (update seq i (us ++ fs ++ vs)) ∧
    ∀ k, k ≠ i → ∀ a ∈ (ls k).nodes (seq k),
      Same h ((h.connect g ((ls i).right vs)).connect ((ls i).left us) f) a := by
  have hr := hl.represents i
  have hfi := hfresh i
  rw [hi] at hr hfi
  have hfmem : f ∈ fs := mem_of_mem_head? hf
  have hgmem : g ∈ fs := mem_of_getLast? hg
  have hdisj : ∀ k, k ≠ i → ((ls i).nodes (us ++ vs)).Disjoint ((ls k).nodes (seq k)) := by
    intro k hk
    rw [← hi]
    exact hl.disjoint i k hk.symm
  have hsame : ∀ k, k ≠ i → ∀ a ∈ (ls k).nodes (seq k),
      Same h ((h.connect g ((ls i).right vs)).connect ((ls i).left us) f) a := by
    intro k hk a ha
    have hag : a ≠ g := by
      rintro rfl
      exact hfresh k hgmem ha
    have haf : a ≠ f := by
      rintro rfl
      exact hfresh k hfmem ha
    have har : a ≠ (ls i).right vs := by
      rintro rfl
      exact hdisj k hk ((ls i).right_mem us vs) ha
    have hal : a ≠ (ls i).left us := by
      rintro rfl
      exact hdisj k hk ((ls i).left_mem us vs) ha
    have h1 : Same h (h.connect g ((ls i).right vs)) a := same_connect hag har
    have h2 := same_connect (h := h.connect g ((ls i).right vs)) hal haf
    exact ⟨h2.1.trans h1.1, h2.2.trans h1.2⟩
  refine ⟨hl.change (hr.join hfs hf hg hnodup hfi) ?_ hsame, hsame⟩
  intro k hk a ha hak
  simp only [Header.mem_nodes, mem_append] at ha
  by_cases haf : a ∈ fs
  · exact hfresh k haf hak
  · refine hdisj k hk ?_ hak
    simp only [Header.mem_nodes, mem_append]
    tauto

end Many

/-! ### What the code computes -/

variable {e : α} {fuel : ℕ}

section Specs

@[simp] theorem assert_true : assert true = .ok () := rfl

@[simp] theorem deref_some (a : α) : deref (some a) = .ok a := rfl

@[simp] theorem ok_bind {β γ : Type} (b : β) (f : β → Except Stop γ) :
    (Except.ok b >>= f) = f b := rfl

variable {h : Links α}

theorem before_ok (hp : h.prev e = some p) : (isInterior h e || isTail h e) = true := by
  unfold isInterior isTail
  rw [hp]
  cases h.next e with
  | none => rfl
  | some q => rfl

theorem interior_ok (hp : h.prev e = some p) (hq : h.next e = some q) : isInterior h e = true := by
  unfold isInterior
  rw [hp, hq]
  rfl

variable {l : Header α}

theorem Represents.listNext_eq {us vs : List α}
    (hr : Represents h l (us ++ e :: vs)) : listNext h e = .ok (some (l.right vs)) := by
  have hprev : h.prev e = some (l.left us) := hr.linked.2
  have hnext : h.next e = some (l.right vs) := by
    have hr' : Represents h l ((us ++ [e]) ++ vs) := by
      rwa [append_assoc]
    have hlinked := hr'.linked
    rw [Header.left, getLastD_concat] at hlinked
    exact hlinked.1
  unfold listNext
  rw [interior_ok hprev hnext, Bool.or_true, assert_true, ok_bind, hnext]
  rfl

theorem Represents.listBegin_eq (hr : Represents h l xs) :
    listBegin h l = some (l.right xs) := by
  have hr' : Represents h l ([] ++ xs) := hr
  exact hr'.linked.1

variable [DecidableEq α]

/-- The last four assignments of `list_insert` and of `list_splice`. -/
theorem link_eq (p f g q : α) (hfq : f ≠ q) :
    (((h.setPrev f (some p)).setNext g (some q)).setNext p (some f)).setPrev q (some g) =
      (h.connect g q).connect p f := by
  apply Links.ext
  · exact update_comm hfq _ _ _
  · rfl

theorem listInsert_eq (hq : h.prev q = some p) (he : e ≠ q) :
    listInsert h q e = .ok ((h.connect e q).connect p e) := by
  have hprev : ((h.setPrev e (some p)).setNext e (some q)).prev q = some p := by
    rw [setNext_prev, setPrev_of_ne he.symm, hq]
  unfold listInsert
  simp only [before_ok hq, assert_true, ok_bind, hq, hprev, deref_some]
  rw [← link_eq p e e q he]
  rfl

theorem listRemove_eq (hp : h.prev e = some p) (hq : h.next e = some q) (hne : e ≠ p) :
    listRemove h e = .ok (h.connect p q, some q) := by
  have hnext : (h.setNext p (some q)).next e = some q := by
    rw [setNext_of_ne hne, hq]
  unfold listRemove
  simp only [interior_ok hp hq, assert_true, ok_bind, hp, hq, deref_some, hnext, setNext_prev,
    setPrev_next]
  rfl

/-- Both halves of `list_splice`: the range from `f` to `g` leaves its place between `p` and
`q`, then it comes before `b`. -/
theorem listSplice_eq {b r : α} (hfp : h.prev f = some p) (hfn : (h.next f).isSome)
    (hgp : (h.prev g).isSome) (hgn : h.next g = some q) (hqp : h.prev q = some g)
    (hb : (h.prev b).isSome) (hr : (h.connect p q).prev b = some r) (hfq : f ≠ q) (hgp' : g ≠ p)
    (hfb : f ≠ b) : listSplice h b f q = .ok (((h.connect p q).connect g b).connect r f) := by
  obtain ⟨b', hb'⟩ := isSome_iff_exists.mp hb
  obtain ⟨f', hf'⟩ := isSome_iff_exists.mp hfn
  obtain ⟨g', hg'⟩ := isSome_iff_exists.mp hgp
  have hnext : (h.setNext p (some q)).next g = some q := by
    rw [setNext_of_ne hgp', hgn]
  have hmoved : (((h.setNext p (some q)).setPrev q (some p)).setPrev f (some r)).prev b =
      some r := by
    rw [setPrev_of_ne hfb.symm]
    exact hr
  have hr' : ((h.setNext p (some q)).setPrev q (some p)).prev b = some r := hr
  unfold listSplice listPrev
  simp only [before_ok hb', before_ok hqp, interior_ok hfp hf', interior_ok hg' hgn, assert_true,
    ok_bind, if_neg hfq, hqp, deref_some, hfp, hgn, hnext, setNext_prev, hr', hmoved, pure_bind]
  rw [← link_eq r f g b hfb]
  rfl

theorem reverseLoop_spec {tail : α} (xs : List α) (hfuel : xs.length < fuel)
    (hchain : (xs ++ [tail]).IsChain fun a b => h.next a = some b) (hnodup : (xs ++ [tail]).Nodup) :
    ∃ h', reverseLoop tail fuel h (some (xs.headD tail)) = .ok h' ∧
      (∀ a ∈ xs, h'.prev a = h.next a ∧ h'.next a = h.prev a) ∧ ∀ a ∉ xs, Same h h' a := by
  -- the loop has exchanged the links of the elements behind it and none before it
  induction xs generalizing h fuel with
  | nil =>
    obtain ⟨fuel, rfl⟩ := Nat.exists_eq_succ_of_ne_zero (Nat.ne_of_gt hfuel)
    exact ⟨h, if_pos rfl, nofun, fun a _ => ⟨rfl, rfl⟩⟩
  | cons x xs ih =>
    obtain ⟨fuel, rfl⟩ := Nat.exists_eq_succ_of_ne_zero (Nat.ne_zero_of_lt hfuel)
    obtain ⟨hx, hrest⟩ := nodup_cons.mp hnodup
    have hxs : x ∉ xs := fun hmem => hx (mem_append_left _ hmem)
    have hxt : x ≠ tail := fun heq => hx (heq ▸ mem_concat_self)
    have hother : ∀ a, a ≠ x → Same h (swapLinks h x) a := by
      intro a ha
      exact ⟨setNext_of_ne ha, setPrev_of_ne ha⟩
    have hprev : (swapLinks h x).prev x = h.next x := setPrev_self ..
    have hnext : (swapLinks h x).next x = h.prev x := setNext_self ..
    have hfirst : h.next x = some (xs.headD tail) := by
      cases xs with
      | nil | cons y ys => exact (isChain_cons_cons.mp hchain).1
    have hchain' : (xs ++ [tail]).IsChain fun a b => (swapLinks h x).next a = some b := by
      refine List.IsChain.imp_of_mem_imp ?_ (List.IsChain.tail hchain)
      intro a b ha _ hab
      rw [(hother a (ne_of_mem_of_not_mem ha hx)).1]
      exact hab
    obtain ⟨h', hrun, hdone, hsame⟩ := ih (Nat.lt_of_succ_lt_succ hfuel) hchain' hrest
    refine ⟨h', ?_, ?_, ?_⟩
    · unfold reverseLoop
      rw [headD_cons, if_neg (fun heq => hxt (some.inj heq)), deref_some, ok_bind]
      dsimp only
      rw [hprev, hfirst]
      exact hrun
    · intro a ha
      cases mem_cons.mp ha with
      | inl hax =>
        obtain ⟨hn, hp⟩ := hsame x hxs
        rw [hax, hn, hp]
        exact ⟨hprev, hnext⟩
      | inr ha =>
        obtain ⟨hp, hn⟩ := hdone a ha
        obtain ⟨hn', hp'⟩ := hother a (ne_of_mem_of_not_mem ha hxs)
        exact ⟨hp.trans hn', hn.trans hp'⟩
    · intro a ha
      rw [mem_cons, not_or] at ha
      obtain ⟨hn, hp⟩ := hsame a ha.2
      obtain ⟨hn', hp'⟩ := hother a ha.1
      exact ⟨hn.trans hn', hp.trans hp'⟩

theorem represents_listInit (hne : l.head ≠ l.tail) :
    Represents (listInit h l) l [] where
  head_prev := by simp [listInit, setPrev, setNext, hne]
  tail_next := by simp [listInit, setPrev, setNext]
  seg := by simp [listInit, setPrev, setNext, Header.nodes, Seg, Linked, hne]
  nodup := by simpa [Header.nodes] using hne

theorem same_listInit (hhead : a ≠ l.head) (htail : a ≠ l.tail) :
    Same h (listInit h l) a := by
  simp [Same, listInit, setPrev, setNext, hhead, htail]

theorem Represents.listEmpty_eq (hr : Represents h l xs) :
    listEmpty h l = xs.isEmpty := by
  unfold listEmpty
  rw [hr.listBegin_eq]
  cases xs with
  | nil => exact decide_eq_true rfl
  | cons x xs =>
    have hne : x ≠ l.tail := by
      have hnodup := hr.nodup
      simp only [Header.nodes, nodup_append, mem_cons] at hnodup
      exact hnodup.2.2 x (.inr (.inl rfl)) l.tail (.inl rfl)
    exact decide_eq_false fun heq => hne (some.inj heq)

/-- **`list_reverse`** ends, and reverses the elements in place. -/
theorem listReverse_spec (hr : Represents h l xs) (hfuel : xs.length < fuel) :
    ∃ h', listReverse h fuel l = .ok h' ∧ Represents h' l xs.reverse ∧
      ∀ a ∉ l.nodes xs, Same h h' a := by
  unfold listReverse
  rw [hr.listEmpty_eq, hr.listBegin_eq]
  cases hxs : xs with
  | nil =>
    subst hxs
    exact ⟨h, if_pos rfl, hr, fun a _ => ⟨rfl, rfl⟩⟩
  | cons x xs' =>
    rw [← hxs, if_neg (by simp [hxs])]
    obtain ⟨hhead, htail⟩ : l.head ∉ xs ++ [l.tail] ∧ (xs ++ [l.tail]).Nodup :=
      nodup_cons.mp hr.nodup
    have hseg : h.Seg ([l.head] ++ xs ++ [l.tail]) := hr.seg
    have hchain : (xs ++ [l.tail]).IsChain fun a b => h.next a = some b :=
      List.IsChain.imp (fun a b hab => hab.1) (List.IsChain.tail hr.seg)
    obtain ⟨h1, hrun, hdone, hsame⟩ := reverseLoop_spec xs hfuel hchain htail
    -- `x` and `y` are the first and the last element
    obtain ⟨ys, y, hys⟩ : ∃ ys y, xs = ys ++ [y] :=
      ⟨_, _, (dropLast_concat_getLast (by simp [hxs])).symm⟩
    have hxmem : x ∈ xs := hxs ▸ mem_cons_self
    have hymem : y ∈ xs := hys ▸ mem_concat_self
    have hheadxs : l.head ∉ xs := fun hmem => hhead (mem_append_left _ hmem)
    have hne : l.head ≠ l.tail := fun heq => hhead (heq ▸ mem_concat_self)
    have htailxs : l.tail ∉ xs := fun hmem =>
      (nodup_append.mp htail).2.2 _ hmem _ (mem_singleton_self _) rfl
    have hfirst : h.Linked l.head x := by
      have hr' : Represents h l ([] ++ x :: xs') := hxs ▸ hr
      exact hr'.linked
    have hlast : h.Linked y l.tail := by
      have hr' : Represents h l ((ys ++ [y]) ++ []) := by
        rw [append_nil, ← hys]
        exact hr
      have hlinked := hr'.linked
      rwa [Header.left, getLastD_concat] at hlinked
    have hxne : x ≠ l.head := ne_of_mem_of_not_mem hxmem hheadxs
    have hyne : y ≠ l.tail := ne_of_mem_of_not_mem hymem htailxs
    refine ⟨(h1.connect x l.tail).connect l.head y, ?_, ⟨?_, ?_, ?_, ?_⟩, ?_⟩
    · have hhn : h1.next l.head = some x := (hsame l.head hheadxs).1.trans hfirst.1
      have htp : h1.prev l.tail = some y := (hsame l.tail htailxs).2.trans hlast.2
      have hxn : h1.next x = some l.head := (hdone x hxmem).2.trans hfirst.2
      have hyp : h1.prev y = some l.tail := (hdone y hymem).1.trans hlast.1
      unfold listEnd Header.right
      rw [hrun, ok_bind]
      simp only [hhn, htp, setPrev_next, setNext_self, deref_some, ok_bind, setPrev_self,
        setNext_prev, setNext_of_ne hxne, setPrev_of_ne hyne, hxn, hyp]
      apply congrArg Except.ok
      apply Links.ext
      · rfl
      · exact update_comm hxne.symm _ _ _
    · rw [connect_prev_of_ne (ne_of_mem_of_not_mem hymem hheadxs).symm, connect_prev_of_ne hne,
        (hsame l.head hheadxs).2, hr.head_prev]
    · rw [connect_next_of_ne hne.symm, connect_next_of_ne (ne_of_mem_of_not_mem hxmem htailxs).symm,
        (hsame l.tail htailxs).1, hr.tail_next]
    · have hrev : h1.Seg xs.reverse := seg_reverse hseg.left.right hdone
      have hfy : xs.reverse.head? = some y := by
        rw [hys, reverse_concat]
        rfl
      have hgx : xs.reverse.getLast? = some x := by
        rw [hxs, reverse_cons, List.getLast?_concat]
      have hends : (([] ++ [l.head]) ++ [l.tail]).Nodup := by simpa using hne
      have hdisj : xs.reverse.Disjoint (([] ++ [l.head]) ++ [l.tail]) := by
        intro a ha ha'
        grind
      exact seg_join (seg_singleton h1 l.head) hrev (seg_singleton h1 l.tail) hfy hgx
        (nodup_insert (nodup_reverse.mpr (nodup_append.mp htail).1) hends hdisj)
    · have hperm : (l.nodes xs.reverse).Perm (l.nodes xs) :=
        ((reverse_perm xs).cons l.head).append_right [l.tail]
      exact hperm.nodup_iff.mpr hr.nodup
    · intro a ha
      simp only [Header.mem_nodes, not_or] at ha
      obtain ⟨hah, haxs, hat⟩ := ha
      have hax : a ≠ x := fun heq => haxs (heq ▸ hxmem)
      have hay : a ≠ y := fun heq => haxs (heq ▸ hymem)
      obtain ⟨hn, hp⟩ := hsame a haxs
      obtain ⟨hn1, hp1⟩ := same_connect (h := h1) hax hat
      obtain ⟨hn2, hp2⟩ := same_connect (h := h1.connect x l.tail) hah hay
      exact ⟨hn2.trans (hn1.trans hn), hp2.trans (hp1.trans hp)⟩

end Specs

/-! ### Operations on sequences -/

/-- A call of one of the list functions.  List objects are named by an index. -/
inductive Op (ι α : Type)
  | insert (before elem : α)
  | splice (before first last : α)
  | pushFront (i : ι) (elem : α)
  | pushBack (i : ι) (elem : α)
  | remove (elem : α)
  | popFront (i : ι)
  | popBack (i : ι)
  | reverse (i : ι)

/-- What the call does to the heap, and the element it returns. -/
def exec [DecidableEq α] (fuel : ℕ) (ls : ι → Header α) (h : Links α) :
    Op ι α → Except Stop (Links α × Option α)
  | .insert before elem => return (← listInsert h before elem, none)
  | .splice before first last => return (← listSplice h before first last, none)
  | .pushFront i elem => return (← listPushFront h (ls i) elem, none)
  | .pushBack i elem => return (← listPushBack h (ls i) elem, none)
  | .remove elem => listRemove h elem
  | .popFront i => listPopFront h (ls i)
  | .popBack i => listPopBack h (ls i)
  | .reverse i => return (← listReverse h fuel (ls i), none)

/-- `Move ls seq op touched seq' r`: the call `op` turns the sequences `seq` into `seq'` and
returns `r`; only the lists in `touched` take part.  A position in a list is a way to write its
sequence as `us ++ vs`; the node `right vs` behind it may be the tail. -/
inductive Move [DecidableEq ι] (ls : ι → Header α) (seq : ι → List α) :
    Op ι α → List ι → (ι → List α) → Option α → Prop
  | insert {i : ι} {us vs : List α} {elem : α} (hi : seq i = us ++ vs)
      (hfresh : ∀ k, elem ∉ (ls k).nodes (seq k)) :
      Move ls seq (.insert ((ls i).right vs) elem) [i]
        (update seq i (us ++ elem :: vs)) none
  /-- The block `fs` of list `i` goes to a position of list `j`, which may be `i` without the
  block. -/
  | splice {i j : ι} {us fs vs us' vs' : List α} (hi : seq i = us ++ fs ++ vs)
      (hj : update seq i (us ++ vs) j = us' ++ vs') :
      Move ls seq
        (.splice ((ls j).right vs') ((ls i).right (fs ++ vs)) ((ls i).right vs)) [i, j]
        (update (update seq i (us ++ vs)) j (us' ++ fs ++ vs')) none
  | pushFront {i : ι} {elem : α} (hfresh : ∀ k, elem ∉ (ls k).nodes (seq k)) :
      Move ls seq (.pushFront i elem) [i] (update seq i (elem :: seq i)) none
  | pushBack {i : ι} {elem : α} (hfresh : ∀ k, elem ∉ (ls k).nodes (seq k)) :
      Move ls seq (.pushBack i elem) [i] (update seq i (seq i ++ [elem])) none
  | remove {i : ι} {us vs : List α} {elem : α} (hi : seq i = us ++ elem :: vs) :
      Move ls seq (.remove elem) [i] (update seq i (us ++ vs)) (some ((ls i).right vs))
  | popFront {i : ι} {vs : List α} {elem : α} (hi : seq i = elem :: vs) :
      Move ls seq (.popFront i) [i] (update seq i vs) (some elem)
  | popBack {i : ι} {us : List α} {elem : α} (hi : seq i = us ++ [elem]) :
      Move ls seq (.popBack i) [i] (update seq i us) (some elem)
  | reverse {i : ι} : Move ls seq (.reverse i) [i] (update seq i (seq i).reverse) none

variable {elem : α}

section Refinement

variable [DecidableEq ι] [DecidableEq α] {h : Links α} {ls : ι → Header α} {seq : ι → List α}
  {i : ι}

/-- The outcome of a call: the new heap holds `seq'`, and only lists in `touched` have changed. -/
def Holds (h : Links α) (ls : ι → Header α) (seq : ι → List α) (touched : List ι)
    (seq' : ι → List α) (h' : Links α) : Prop :=
  Lists h' ls seq' ∧
    ∀ k, k ∉ touched → seq' k = seq k ∧ ∀ a ∈ (ls k).nodes (seq k), Same h h' a

variable {us vs : List α}

theorem insert_holds (hl : Lists h ls seq) (hi : seq i = us ++ vs)
    (hfresh : ∀ k, elem ∉ (ls k).nodes (seq k)) :
    ∃ h', listInsert h ((ls i).right vs) elem = .ok h' ∧
      Holds h ls seq [i] (update seq i (us ++ elem :: vs)) h' := by
  have hr := hl.represents i
  rw [hi] at hr
  have hne : elem ≠ (ls i).right vs := by
    rintro rfl
    exact hfresh i (hi ▸ (ls i).right_mem us vs)
  have hdisj : ∀ k, [elem].Disjoint ((ls k).nodes (seq k)) := by
    intro k a ha hak
    rw [mem_singleton.mp ha] at hak
    exact hfresh k hak
  obtain ⟨hlists, hsame⟩ := hl.join hi (seg_singleton h elem) rfl rfl
    (nodup_singleton elem) hdisj
  rw [append_assoc] at hlists
  refine ⟨_, listInsert_eq hr.linked.2 hne, hlists, fun k hk => ?_⟩
  have hki : k ≠ i := fun heq => hk (heq ▸ mem_singleton_self i)
  exact ⟨update_of_ne hki _ _, hsame k hki⟩

theorem remove_holds (hl : Lists h ls seq) (hi : seq i = us ++ elem :: vs) :
    ∃ h', listRemove h elem = .ok (h', some ((ls i).right vs)) ∧
      Holds h ls seq [i] (update seq i (us ++ vs)) h' := by
  have hr := hl.represents i
  rw [hi] at hr
  have hprev := hr.linked
  have hnext : h.Linked elem ((ls i).right vs) := by
    have hr' : Represents h (ls i) ((us ++ [elem]) ++ vs) := by
      rwa [append_assoc]
    have hlinked := hr'.linked
    rwa [Header.left, getLastD_concat] at hlinked
  have hi' : seq i = us ++ [elem] ++ vs := by
    rw [hi, append_assoc]
    rfl
  obtain ⟨hlists, -, -, hsame⟩ := hl.cut hi'
  refine ⟨_, listRemove_eq hprev.2 hnext.1 hr.left_ne_right.symm, hlists, fun k hk => ?_⟩
  have hki : k ≠ i := fun heq => hk (heq ▸ mem_singleton_self i)
  exact ⟨update_of_ne hki _ _, hsame k hki⟩

theorem splice_holds {j : ι} {us' vs' : List α} (hl : Lists h ls seq)
    (hi : seq i = us ++ fs ++ vs) (hj : update seq i (us ++ vs) j = us' ++ vs') :
    ∃ h', listSplice h ((ls j).right vs') ((ls i).right (fs ++ vs)) ((ls i).right vs) = .ok h' ∧
      Holds h ls seq [i, j]
        (update (update seq i (us ++ vs)) j (us' ++ fs ++ vs')) h' := by
  have hr := hl.represents i
  rw [hi] at hr
  obtain ⟨hlists, hseg, hfresh, hsame⟩ := hl.cut hi
  have hrj := hlists.represents j
  rw [hj] at hrj
  have hother : ∀ {k}, k ∉ [i, j] → k ≠ i ∧ k ≠ j := by
    intro k hk
    simpa using hk
  cases hfs : fs with
  | nil =>
    -- an empty range: nothing moves
    subst hfs
    rw [append_nil] at hi
    have hseq : update seq i (us ++ vs) = seq := by
      rw [← hi, update_eq_self]
    rw [hseq] at hj
    have hb : (h.prev ((ls j).right vs')).isSome := by
      have hrj' := hl.represents j
      rw [hj] at hrj'
      rw [hrj'.linked.2]
      rfl
    obtain ⟨b, hb⟩ := isSome_iff_exists.mp hb
    refine ⟨h, ?_, ?_, ?_⟩
    · unfold listSplice
      rw [before_ok hb, assert_true, ok_bind, nil_append, if_pos rfl]
      rfl
    · rw [hseq, append_nil, ← hj, update_eq_self]
      exact hl
    · intro k hk
      rw [hseq, append_nil, ← hj, update_eq_self]
      exact ⟨rfl, fun a _ => ⟨rfl, rfl⟩⟩
  | cons f fs' =>
    obtain ⟨gs, g, hgs⟩ : ∃ gs g, fs = gs ++ [g] :=
      ⟨_, _, (dropLast_concat_getLast (by simp [hfs])).symm⟩
    have hf : fs.head? = some f := by rw [hfs]; rfl
    have hg : fs.getLast? = some g := by rw [hgs, List.getLast?_concat]
    have hfmem : f ∈ fs := hfs ▸ mem_cons_self
    have hgmem : g ∈ fs := hgs ▸ mem_concat_self
    have hnodup : fs.Nodup := by
      have hall := hr.nodup
      simp only [Header.nodes, nodup_append, nodup_cons] at hall
      exact hall.1.2.1.2.1
    -- the neighbours of the two ends of the range
    have hfprev : h.Linked ((ls i).left us) f := by
      have hr' : Represents h (ls i) (us ++ (f :: (fs' ++ vs))) := by
        rw [hfs, append_assoc] at hr
        exact hr
      exact hr'.linked
    have hgnext : h.Linked g ((ls i).right vs) := by
      have hlinked := hr.linked
      rwa [Header.left, hgs, ← append_assoc, getLastD_concat] at hlinked
    have hfnext : (h.next f).isSome := by
      have hr' : Represents h (ls i) ((us ++ [f]) ++ (fs' ++ vs)) := by
        rw [hfs] at hr
        simpa using hr
      have hlinked := hr'.linked
      rw [Header.left, getLastD_concat] at hlinked
      rw [hlinked.1]
      rfl
    have hgprev : (h.prev g).isSome := by
      have hr' : Represents h (ls i) ((us ++ gs) ++ (g :: vs)) := by
        rw [hgs] at hr
        simpa using hr
      have hlinked : h.Linked ((ls i).left (us ++ gs)) g := hr'.linked
      rw [hlinked.2]
      rfl
    have hmem1 := (ls i).left_mem us vs
    have hmem2 := (ls i).right_mem us vs
    have hfi := hfresh i
    rw [update_self] at hfi
    have hfj := hfresh j
    rw [hj] at hfj
    have hfq : f ≠ (ls i).right vs := fun heq => hfi hfmem (heq ▸ hmem2)
    have hgp : g ≠ (ls i).left us := fun heq => hfi hgmem (heq ▸ hmem1)
    have hfb : f ≠ (ls j).right vs' := fun heq => hfj hfmem (heq ▸ (ls j).right_mem us' vs')
    -- BEFORE has a predecessor already in the old heap
    have hb : (h.prev ((ls j).right vs')).isSome := by
      by_cases heq : (ls j).right vs' = (ls i).right vs
      · rw [heq, hgnext.2]
        rfl
      · have hprev := hrj.linked.2
        rw [connect_prev_of_ne heq] at hprev
        rw [hprev]
        rfl
    have hcode := listSplice_eq hfprev.2 hfnext hgprev hgnext.1 hgnext.2 hb hrj.linked.2 hfq hgp
      hfb
    obtain ⟨hlists', hsame'⟩ := hlists.join hj hseg hf hg hnodup hfresh
    rw [← hfs]
    refine ⟨_, ?_, hlists', ?_⟩
    · have hfirst : (ls i).right (fs ++ vs) = f := by rw [hfs]; rfl
      rw [hfirst]
      exact hcode
    · intro k hk
      obtain ⟨hki, hkj⟩ := hother hk
      refine ⟨?_, ?_⟩
      · rw [update_of_ne hkj, update_of_ne hki]
      · intro a ha
        obtain ⟨hn, hp⟩ := hsame k hki a ha
        have hak : a ∈ (ls k).nodes (update seq i (us ++ vs) k) := by
          rwa [update_of_ne hki]
        obtain ⟨hn', hp'⟩ := hsame' k hkj a hak
        exact ⟨hn'.trans hn, hp'.trans hp⟩

theorem reverse_holds (hl : Lists h ls seq) (hfuel : (seq i).length < fuel) :
    ∃ h', listReverse h fuel (ls i) = .ok h' ∧
      Holds h ls seq [i] (update seq i (seq i).reverse) h' := by
  obtain ⟨h', hrun, hrep, hsame⟩ := listReverse_spec (hl.represents i) hfuel
  have hmem : ∀ {a}, a ∈ (ls i).nodes (seq i).reverse ↔ a ∈ (ls i).nodes (seq i) := by
    intro a
    simp only [Header.mem_nodes, mem_reverse]
  have hother : ∀ k, k ≠ i → ∀ a ∈ (ls k).nodes (seq k), Same h h' a := by
    intro k hk a ha
    exact hsame a fun hai => hl.disjoint k i hk ha hai
  refine ⟨h', hrun, hl.change hrep ?_ hother, fun k hk => ?_⟩
  · intro k hk a ha hak
    exact hl.disjoint i k hk.symm (hmem.mp ha) hak
  · have hki : k ≠ i := fun heq => hk (heq ▸ mem_singleton_self i)
    exact ⟨update_of_ne hki _ _, hother k hki⟩

theorem popFront_holds (hl : Lists h ls seq) (hi : seq i = elem :: vs) :
    ∃ h', listPopFront h (ls i) = .ok (h', some elem) ∧
      Holds h ls seq [i] (update seq i vs) h' := by
  have hi' : seq i = [] ++ elem :: vs := hi
  obtain ⟨h', hrun, hh⟩ := remove_holds hl hi'
  have hr := hl.represents i
  have hfirst : h.next (ls i).head = some elem := by
    have hbegin := hr.listBegin_eq
    rwa [hi] at hbegin
  refine ⟨h', ?_, hh⟩
  unfold listPopFront listFront
  rw [hr.listEmpty_eq, hi, hfirst]
  simp only [isEmpty_cons, Bool.not_false, assert_true, ok_bind, pure_bind, deref_some, hrun]
  rfl

theorem popBack_holds (hl : Lists h ls seq) (hi : seq i = us ++ [elem]) :
    ∃ h', listPopBack h (ls i) = .ok (h', some elem) ∧
      Holds h ls seq [i] (update seq i us) h' := by
  obtain ⟨h', hrun, hh⟩ := remove_holds hl hi
  rw [append_nil] at hh
  have hr := hl.represents i
  have hlast : h.prev (ls i).tail = some elem := by
    have hr' := hr
    rw [hi, ← append_nil (us ++ [elem])] at hr'
    have hlinked := hr'.linked
    rw [Header.left, getLastD_concat] at hlinked
    exact hlinked.2
  have hempty : (us ++ [elem]).isEmpty = false := by simp
  refine ⟨h', ?_, hh⟩
  unfold listPopBack listBack
  rw [hr.listEmpty_eq, hi, hlast, hempty]
  simp only [Bool.not_false, assert_true, ok_bind, pure_bind, deref_some, hrun]
  rfl

/-- **The pointer code refines the operations on sequences.**  On any number of disjoint well
formed lists, a call returns what it should and leaves the lists well formed, with the sequences
the operation gives; the links of all other lists are untouched. -/
theorem exec_refines {fuel : ℕ} {op : Op ι α} {touched : List ι} {seq' : ι → List α}
    {r : Option α} (hl : Lists h ls seq) (hm : Move ls seq op touched seq' r)
    (hfuel : ∀ i, op = .reverse i → (seq i).length < fuel) :
    ∃ h', exec fuel ls h op = .ok (h', r) ∧ Lists h' ls seq' ∧
      ∀ k, k ∉ touched → seq' k = seq k ∧
        ∀ a ∈ (ls k).nodes (seq k), h'.next a = h.next a ∧ h'.prev a = h.prev a := by
  cases hm with
  | insert hi hfresh =>
    obtain ⟨h', hrun, hh⟩ := insert_holds hl hi hfresh
    refine ⟨h', ?_, hh⟩
    rw [exec, hrun]
    rfl
  | splice hi hj =>
    obtain ⟨h', hrun, hh⟩ := splice_holds hl hi hj
    refine ⟨h', ?_, hh⟩
    rw [exec, hrun]
    rfl
  | @pushFront i elem hfresh =>
    obtain ⟨h', hrun, hh⟩ := insert_holds hl (nil_append (seq i)).symm hfresh
    refine ⟨h', ?_, hh⟩
    rw [exec, listPushFront, (hl.represents i).listBegin_eq, deref_some, ok_bind, hrun]
    rfl
  | @pushBack i elem hfresh =>
    obtain ⟨h', hrun, hh⟩ := insert_holds hl (append_nil (seq i)).symm hfresh
    refine ⟨h', ?_, hh⟩
    have hend : listEnd (ls i) = (ls i).right [] := rfl
    rw [exec, listPushBack, hend, hrun]
    rfl
  | remove hi => exact remove_holds hl hi
  | popFront hi => exact popFront_holds hl hi
  | popBack hi => exact popBack_holds hl hi
  | @reverse i =>
    obtain ⟨h', hrun, hh⟩ := reverse_holds hl (hfuel i rfl)
    refine ⟨h', ?_, hh⟩
    rw [exec, hrun]
    rfl

end Refinement

/-! ### A single list -/

section Single

variable {h : Links α} {l : Header α}

theorem Represents.lists (hr : Represents h l xs) : Lists h (fun _ : Unit => l) fun _ => xs where
  represents := fun _ => hr
  disjoint := fun i j hij => absurd (Subsingleton.elim i j) hij

variable [DecidableEq α]

theorem Represents.pushBack (hr : Represents h l xs) (hfresh : elem ∉ l.nodes xs) :
    ∃ h', listPushBack h l elem = .ok h' ∧ Represents h' l (xs ++ [elem]) := by
  obtain ⟨h', hrun, hlists, -⟩ :=
    insert_holds (i := ()) hr.lists (append_nil xs).symm fun _ => hfresh
  exact ⟨h', hrun, hlists.represents ()⟩

theorem Represents.remove {us vs : List α} (hr : Represents h l (us ++ elem :: vs)) :
    ∃ h', listRemove h elem = .ok (h', some (l.right vs)) ∧ Represents h' l (us ++ vs) := by
  obtain ⟨h', hrun, hlists, -⟩ := remove_holds (i := ()) hr.lists rfl
  exact ⟨h', hrun, hlists.represents ()⟩

end Single

/-- Two lists: the nodes 2 and 3 between the sentinels 0 and 1, and the node 6 between 4 and 5. -/
def sampleLinks : Links ℕ where
  prev := fun a => [none, some 3, some 0, some 2, none, some 6, some 4].getD a none
  next := fun a => [some 2, none, some 3, some 1, some 6, none, some 5].getD a none

def sampleHeader : Bool → Header ℕ
  | false => ⟨0, 1⟩
  | true => ⟨4, 5⟩

def sampleSeq : Bool → List ℕ
  | false => [2, 3]
  | true => [6]

theorem sample_lists : Lists sampleLinks sampleHeader sampleSeq where
  represents := by
    intro b
    cases b with
    | false | true =>
      refine ⟨rfl, rfl, ?_, by decide⟩
      simp [Seg, Linked, Header.nodes, sampleHeader, sampleSeq, sampleLinks]
  disjoint := by
    intro i j hij
    rw [disjoint_left]
    revert i j
    decide

/-- The second element of the first list goes to the front of the second. -/
theorem exec_refines_sample : ∃ h',
    exec 0 sampleHeader sampleLinks (.splice 6 3 1) = .ok (h', none) ∧
    Represents h' ⟨0, 1⟩ [2] ∧ Represents h' ⟨4, 5⟩ [3, 6] := by
  have hm := @Move.splice Bool ℕ _ sampleHeader sampleSeq false true [2] [3] [] [] [6] rfl rfl
  have hfuel : ∀ i, Op.splice 6 3 1 = Op.reverse i → (sampleSeq i).length < 0 := nofun
  obtain ⟨h', hrun, hlists, -⟩ := exec_refines sample_lists hm hfuel
  exact ⟨h', hrun, hlists.represents false, hlists.represents true⟩

end Pintos.KernelList

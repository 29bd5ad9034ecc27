import Pintos.KernelList
import Mathlib.Order.Defs.Unbundled

/-! # Hash tables

`lib/kernel/hash.c`: a hash table is an array of `bucket_cnt` lists.  The model works on the links
of the list nodes: those inside the hash elements and the two sentinels of each bucket.

* **`Table`**: `struct hash` with the heap of list nodes.  The arrays that `malloc` has returned
  are numbered.
* **`rehash`**: moves every element to a new array, if `malloc` has memory for it.
* **`Held`**: the buckets of some arrays are disjoint well formed lists with given elements.
* **`Refines`**: the table stores the elements of a finite map on the classes of equal elements.
* **`hash_refines`**: any sequence of calls answers as the map does. -/

namespace Pintos.HashTable

open KernelList Function List

/-- A list node: part of a hash element, or a sentinel of a bucket of an array. -/
inductive Node (α : Type)
  | elem (e : α)
  | head (array index : ℕ)
  | tail (array index : ℕ)
deriving DecidableEq, Repr

/-- The list object of a bucket. -/
def bucket {α : Type} (p : ℕ × ℕ) : Header (Node α) := ⟨.head p.1 p.2, .tail p.1 p.2⟩

/-- `struct hash`.  `buckets` is the number of its array, `arrays` how many there have been. -/
structure Table (α : Type) where
  elemCnt : ℕ
  bucketCnt : ℕ
  buckets : ℕ
  arrays : ℕ
  links : Links (Node α)

section Code

variable {α : Type} [DecidableEq α]

/-- `list_elem_to_hash_elem`; a sentinel is not part of an element. -/
def entry : Node α → Except Stop α
  | .elem e => .ok e
  | _ => .error .nullPointer

def turnOffLeast1Bit (x : ℕ) : ℕ := x &&& (x - 1)

def isPowerOf2 (x : ℕ) : Bool := x != 0 && turnOffLeast1Bit x == 0

/-- `while (!is_power_of_2 (n)) n = turn_off_least_1bit (n)`. -/
def reduceLoop : ℕ → ℕ → Except Stop ℕ
  | 0, _ => .error .outOfFuel
  | fuel + 1, n => if isPowerOf2 n then .ok n else reduceLoop fuel (turnOffLeast1Bit n)

/-- The number of buckets `rehash` wants. -/
def newBucketCnt (elemCnt : ℕ) : Except Stop ℕ :=
  let n := elemCnt / 2
  let n := if n < 4 then 4 else n
  reduceLoop n n

variable (hash : α → UInt32) (less : α → α → Bool)

/-- The index of the bucket `find_bucket` returns. -/
def bucketIdx (bucketCnt : ℕ) (e : α) : ℕ := (hash e).toNat &&& (bucketCnt - 1)

def Table.findBucket (t : Table α) (e : α) : ℕ × ℕ :=
  (t.buckets, bucketIdx hash t.bucketCnt e)

/-- Neither is less than the other. -/
def equal (hi e : α) : Bool := !less hi e && !less e hi

/-- The loop of `find_elem`, from the node `i` on. -/
def findLoop (links : Links (Node α)) (last : Node α) (e : α) :
    ℕ → Option (Node α) → Except Stop (Option α)
  | 0, _ => .error .outOfFuel
  | fuel + 1, i =>
    if i = some last then .ok none
    else do
      let n ← deref i
      let hi ← entry n
      if equal less hi e then return some hi
      else findLoop links last e fuel (← listNext links n)

namespace Table

variable (t : Table α)

/-- `find_elem`.  The loops over a bucket get one round more than there are elements. -/
def findElem (p : ℕ × ℕ) (e : α) : Except Stop (Option α) :=
  findLoop less t.links (listEnd (bucket p)) e (t.elemCnt + 1) (listBegin t.links (bucket p))

def insertElem (p : ℕ × ℕ) (e : α) : Except Stop (Table α) := do
  let links ← listPushFront t.links (bucket p) (.elem e)
  return { t with elemCnt := t.elemCnt + 1, links := links }

def removeElem (e : α) : Except Stop (Table α) := do
  let r ← listRemove t.links (.elem e)
  return { t with elemCnt := t.elemCnt - 1, links := r.1 }

/-- The inner loop of `rehash`: the elements of an old bucket, from the node `elem` on, go to
their new buckets. -/
def moveLoop (last : Node α) : ℕ → Table α → Option (Node α) → Except Stop (Table α)
  | 0, _, _ => .error .outOfFuel
  | fuel + 1, t, elem =>
    if elem = some last then .ok t
    else do
      let n ← deref elem
      let e ← entry n
      let next ← listNext t.links n
      let r ← listRemove t.links n
      let links ← listPushFront r.1 (bucket (t.findBucket hash e)) n
      moveLoop last fuel { t with links := links } next

def moveBucket (t : Table α) (p : ℕ × ℕ) : Except Stop (Table α) :=
  moveLoop hash (listEnd (bucket p)) (t.elemCnt + 1) t (listBegin t.links (bucket p))

/-- The first `n` lists of an array are initialized. -/
def initBuckets (links : Links (Node α)) (array n : ℕ) : Links (Node α) :=
  (range n).foldl (fun links i => listInit links (bucket (array, i))) links

/-- `rehash`; `memory` is the answer of `malloc`. -/
def rehash (memory : Bool) : Except Stop (Table α) := do
  let n ← newBucketCnt t.elemCnt
  if n = t.bucketCnt then return t
  else if memory then
    let links := initBuckets t.links t.arrays n
    (range t.bucketCnt).foldlM (fun t' i => t'.moveBucket hash (t.buckets, i))
      { t with links := links, buckets := t.arrays, arrays := t.arrays + 1, bucketCnt := n }
  else return t

/-- Pops the elements of a bucket for the destructor. -/
def popLoop (p : ℕ × ℕ) : ℕ → Links (Node α) → Except Stop (Links (Node α) × List α)
  | 0, _ => .error .outOfFuel
  | fuel + 1, links =>
    if listEmpty links (bucket p) then .ok (links, [])
    else do
      let r ← listPopFront links (bucket p)
      let e ← entry (← deref r.2)
      let r ← popLoop p fuel r.1
      return (r.1, e :: r.2)

/-- The loop of `hash_clear` over the buckets, with the elements `destructor` is called for. -/
def clearLoop (destructor : Bool) :
    List ℕ → Links (Node α) → Except Stop (Links (Node α) × List α)
  | [], links => .ok (links, [])
  | i :: is, links => do
    let r ← (if destructor then popLoop (t.buckets, i) (t.elemCnt + 1) links
      else .ok (links, []))
    let s ← clearLoop destructor is (listInit r.1 (bucket (t.buckets, i)))
    return (s.1, r.2 ++ s.2)

def hashClear (destructor : Bool) : Except Stop (Table α × List α) := do
  let r ← t.clearLoop destructor (range t.bucketCnt) t.links
  return ({ t with links := r.1, elemCnt := 0 }, r.2)

def hashInsert (memory : Bool) (new : α) : Except Stop (Table α × Option α) := do
  let p := t.findBucket hash new
  let old ← t.findElem less p new
  let t ← (if old = none then t.insertElem p new else .ok t)
  let t ← t.rehash hash memory
  return (t, old)

def hashReplace (memory : Bool) (new : α) : Except Stop (Table α × Option α) := do
  let p := t.findBucket hash new
  let old ← t.findElem less p new
  let t ← (match old with
    | some old => t.removeElem old
    | none => .ok t)
  let t ← t.insertElem p new
  let t ← t.rehash hash memory
  return (t, old)

def hashFind (e : α) : Except Stop (Option α) := t.findElem less (t.findBucket hash e) e

def hashDelete (memory : Bool) (e : α) : Except Stop (Table α × Option α) := do
  let found ← t.findElem less (t.findBucket hash e) e
  match found with
  | some found =>
    let t ← t.removeElem found
    let t ← t.rehash hash memory
    return (t, some found)
  | none => return (t, none)

end Table

/-- `hash_init`, with memory for the first array. -/
def hashInit (links : Links (Node α)) : Except Stop (Table α) := do
  let r ← Table.hashClear ⟨0, 4, 0, 1, links⟩ false
  return r.1

end Code

/-! ### The buckets as lists -/

section Buckets

variable {α : Type} {links : Links (Node α)} {live : ℕ × ℕ → Prop} {xs : ℕ × ℕ → List α}
  {p : ℕ × ℕ}

/-- The buckets `live` are well formed lists with the elements `xs`, and no element is in two of
them. -/
def Held (links : Links (Node α)) (live : ℕ × ℕ → Prop) (xs : ℕ × ℕ → List α) : Prop :=
  Lists links (fun q : Subtype live => bucket q.1) fun q => (xs q.1).map .elem

variable {e : α}

theorem elem_mem_nodes {ys : List α} : Node.elem e ∈ (bucket p).nodes (ys.map .elem) ↔ e ∈ ys := by
  simp [Header.mem_nodes, bucket]

theorem head_mem_nodes {ys : List α} {a i : ℕ} (h : .head a i ∈ (bucket p).nodes (ys.map .elem)) :
    p = (a, i) := by
  simpa [Header.mem_nodes, bucket, Prod.ext_iff, eq_comm] using h

theorem tail_mem_nodes {ys : List α} {a i : ℕ} (h : .tail a i ∈ (bucket p).nodes (ys.map .elem)) :
    p = (a, i) := by
  simpa [Header.mem_nodes, bucket, Prod.ext_iff, eq_comm] using h

theorem Held.represents (h : Held links live xs) (hp : live p) :
    KernelList.Represents links (bucket p) ((xs p).map .elem) := Lists.represents h ⟨p, hp⟩

theorem Held.disjoint (h : Held links live xs) {q : ℕ × ℕ} (hp : live p) (hq : live q)
    (he : e ∈ xs p) (he' : e ∈ xs q) : p = q := by
  by_contra hne
  have hne' : (⟨p, hp⟩ : Subtype live) ≠ ⟨q, hq⟩ := fun heq => hne (congrArg Subtype.val heq)
  exact Lists.disjoint h _ _ hne' (elem_mem_nodes.mpr he) (elem_mem_nodes.mpr he')

theorem Held.nodup (h : Held links live xs) (hp : live p) : (xs p).Nodup := by
  have hnodup := (h.represents hp).nodup
  simp only [Header.nodes, nodup_append, nodup_cons] at hnodup
  exact hnodup.1.2.of_map _

theorem held_of (hrep : ∀ p, live p → KernelList.Represents links (bucket p) ((xs p).map .elem))
    (hdisj : ∀ p q, live p → live q → ∀ e ∈ xs p, e ∈ xs q → p = q) : Held links live xs where
  represents := fun q => hrep q.1 q.2
  disjoint := by
    rintro ⟨p, hp⟩ ⟨q, hq⟩ hne a ha ha'
    have hpq : p ≠ q := fun heq => hne (Subtype.ext heq)
    cases a with
    | elem e => exact hpq (hdisj p q hp hq e (elem_mem_nodes.mp ha) (elem_mem_nodes.mp ha'))
    | head a i => exact hpq ((head_mem_nodes ha).trans (head_mem_nodes ha').symm)
    | tail a i => exact hpq ((tail_mem_nodes ha).trans (tail_mem_nodes ha').symm)

theorem Held.mono (h : Held links live xs) {live' : ℕ × ℕ → Prop} {ys : ℕ × ℕ → List α}
    (hlive : ∀ q, live' q → live q ∧ ys q = xs q) : Held links live' ys := by
  apply held_of
  · intro q hq
    rw [(hlive q hq).2]
    exact h.represents (hlive q hq).1
  · intro q r hq hr e he he'
    rw [(hlive q hq).2] at he
    rw [(hlive r hr).2] at he'
    exact h.disjoint (hlive q hq).1 (hlive r hr).1 he he'

theorem update_elems (hp : live p) (ys : List α) :
    update (fun q : Subtype live => (xs q.1).map Node.elem) ⟨p, hp⟩ (ys.map .elem) =
      fun q => (update xs p ys q.1).map .elem := by
  funext q
  by_cases hq : q = ⟨p, hp⟩
  · subst hq
    simp
  · have hq' : q.1 ≠ p := fun heq => hq (Subtype.ext heq)
    rw [update_of_ne hq, update_of_ne hq']

theorem Held.listNext (h : Held links live xs) (hp : live p) {us vs : List α}
    (hxs : xs p = us ++ e :: vs) :
    listNext links (.elem e) = .ok (some ((bucket p).right (vs.map .elem))) := by
  have hr := h.represents hp
  rw [hxs, map_append, map_cons] at hr
  exact hr.listNext_eq

variable [DecidableEq α]

theorem Held.init (h : Held links live xs) (p : ℕ × ℕ) :
    Held (listInit links (bucket p)) (fun q => live q ∨ q = p) (update xs p []) := by
  apply held_of
  · intro q hq
    by_cases hqp : q = p
    · subst hqp
      rw [update_self]
      exact represents_listInit (by simp [bucket])
    · rw [update_of_ne hqp]
      apply (h.represents (hq.resolve_right hqp)).congr
      intro a ha
      apply same_listInit
      · rintro rfl
        exact hqp (head_mem_nodes ha)
      · rintro rfl
        exact hqp (tail_mem_nodes ha)
  · intro q r hq hr e he he'
    have hqp : q ≠ p := by
      rintro rfl
      simp at he
    have hrp : r ≠ p := by
      rintro rfl
      simp at he'
    rw [update_of_ne hqp] at he
    rw [update_of_ne hrp] at he'
    exact h.disjoint (hq.resolve_right hqp) (hr.resolve_right hrp) he he'

theorem Held.pushFront (h : Held links live xs) (hp : live p) (hfresh : ∀ q, live q → e ∉ xs q) :
    ∃ links', listPushFront links (bucket p) (.elem e) = .ok links' ∧
      Held links' live (update xs p (e :: xs p)) := by
  have hnil : (xs p).map Node.elem = [] ++ (xs p).map Node.elem := rfl
  obtain ⟨links', hrun, hheld, -⟩ := insert_holds (i := ⟨p, hp⟩) h hnil
    fun q hq => hfresh q.1 q.2 (elem_mem_nodes.mp hq)
  refine ⟨links', ?_, ?_⟩
  · rw [listPushFront, (h.represents hp).listBegin_eq]
    exact hrun
  · unfold Held
    rw [← update_elems hp]
    exact hheld

theorem Held.remove (h : Held links live xs) (hp : live p) {us vs : List α}
    (hxs : xs p = us ++ e :: vs) : ∃ links', listRemove links (.elem e) =
        .ok (links', some ((bucket p).right (vs.map .elem))) ∧
      Held links' live (update xs p (us ++ vs)) := by
  have hmap : (xs p).map Node.elem = us.map .elem ++ .elem e :: vs.map .elem := by
    rw [hxs, map_append, map_cons]
  obtain ⟨links', hrun, hheld, -⟩ := remove_holds (i := ⟨p, hp⟩) h hmap
  refine ⟨links', hrun, ?_⟩
  unfold Held
  rw [← update_elems hp, map_append]
  exact hheld

theorem Held.popFront (h : Held links live xs) (hp : live p) {ys : List α} (hxs : xs p = e :: ys) :
    ∃ links', listPopFront links (bucket p) = .ok (links', some (.elem e)) ∧
      Held links' live (update xs p ys) := by
  have hmap : (xs p).map Node.elem = .elem e :: ys.map .elem := by
    rw [hxs, map_cons]
  obtain ⟨links', hrun, hheld, -⟩ := popFront_holds (i := ⟨p, hp⟩) h hmap
  refine ⟨links', hrun, ?_⟩
  unfold Held
  rw [← update_elems hp]
  exact hheld

/-- The loop of `find_elem` is a search in the rest of the list. -/
theorem findLoop_spec (less : α → α → Bool) (h : Held links live xs) (hp : live p) (e : α)
    (vs : List α) : ∀ (us : List α) (fuel : ℕ), xs p = us ++ vs → vs.length < fuel →
      findLoop less links (listEnd (bucket p)) e fuel (some ((bucket p).right (vs.map .elem))) =
        .ok (vs.find? fun x => equal less x e) := by
  induction vs with
  | nil =>
    intro us fuel _ hfuel
    obtain ⟨fuel, rfl⟩ := Nat.exists_eq_add_of_lt hfuel
    exact if_pos rfl
  | cons x vs ih =>
    intro us fuel hxs hfuel
    obtain ⟨k, rfl⟩ := Nat.exists_eq_add_of_lt hfuel
    have hnext := h.listNext hp hxs
    have hrest := ih (us ++ [x]) _ (by rw [hxs, append_assoc]; rfl)
      (Nat.lt_add_right k vs.length.lt_succ_self)
    have hne : some (Node.elem x) ≠ some (listEnd (bucket p)) := by simp [listEnd, bucket]
    have hright : (bucket p).right ((x :: vs).map Node.elem) = .elem x := rfl
    rw [hright, findLoop, if_neg hne, deref_some, ok_bind, entry, ok_bind, find?_cons]
    cases hx : equal less x e with
    | true => rfl
    | false =>
      rw [if_neg Bool.false_ne_true, hnext, ok_bind]
      exact hrest

end Buckets

/-! ### The number of buckets -/

variable {x : ℕ}

theorem turnOffLeast1Bit_lt (hx : x ≠ 0) : turnOffLeast1Bit x < x := by
  have hle : x &&& (x - 1) ≤ x - 1 := Nat.and_le_right
  unfold turnOffLeast1Bit
  omega

theorem isPowerOf2_iff : isPowerOf2 x = true ↔ ∃ k, x = 2 ^ k := by
  by_cases hx : x = 0
  · subst hx
    simp only [isPowerOf2, bne_self_eq_false, Bool.false_and, Bool.false_eq_true, false_iff]
    rintro ⟨k, hk⟩
    exact (Nat.two_pow_pos k).ne hk
  · have := Nat.and_sub_one_eq_zero_iff_isPowerOfTwo hx
    simpa [isPowerOf2, turnOffLeast1Bit, hx, Nat.isPowerOfTwo] using this

/-- A number with more than one bit keeps its highest one: it does not fall below 4. -/
theorem four_le_turnOffLeast1Bit (hx : 4 ≤ x) (hpow : isPowerOf2 x = false) :
    4 ≤ turnOffLeast1Bit x := by
  have hquarter : (x &&& (x - 1)) / 4 = x / 4 &&& (x - 1) / 4 := by
    have h1 : (x &&& (x - 1)) / 2 / 2 = x / 2 / 2 &&& (x - 1) / 2 / 2 := by
      rw [Nat.and_div_two, Nat.and_div_two]
    simpa only [Nat.div_div_eq_div_mul] using h1
  unfold turnOffLeast1Bit
  suffices hne : x / 4 &&& (x - 1) / 4 ≠ 0 by omega
  intro hzero
  by_cases hmod : x % 4 = 0
  · -- a multiple of 4 is a power of 2 if its quarter is
    have hsub : (x - 1) / 4 = x / 4 - 1 := by omega
    rw [hsub, Nat.and_sub_one_eq_zero_iff_isPowerOfTwo (by omega)] at hzero
    obtain ⟨k, hk⟩ := hzero
    have : isPowerOf2 x = true := isPowerOf2_iff.mpr ⟨k + 2, by rw [pow_add]; omega⟩
    rw [hpow] at this
    cases this
  · have hsub : (x - 1) / 4 = x / 4 := by omega
    rw [hsub, Nat.and_self] at hzero
    omega

theorem reduceLoop_spec : ∀ (fuel x : ℕ), x ≤ fuel → 4 ≤ x →
    ∃ k, 2 ≤ k ∧ reduceLoop fuel x = .ok (2 ^ k) := by
  intro fuel
  induction fuel with
  | zero => exact fun x hx h4 => absurd (h4.trans hx) (by decide)
  | succ fuel ih =>
    intro x hx h4
    rw [reduceLoop]
    cases hpow : isPowerOf2 x with
    | true =>
      obtain ⟨k, rfl⟩ := isPowerOf2_iff.mp hpow
      refine ⟨k, ?_, rfl⟩
      exact (Nat.pow_le_pow_iff_right (by decide : 1 < 2)).mp h4
    | false =>
      have hlt : turnOffLeast1Bit x < x := turnOffLeast1Bit_lt (by omega)
      exact ih _ (by omega) (four_le_turnOffLeast1Bit h4 hpow)

/-- `rehash` always ends with a power of 2 that is at least 4. -/
theorem newBucketCnt_spec (n : ℕ) : ∃ k, 2 ≤ k ∧ newBucketCnt n = .ok (2 ^ k) := by
  apply reduceLoop_spec _ _ le_rfl
  split <;> omega

theorem bucketIdx_lt {α : Type} (hash : α → UInt32) (k : ℕ) (e : α) :
    bucketIdx hash (2 ^ k) e < 2 ^ k := by
  have hle : bucketIdx hash (2 ^ k) e ≤ 2 ^ k - 1 := Nat.and_le_right
  have hpos := Nat.two_pow_pos k
  omega

/-! ### Moving the elements -/

variable {i : ℕ}

section Rehash

variable {α : Type} (hash : α → UInt32)

/-- The buckets after the elements `ys` of the bucket `p` have gone to the `n` buckets of the
array `b`. -/
def scatter (n b : ℕ) (xs : ℕ × ℕ → List α) (p : ℕ × ℕ) (ys : List α) (q : ℕ × ℕ) : List α :=
  if q = p then []
  else if q.1 = b then (ys.filter fun e => bucketIdx hash n e = q.2).reverse ++ xs q
  else xs q

theorem scatter_cons (n b : ℕ) (xs : ℕ × ℕ → List α) (p : ℕ × ℕ) (e : α) (ys : List α) :
    scatter hash n b
        (update (update xs p ys) (b, bucketIdx hash n e)
          (e :: xs (b, bucketIdx hash n e))) p ys =
      scatter hash n b xs p (e :: ys) := by
  funext q
  unfold scatter
  by_cases hqp : q = p
  · rw [if_pos hqp, if_pos hqp]
  by_cases hqb : q.1 = b
  · rw [if_pos hqb, if_pos hqb]
    by_cases hidx : bucketIdx hash n e = q.2
    · have hq : q = (b, bucketIdx hash n e) := Prod.ext hqb hidx.symm
      rw [filter_cons_of_pos (by simpa using hidx), reverse_cons, append_assoc]
      subst hq
      rw [update_self]
      rfl
    · have hq : q ≠ (b, bucketIdx hash n e) := fun heq => hidx (congrArg Prod.snd heq).symm
      rw [filter_cons_of_neg (by simpa using hidx), update_of_ne hq,
        update_of_ne hqp]
  · have hq : q ≠ (b, bucketIdx hash n e) := fun heq => hqb (congrArg Prod.fst heq)
    rw [if_neg hqb, if_neg hqb, update_of_ne hq, update_of_ne hqp]

/-- The buckets of an array after some of them were initialized. -/
def emptied (b : ℕ) (is : List ℕ) (xs : ℕ × ℕ → List α) (q : ℕ × ℕ) : List α :=
  if q.1 = b ∧ q.2 ∈ is then [] else xs q

theorem emptied_cons (b i : ℕ) (is : List ℕ) (xs : ℕ × ℕ → List α) :
    emptied b is (update xs (b, i) []) = emptied b (i :: is) xs := by
  funext q
  unfold emptied
  by_cases hq : q = (b, i)
  · subst hq
    simp
  · rw [update_of_ne hq]
    have hiff : (q.1 = b ∧ q.2 ∈ i :: is) ↔ (q.1 = b ∧ q.2 ∈ is) := by
      grind
    simp only [hiff]

theorem live_cons {live : ℕ × ℕ → Prop} {b : ℕ} {is : List ℕ} {q : ℕ × ℕ}
    (hq : live q ∨ q.1 = b ∧ q.2 ∈ i :: is) : (live q ∨ q = (b, i)) ∨ q.1 = b ∧ q.2 ∈ is := by
  rcases hq with hq | ⟨hb, hi⟩
  · exact .inl (.inl hq)
  · rcases mem_cons.mp hi with hi | hi
    · exact .inl (.inr (Prod.ext hb hi))
    · exact .inr ⟨hb, hi⟩

variable [DecidableEq α]

/-- The inner loop of `rehash`: the list is taken apart while it is walked. -/
theorem moveLoop_spec {live : ℕ × ℕ → Prop} {p : ℕ × ℕ} (hp : live p) (ys : List α) :
    ∀ (fuel : ℕ) (t : Table α) (xs : ℕ × ℕ → List α), Held t.links live xs → xs p = ys →
      p.1 ≠ t.buckets → (∀ e, live (t.findBucket hash e)) → ys.length < fuel →
      ∃ links', Table.moveLoop hash (listEnd (bucket p)) fuel t
          (some ((bucket p).right (ys.map .elem))) = .ok { t with links := links' } ∧
        Held links' live (scatter hash t.bucketCnt t.buckets xs p ys) := by
  induction ys with
  | nil =>
    intro fuel t xs h hxs hpb _ hfuel
    obtain ⟨fuel, rfl⟩ := Nat.exists_eq_add_of_lt hfuel
    refine ⟨t.links, ?_, h.mono fun q hq => ⟨hq, ?_⟩⟩
    · exact if_pos rfl
    · unfold scatter
      by_cases hqp : q = p
      · rw [if_pos hqp, hqp, hxs]
      · rw [if_neg hqp]
        exact ite_self _
  | cons e ys ih =>
    intro fuel t xs h hxs hpb hlive hfuel
    obtain ⟨k, rfl⟩ := Nat.exists_eq_add_of_lt hfuel
    have hne : some (Node.elem e) ≠ some (listEnd (bucket p)) := by simp [listEnd, bucket]
    have hright : (bucket p).right ((e :: ys).map Node.elem) = .elem e := rfl
    have hxs' : xs p = [] ++ e :: ys := hxs
    have hnext := h.listNext hp hxs'
    obtain ⟨links1, hremove, h1⟩ := h.remove hp hxs'
    have hpush : t.findBucket hash e ≠ p := fun heq => hpb (congrArg Prod.fst heq).symm
    have hfresh : ∀ q, live q → e ∉ update xs p ys q := by
      intro q hq he
      by_cases hqp : q = p
      · subst hqp
        have hnodup := h.nodup hq
        rw [hxs] at hnodup
        rw [update_self] at he
        exact (nodup_cons.mp hnodup).1 he
      · rw [update_of_ne hqp] at he
        exact hqp (h.disjoint hq hp he (hxs ▸ mem_cons_self))
    obtain ⟨links2, hpushed, h2⟩ := h1.pushFront (hlive e) hfresh
    rw [update_of_ne hpush] at h2
    have hxs2 : update (update xs p ys) (t.findBucket hash e)
        (e :: xs (t.findBucket hash e)) p = ys := by
      rw [update_of_ne hpush.symm, update_self]
    obtain ⟨links', hrun, hheld⟩ := ih _ { t with links := links2 } _ h2 hxs2 hpb hlive
      (Nat.lt_add_right k ys.length.lt_succ_self)
    refine ⟨links', ?_, ?_⟩
    · rw [hright, Table.moveLoop, if_neg hne]
      simp only [deref_some, ok_bind, entry, hnext, hremove, hpushed]
      exact hrun
    · rw [← scatter_cons hash _ _ xs p e ys]
      exact hheld

/-- The elements of the first buckets of an array, one bucket after the other. -/
def gathered (is : List ℕ) (xs : ℕ → List α) : List α := is.flatMap xs

/-- The outer loop of `rehash`. -/
theorem moveBuckets_spec {live : ℕ × ℕ → Prop} (a : ℕ) (is : List ℕ) :
    ∀ (t : Table α) (xs : ℕ × ℕ → List α), Held t.links live xs → is.Nodup →
      (∀ i ∈ is, live (a, i) ∧ (xs (a, i)).length ≤ t.elemCnt) → a ≠ t.buckets →
      (∀ e, live (t.findBucket hash e)) →
      ∃ links' xs', is.foldlM (fun t' i => t'.moveBucket hash (a, i)) t =
          .ok { t with links := links' } ∧ Held links' live xs' ∧
        ∀ i, xs' (t.buckets, i) =
          ((gathered is fun i => xs (a, i)).filter fun e =>
            bucketIdx hash t.bucketCnt e = i).reverse ++ xs (t.buckets, i) := by
  induction is with
  | nil =>
    intro t xs h _ _ _ _
    exact ⟨t.links, xs, rfl, h, fun i => rfl⟩
  | cons i is ih =>
    intro t xs h hnodup his hab hlive
    obtain ⟨hi, hnodup⟩ := nodup_cons.mp hnodup
    obtain ⟨hlive0, hlen⟩ := his i mem_cons_self
    obtain ⟨links1, hmove, h1⟩ := moveLoop_spec hash hlive0 (xs (a, i)) (t.elemCnt + 1) t xs h rfl
      hab hlive (Nat.lt_succ_of_le hlen)
    -- the buckets still to come are as before
    have hother : ∀ j, j ≠ i →
        scatter hash t.bucketCnt t.buckets xs (a, i) (xs (a, i)) (a, j) = xs (a, j) := by
      intro j hj
      have hne : (a, j) ≠ (a, i) := fun heq => hj (congrArg Prod.snd heq)
      rw [scatter, if_neg hne, if_neg hab]
    have hgather : gathered is (fun j => scatter hash t.bucketCnt t.buckets xs (a, i) (xs (a, i))
        (a, j)) = gathered is fun j => xs (a, j) := by
      apply flatMap_congr
      intro j hj
      exact hother j fun heq => hi (heq ▸ hj)
    have his1 : ∀ j ∈ is, live (a, j) ∧
        (scatter hash t.bucketCnt t.buckets xs (a, i) (xs (a, i)) (a, j)).length ≤ t.elemCnt := by
      intro j hj
      rw [hother j fun heq => hi (heq ▸ hj)]
      exact his j (mem_cons_of_mem i hj)
    obtain ⟨links', xs', hrun, h', hnew⟩ :=
      ih { t with links := links1 } _ h1 hnodup his1 hab hlive
    refine ⟨links', xs', ?_, h', ?_⟩
    · rw [foldlM_cons, Table.moveBucket, (h.represents hlive0).listBegin_eq, hmove]
      exact hrun
    · intro j
      have hne : (t.buckets, j) ≠ (a, i) := fun heq => hab (congrArg Prod.fst heq).symm
      have hj := hnew j
      rw [hgather] at hj
      rw [hj, scatter, if_neg hne, if_pos rfl]
      simp only [gathered, flatMap_cons, filter_append, reverse_append,
        append_assoc]

theorem initBuckets_spec (b : ℕ) (is : List ℕ) :
    ∀ (links : Links (Node α)) (live : ℕ × ℕ → Prop) (xs : ℕ × ℕ → List α), Held links live xs →
      Held (is.foldl (fun links i => listInit links (bucket (b, i))) links)
        (fun q => live q ∨ q.1 = b ∧ q.2 ∈ is) (emptied b is xs) := by
  induction is with
  | nil =>
    intro links live xs h
    exact h.mono fun q hq => ⟨by simpa using hq, by simp [emptied]⟩
  | cons i is ih =>
    intro links live xs h
    have hrest := ih _ _ _ (h.init (b, i))
    rw [emptied_cons] at hrest
    exact hrest.mono fun q hq => ⟨live_cons hq, rfl⟩

theorem popLoop_spec {live : ℕ × ℕ → Prop} {p : ℕ × ℕ} (hp : live p) (ys : List α) :
    ∀ (fuel : ℕ) (links : Links (Node α)) (xs : ℕ × ℕ → List α), Held links live xs → xs p = ys →
      ys.length < fuel →
      ∃ links', Table.popLoop p fuel links = .ok (links', ys) ∧
        Held links' live (update xs p []) := by
  induction ys with
  | nil =>
    intro fuel links xs h hxs hfuel
    obtain ⟨fuel, rfl⟩ := Nat.exists_eq_add_of_lt hfuel
    have hempty := (h.represents hp).listEmpty_eq
    rw [hxs] at hempty
    refine ⟨links, ?_, ?_⟩
    · rw [Table.popLoop, hempty]
      rfl
    · rw [← hxs, update_eq_self]
      exact h
  | cons e ys ih =>
    intro fuel links xs h hxs hfuel
    obtain ⟨k, rfl⟩ := Nat.exists_eq_add_of_lt hfuel
    have hempty := (h.represents hp).listEmpty_eq
    rw [hxs] at hempty
    obtain ⟨links1, hpop, h1⟩ := h.popFront hp hxs
    obtain ⟨links', hrun, h'⟩ := ih ((e :: ys).length + k) links1 _ h1 (update_self ..)
      (Nat.lt_add_right k ys.length.lt_succ_self)
    rw [update_idem] at h'
    refine ⟨links', ?_, h'⟩
    rw [Table.popLoop, hempty, if_neg (by simp), hpop]
    simp only [ok_bind, deref_some, entry, hrun]
    rfl

/-- The loop of `hash_clear`: the destructor gets each element once. -/
theorem clearLoop_spec (t : Table α) (destructor : Bool) (is : List ℕ) :
    ∀ (links : Links (Node α)) (live : ℕ × ℕ → Prop) (xs : ℕ × ℕ → List α), Held links live xs →
      is.Nodup →
      (destructor = true → ∀ i ∈ is, live (t.buckets, i) ∧
        (xs (t.buckets, i)).length ≤ t.elemCnt) →
      ∃ links', t.clearLoop destructor is links =
          .ok (links', if destructor then gathered is fun i => xs (t.buckets, i) else []) ∧
        Held links' (fun q => live q ∨ q.1 = t.buckets ∧ q.2 ∈ is)
          (emptied t.buckets is xs) := by
  induction is with
  | nil =>
    intro links live xs h _ _
    refine ⟨links, ?_, h.mono fun q hq => ⟨by simpa using hq, by simp [emptied]⟩⟩
    cases destructor <;> rfl
  | cons i is ih =>
    intro links live xs h hnodup hdestr
    obtain ⟨hi, hnodup⟩ := nodup_cons.mp hnodup
    obtain ⟨links1, hpop, h1⟩ : ∃ links1, (if destructor then
        Table.popLoop (t.buckets, i) (t.elemCnt + 1) links else .ok (links, [])) =
          .ok (links1, if destructor then xs (t.buckets, i) else []) ∧
        Held (listInit links1 (bucket (t.buckets, i))) (fun q => live q ∨ q = (t.buckets, i))
          (update xs (t.buckets, i) []) := by
      cases hd : destructor with
      | false => exact ⟨links, rfl, h.init _⟩
      | true =>
        obtain ⟨hlive, hlen⟩ := hdestr hd i mem_cons_self
        obtain ⟨links1, hrun, h1⟩ := popLoop_spec hlive _ (t.elemCnt + 1) links xs h rfl
          (Nat.lt_succ_of_le hlen)
        refine ⟨links1, hrun, ?_⟩
        have h2 := h1.init (t.buckets, i)
        rwa [update_idem] at h2
    -- the buckets still to come are as before
    have hother : ∀ j ∈ is, update xs (t.buckets, i) [] (t.buckets, j) =
        xs (t.buckets, j) := by
      intro j hj
      apply update_of_ne
      intro heq
      obtain rfl : j = i := congrArg Prod.snd heq
      exact hi hj
    have hgather : gathered is (fun j => update xs (t.buckets, i) [] (t.buckets, j)) =
        gathered is fun j => xs (t.buckets, j) := flatMap_congr hother
    obtain ⟨links', hrun, h'⟩ := ih _ _ _ h1 hnodup fun hd j hj => by
      rw [hother j hj]
      obtain ⟨hlive, hlen⟩ := hdestr hd j (mem_cons_of_mem i hj)
      exact ⟨.inl hlive, hlen⟩
    rw [hgather] at hrun
    rw [emptied_cons] at h'
    refine ⟨links', ?_, h'.mono fun q hq => ⟨live_cons hq, rfl⟩⟩
    rw [Table.clearLoop, hpop]
    simp only [ok_bind, hrun]
    cases destructor <;> rfl

end Rehash

/-! ### The table as a set of elements -/

section Representation

variable {α : Type} {hash : α → UInt32} {t : Table α} {xs : ℕ → List α}

/-- The buckets of the table are the lists `xs`, and every element is where it belongs. -/
structure Rep (hash : α → UInt32) (t : Table α) (xs : ℕ → List α) : Prop where
  lists : Held t.links (fun q => q.1 = t.buckets ∧ q.2 < t.bucketCnt) fun q => xs q.2
  fresh : t.buckets < t.arrays
  power : ∃ k, 2 ≤ k ∧ t.bucketCnt = 2 ^ k
  placed : ∀ i < t.bucketCnt, ∀ e ∈ xs i, bucketIdx hash t.bucketCnt e = i
  count : t.elemCnt = (gathered (range t.bucketCnt) xs).length

/-- The elements of the table. -/
def Table.stored (t : Table α) (xs : ℕ → List α) : List α := gathered (range t.bucketCnt) xs

theorem mem_stored {e : α} : e ∈ t.stored xs ↔ ∃ i < t.bucketCnt, e ∈ xs i := by
  simp [Table.stored, gathered]

theorem Held.nodup_gathered {links : Links (Node α)} {b n : ℕ}
    (h : Held links (fun q => q.1 = b ∧ q.2 < n) fun q => xs q.2) :
    (gathered (range n) xs).Nodup := by
  apply nodup_flatMap.mpr
  refine ⟨fun i hi => h.nodup (p := (b, i)) ⟨rfl, mem_range.mp hi⟩, ?_⟩
  apply List.Nodup.pairwise_of_forall_ne nodup_range
  intro i hi j hj hne e he he'
  have heq := h.disjoint (p := (b, i)) (q := (b, j))
    ⟨rfl, mem_range.mp hi⟩ ⟨rfl, mem_range.mp hj⟩ he he'
  exact hne (congrArg Prod.snd heq)

theorem length_eq_of_mem_iff {l l' : List α} (hl : l.Nodup) (hl' : l'.Nodup)
    (h : ∀ e, e ∈ l ↔ e ∈ l') : l.length = l'.length :=
  ((perm_ext_iff_of_nodup hl hl').mpr h).length_eq

namespace Rep

theorem nodup_stored (h : Rep hash t xs) : (t.stored xs).Nodup := h.lists.nodup_gathered

theorem idx_lt (h : Rep hash t xs) (e : α) : bucketIdx hash t.bucketCnt e < t.bucketCnt := by
  obtain ⟨k, -, hk⟩ := h.power
  rw [hk]
  exact bucketIdx_lt hash k e

theorem mem_bucket_iff (h : Rep hash t xs) {e : α} :
    e ∈ xs (bucketIdx hash t.bucketCnt e) ↔ e ∈ t.stored xs := by
  rw [mem_stored]
  constructor
  · exact fun he => ⟨_, h.idx_lt e, he⟩
  · rintro ⟨i, hi, he⟩
    rwa [h.placed i hi e he]

theorem length_le (h : Rep hash t xs) (hi : i < t.bucketCnt) : (xs i).length ≤ t.elemCnt := by
  have hsub := (singleton_sublist.mpr (mem_range.mpr hi)).flatMap xs
  rw [h.count]
  simpa [gathered] using hsub.length_le

/-- One bucket of the table changes; `l` lists the elements then. -/
theorem change (h : Rep hash t xs) (hi : i < t.bucketCnt) {ys l : List α} {links' : Links (Node α)}
    (hheld : Held links' (fun q => q.1 = t.buckets ∧ q.2 < t.bucketCnt)
      (update (fun q : ℕ × ℕ => xs q.2) (t.buckets, i) ys))
    (hys : ∀ y ∈ ys, bucketIdx hash t.bucketCnt y = i) (hl : l.Nodup)
    (hmem : ∀ y, y ∈ l ↔ y ∈ ys ∨ y ∈ t.stored xs ∧ y ∉ xs i) :
    Rep hash { t with elemCnt := l.length, links := links' } (update xs i ys) ∧
      ∀ y, y ∈ t.stored (update xs i ys) ↔ y ∈ l := by
  have hheld' : Held links' (fun q => q.1 = t.buckets ∧ q.2 < t.bucketCnt)
      fun q => update xs i ys q.2 := by
    refine hheld.mono fun q hq => ⟨hq, ?_⟩
    by_cases hqi : q.2 = i
    · have hq' : q = (t.buckets, i) := Prod.ext hq.1 hqi
      rw [hq', update_self, update_self]
    · have hq' : q ≠ (t.buckets, i) := fun heq => hqi (congrArg Prod.snd heq)
      rw [update_of_ne hq', update_of_ne hqi]
  have hiff : ∀ y, y ∈ t.stored (update xs i ys) ↔ y ∈ l := by
    intro y
    rw [hmem, mem_stored, mem_stored]
    constructor
    · rintro ⟨j, hj, hy⟩
      by_cases hji : j = i
      · subst hji
        rw [update_self] at hy
        exact .inl hy
      · rw [update_of_ne hji] at hy
        refine .inr ⟨⟨j, hj, hy⟩, fun hyi => hji ?_⟩
        rw [← h.placed j hj y hy, h.placed i hi y hyi]
    · rintro (hy | ⟨⟨j, hj, hy⟩, hyi⟩)
      · exact ⟨i, hi, by rwa [update_self]⟩
      · have hji : j ≠ i := fun heq => hyi (heq ▸ hy)
        exact ⟨j, hj, by rwa [update_of_ne hji]⟩
  refine ⟨⟨hheld', h.fresh, h.power, ?_, ?_⟩, hiff⟩
  · intro j hj y hy
    by_cases hji : j = i
    · subst hji
      rw [update_self] at hy
      exact hys y hy
    · rw [update_of_ne hji] at hy
      exact h.placed j hj y hy
  · exact length_eq_of_mem_iff hl hheld'.nodup_gathered fun y => (hiff y).symm

variable [DecidableEq α]

theorem findElem (h : Rep hash t xs) (less : α → α → Bool) (e : α) :
    t.findElem less (t.findBucket hash e) e =
      .ok ((xs (bucketIdx hash t.bucketCnt e)).find? fun x => equal less x e) := by
  have hlive : (t.findBucket hash e).1 = t.buckets ∧ (t.findBucket hash e).2 < t.bucketCnt :=
    ⟨rfl, h.idx_lt e⟩
  unfold Table.findElem
  rw [(h.lists.represents hlive).listBegin_eq]
  exact findLoop_spec less h.lists hlive e _ [] _ rfl (Nat.lt_succ_of_le (h.length_le hlive.2))

theorem insertElem (h : Rep hash t xs) {e : α} (he : e ∉ t.stored xs) :
    ∃ t' xs', t.insertElem (t.findBucket hash e) e = .ok t' ∧ Rep hash t' xs' ∧
      ∀ y, y ∈ t'.stored xs' ↔ y = e ∨ y ∈ t.stored xs := by
  have hidx := h.idx_lt e
  obtain ⟨links', hpush, hheld⟩ := h.lists.pushFront (p := t.findBucket hash e) ⟨rfl, hidx⟩
    fun q hq hq' => he (mem_stored.mpr ⟨q.2, hq.2, hq'⟩)
  have hplaced : ∀ y ∈ e :: xs (bucketIdx hash t.bucketCnt e),
      bucketIdx hash t.bucketCnt y = bucketIdx hash t.bucketCnt e := by
    intro y hy
    rcases mem_cons.mp hy with rfl | hy
    · rfl
    · exact h.placed _ hidx y hy
  have hmem : ∀ y, y ∈ e :: t.stored xs ↔ y ∈ e :: xs (bucketIdx hash t.bucketCnt e) ∨
      y ∈ t.stored xs ∧ y ∉ xs (bucketIdx hash t.bucketCnt e) := by
    intro y
    have hsub : y ∈ xs (bucketIdx hash t.bucketCnt e) → y ∈ t.stored xs :=
      fun hy => mem_stored.mpr ⟨_, hidx, hy⟩
    simp only [mem_cons]
    tauto
  obtain ⟨hrep, hstored⟩ := h.change hidx hheld hplaced
    (nodup_cons.mpr ⟨he, h.nodup_stored⟩) hmem
  refine ⟨_, _, ?_, hrep, fun y => (hstored y).trans mem_cons⟩
  rw [Table.insertElem, hpush, length_cons, h.count]
  rfl

theorem removeElem (h : Rep hash t xs) {e : α} (he : e ∈ t.stored xs) :
    ∃ t' xs', t.removeElem e = .ok t' ∧ Rep hash t' xs' ∧
      t'.findBucket hash = t.findBucket hash ∧
      ∀ y, y ∈ t'.stored xs' ↔ y ∈ t.stored xs ∧ y ≠ e := by
  obtain ⟨i, hi, hei⟩ := mem_stored.mp he
  obtain ⟨us, vs, hxs⟩ := append_of_mem hei
  obtain ⟨links', hremove, hheld⟩ := h.lists.remove (p := (t.buckets, i)) ⟨rfl, hi⟩ hxs
  have hnodup : (us ++ e :: vs).Nodup := hxs ▸ h.lists.nodup (p := (t.buckets, i)) ⟨rfl, hi⟩
  have hbucket : ∀ y, y ∈ us ++ vs ↔ y ∈ xs i ∧ y ≠ e := by
    intro y
    have hnot := (nodup_middle.mp hnodup).notMem
    grind
  have hplaced : ∀ y ∈ us ++ vs, bucketIdx hash t.bucketCnt y = i :=
    fun y hy => h.placed i hi y ((hbucket y).mp hy).1
  have hmem : ∀ y, y ∈ (t.stored xs).erase e ↔ y ∈ us ++ vs ∨ y ∈ t.stored xs ∧ y ∉ xs i := by
    intro y
    rw [hbucket, h.nodup_stored.mem_erase_iff]
    have hsub : y ∈ xs i → y ∈ t.stored xs := fun hy => mem_stored.mpr ⟨_, hi, hy⟩
    have hye : y = e → y ∈ xs i := fun heq => heq ▸ hei
    tauto
  obtain ⟨hrep, hstored⟩ := h.change hi hheld hplaced (h.nodup_stored.erase e) hmem
  refine ⟨_, _, ?_, hrep, rfl, fun y => ?_⟩
  · rw [Table.removeElem, hremove, length_erase_of_mem he, h.count]
    rfl
  · rw [← and_comm, ← h.nodup_stored.mem_erase_iff]
    exact hstored y

/-- **`rehash`** keeps the elements, whether there is memory or not. -/
theorem rehash (h : Rep hash t xs) (memory : Bool) :
    ∃ t' xs', t.rehash hash memory = .ok t' ∧ Rep hash t' xs' ∧
      ∀ y, y ∈ t'.stored xs' ↔ y ∈ t.stored xs := by
  obtain ⟨k, hk, hcnt⟩ := newBucketCnt_spec t.elemCnt
  unfold Table.rehash
  rw [hcnt, ok_bind]
  by_cases hsame : 2 ^ k = t.bucketCnt
  · exact ⟨t, xs, if_pos hsame, h, fun y => Iff.rfl⟩
  rw [if_neg hsame]
  cases memory with
  | false => exact ⟨t, xs, rfl, h, fun y => Iff.rfl⟩
  | true =>
    have hab : t.buckets ≠ t.arrays := h.fresh.ne
    have hinit := initBuckets_spec t.arrays (range (2 ^ k)) _ _ _ h.lists
    have hold : ∀ i, emptied t.arrays (range (2 ^ k)) (fun q => xs q.2) (t.buckets, i) =
        xs i := by
      intro i
      simp [emptied, hab]
    have hnew : ∀ i < 2 ^ k,
        emptied t.arrays (range (2 ^ k)) (fun q => xs q.2) (t.arrays, i) = [] := by
      intro i hi
      simp [emptied, hi]
    obtain ⟨links', xs', hrun, hheld, hxs'⟩ := moveBuckets_spec hash t.buckets
      (range t.bucketCnt)
      { t with
        links := Table.initBuckets t.links t.arrays (2 ^ k), buckets := t.arrays
        arrays := t.arrays + 1, bucketCnt := 2 ^ k } _ hinit nodup_range
      (fun i hi => ⟨.inl ⟨rfl, mem_range.mp hi⟩, by
        rw [hold]; exact h.length_le (mem_range.mp hi)⟩) hab
      (fun e => .inr ⟨rfl, mem_range.mpr (bucketIdx_lt hash k e)⟩)
    simp only [hold] at hxs'
    have hbucket : ∀ i < 2 ^ k, ∀ y, y ∈ xs' (t.arrays, i) ↔
        y ∈ t.stored xs ∧ bucketIdx hash (2 ^ k) y = i := by
      intro i hi y
      rw [hxs' i, hnew i hi, append_nil, mem_reverse, mem_filter,
        decide_eq_true_iff]
      rfl
    have hheld' : Held links' (fun q => q.1 = t.arrays ∧ q.2 < 2 ^ k)
        fun q => xs' (t.arrays, q.2) := by
      refine hheld.mono fun q hq => ⟨.inr ⟨hq.1, mem_range.mpr hq.2⟩, ?_⟩
      rw [← hq.1]
    have hmem : ∀ y, y ∈ gathered (range (2 ^ k)) (fun i => xs' (t.arrays, i)) ↔
        y ∈ t.stored xs := by
      intro y
      simp only [gathered, mem_flatMap, mem_range]
      constructor
      · rintro ⟨i, hi, hy⟩
        exact ((hbucket i hi y).mp hy).1
      · exact fun hy => ⟨_, bucketIdx_lt hash k y,
          (hbucket _ (bucketIdx_lt hash k y) y).mpr ⟨hy, rfl⟩⟩
    refine ⟨_, fun i => xs' (t.arrays, i), hrun, ?_, hmem⟩
    refine ⟨hheld', Nat.lt_succ_self _, ⟨k, hk, rfl⟩, ?_, ?_⟩
    · intro i hi y hy
      exact ((hbucket i hi y).mp hy).2
    · rw [h.count]
      exact length_eq_of_mem_iff h.nodup_stored hheld'.nodup_gathered fun y => (hmem y).symm

theorem hashClear (h : Rep hash t xs) (destructor : Bool) :
    ∃ t', t.hashClear destructor = .ok (t', if destructor then t.stored xs else []) ∧
      Rep hash t' fun _ => [] := by
  obtain ⟨links', hrun, hheld⟩ := clearLoop_spec t destructor (range t.bucketCnt) _ _ _ h.lists
    nodup_range fun _ i hi =>
      ⟨⟨rfl, mem_range.mp hi⟩, h.length_le (mem_range.mp hi)⟩
  refine ⟨{ t with links := links', elemCnt := 0 }, ?_, ?_⟩
  · rw [Table.hashClear, hrun]
    rfl
  · refine ⟨hheld.mono fun q hq => ⟨.inl hq, ?_⟩, h.fresh, h.power, nofun, ?_⟩
    · simp [emptied, hq]
    · simp [gathered]

end Rep

/-- A new table is empty. -/
theorem rep_hashInit [DecidableEq α] (hash : α → UInt32) (links : Links (Node α)) :
    ∃ t, hashInit links = .ok t ∧ Rep hash t fun _ => [] := by
  have hnone : Held links (fun _ => False) fun _ => [] :=
    held_of (fun _ hp => hp.elim) fun _ _ hp => hp.elim
  obtain ⟨links', hrun, hheld⟩ := clearLoop_spec ⟨0, 4, 0, 1, links⟩ false (range 4) _ _ _
    hnone nodup_range nofun
  refine ⟨⟨0, 4, 0, 1, links'⟩, ?_, ?_⟩
  · rw [hashInit, Table.hashClear, hrun]
    rfl
  · refine ⟨hheld.mono fun q hq => ⟨.inr ⟨hq.1, mem_range.mpr hq.2⟩, ?_⟩, Nat.one_pos,
      ⟨2, le_rfl, rfl⟩, nofun, ?_⟩
    · simp [emptied]
    · simp [gathered]

end Representation

/-! ### The table as a finite map -/

section Map

variable {α : Type} (less : α → α → Bool) [IsStrictWeakOrder α fun a b => less a b = true]

/-- Elements that are equal under `less`. -/
def classes : Setoid α where
  r a b := equal less a b = true
  iseqv := by
    refine ⟨?_, ?_, ?_⟩
    · intro a
      have := irrefl_of (fun a b => less a b = true) a
      simpa [equal] using this
    · intro a b hab
      simp only [equal, Bool.and_eq_true] at hab ⊢
      exact hab.symm
    · intro a b c hab hbc
      have htrans : ¬ less a b = true ∧ ¬ less b a = true → ¬ less b c = true ∧ ¬ less c b = true →
          ¬ less a c = true ∧ ¬ less c a = true :=
        @IsStrictWeakOrder.incomp_trans α (fun a b => less a b = true) _ a b c
      simp only [equal, Bool.and_eq_true, Bool.not_eq_true', ← Bool.not_eq_true] at hab hbc ⊢
      exact htrans hab hbc

/-- A map from classes of equal elements to elements. -/
abbrev Map : Type := Quotient (classes less) → Option α

/-- The class of an element. -/
def cls (e : α) : Quotient (classes less) := Quotient.mk _ e

theorem cls_eq_iff {a b : α} : cls less a = cls less b ↔ equal less a b = true := Quotient.eq

variable {less}

open Classical in
noncomputable def Map.set (m : Map less) (c : Quotient (classes less)) (e : Option α) : Map less :=
  update m c e

theorem Map.set_self (m : Map less) (c : Quotient (classes less)) (e : Option α) :
    m.set c e c = e := by simp [Map.set]

variable {c : Quotient (classes less)}

theorem Map.set_of_ne (m : Map less) {c' : Quotient (classes less)} (e : Option α) (h : c' ≠ c) :
    m.set c e c' = m c' := by simp [Map.set, h]

/-- The map has exactly the elements `S`, each at its class. -/
def Map.Has (m : Map less) (S : α → Prop) : Prop := ∀ c x, m c = some x ↔ S x ∧ cls less x = c

namespace Map.Has

variable {m : Map less} {S S' : α → Prop}

theorem set_some (h : m.Has S) {e : α} (hS : ∀ x, S' x ↔ x = e ∨ S x ∧ cls less x ≠ cls less e) :
    (m.set (cls less e) (some e)).Has S' := by
  intro c x
  by_cases hc : c = cls less e
  · subst hc
    rw [Map.set_self]
    grind
  · rw [Map.set_of_ne m _ hc, h c x]
    grind

theorem set_none (h : m.Has S) (hS : ∀ x, S' x ↔ S x ∧ cls less x ≠ c) : (m.set c none).Has S' := by
  intro c' x
  by_cases hc : c' = c
  · subst hc
    rw [Map.set_self]
    grind
  · rw [Map.set_of_ne m _ hc, h c' x]
    grind

theorem congr (h : m.Has S) (hS : ∀ x, S' x ↔ S x) : m.Has S' := by
  intro c x
  rw [hS]
  exact h c x

theorem not_mem_of_none (h : m.Has S) {x : α} (hm : m c = none) (hx : S x) : cls less x ≠ c := by
  intro hclass
  have hmx := (h c x).mpr ⟨hx, hclass⟩
  rw [hm] at hmx
  cases hmx

theorem ne_iff_of_some (h : m.Has S) {x old : α} (hm : m c = some old) (hx : S x) :
    x ≠ old ↔ cls less x ≠ c := by
  refine not_congr ⟨?_, ?_⟩
  · rintro rfl
    exact ((h c x).mp hm).2
  · intro hclass
    have hmx := (h c x).mpr ⟨hx, hclass⟩
    exact Option.some.inj (hmx.symm.trans hm)

end Map.Has

/-- A call, with the answer of `malloc` if it comes to `rehash`. -/
inductive Call (α : Type)
  | insert (new : α) (memory : Bool)
  | replace (new : α) (memory : Bool)
  | delete (e : α) (memory : Bool)
  | find (e : α)
  | clear (destructor : Bool)

/-- What a call returns, or the elements its destructor is called for. -/
inductive Reply (α : Type)
  | elem (e : Option α)
  | destroyed (es : List α)
deriving DecidableEq, Repr

/-- The calls on a finite map. -/
inductive Answers (m : Map less) : Call α → Reply α → Map less → Prop
  /-- An equal element is returned and stays. -/
  | kept {new old : α} {memory : Bool} (h : m (cls less new) = some old) :
      Answers m (.insert new memory) (.elem (some old)) m
  | inserted {new : α} {memory : Bool} (h : m (cls less new) = none) :
      Answers m (.insert new memory) (.elem none) (m.set (cls less new) (some new))
  | replaced {new : α} {memory : Bool} :
      Answers m (.replace new memory) (.elem (m (cls less new))) (m.set (cls less new) (some new))
  | deleted {e : α} {memory : Bool} :
      Answers m (.delete e memory) (.elem (m (cls less e))) (m.set (cls less e) none)
  | found {e : α} : Answers m (.find e) (.elem (m (cls less e))) m
  | dropped : Answers m (.clear false) (.destroyed []) fun _ => none
  /-- The destructor is called once for each element. -/
  | cleared {es : List α} (hnodup : es.Nodup) (hmem : ∀ x, x ∈ es ↔ m (cls less x) = some x) :
      Answers m (.clear true) (.destroyed es) fun _ => none

/-- A sequence of calls on a finite map. -/
inductive AnswersAll : Map less → List (Call α) → List (Reply α) → Map less → Prop
  | nil {m : Map less} : AnswersAll m [] [] m
  | cons {m m' m'' : Map less} {c : Call α} {r : Reply α} {cs : List (Call α)}
      {rs : List (Reply α)} (h : Answers m c r m') (hs : AnswersAll m' cs rs m'') :
      AnswersAll m (c :: cs) (r :: rs) m''

end Map

section Runs

variable {α : Type} [DecidableEq α] (hash : α → UInt32) (less : α → α → Bool)

def exec (t : Table α) : Call α → Except Stop (Table α × Reply α)
  | .insert new memory => do
    let r ← t.hashInsert hash less memory new
    return (r.1, .elem r.2)
  | .replace new memory => do
    let r ← t.hashReplace hash less memory new
    return (r.1, .elem r.2)
  | .delete e memory => do
    let r ← t.hashDelete hash less memory e
    return (r.1, .elem r.2)
  | .find e => do
    let r ← t.hashFind hash less e
    return (t, .elem r)
  | .clear destructor => do
    let r ← t.hashClear destructor
    return (r.1, .destroyed r.2)

def run : Table α → List (Call α) → Except Stop (Table α × List (Reply α))
  | t, [] => .ok (t, [])
  | t, c :: cs => do
    let r ← exec hash less t c
    let rs ← run r.1 cs
    return (rs.1, r.2 :: rs.2)

variable {hash less} [IsStrictWeakOrder α fun a b => less a b = true] {t : Table α}
  {xs : ℕ → List α} {m : Map less}

/-- The table stores the elements of the map. -/
structure Refines (hash : α → UInt32) (t : Table α) (xs : ℕ → List α) (m : Map less) : Prop where
  rep : Rep hash t xs
  has : m.Has fun x => x ∈ t.stored xs

namespace Refines

omit [DecidableEq α] in
theorem distinct (h : Refines hash t xs m) :
    (t.stored xs).Pairwise fun a b => equal less a b = false := by
  apply List.Nodup.pairwise_of_forall_ne h.rep.nodup_stored
  intro a ha b hb hne
  by_contra hab
  rw [Bool.not_eq_false, ← cls_eq_iff] at hab
  have hma := (h.has (cls less a) a).mpr ⟨ha, rfl⟩
  have hmb := (h.has (cls less a) b).mpr ⟨hb, hab.symm⟩
  exact hne (Option.some.inj (hma.symm.trans hmb))

theorem clear (h : Refines hash t xs m) (destructor : Bool) :
    ∃ t' xs' m' es, t.hashClear destructor = .ok (t', es) ∧
      Answers m (.clear destructor) (.destroyed es) m' ∧ Refines hash t' xs' m' := by
  obtain ⟨t', hrun, hrep⟩ := h.rep.hashClear destructor
  have hempty : Map.Has (fun _ => none : Map less) fun x => x ∈ t'.stored fun _ => [] := by
    intro c x
    simp [mem_stored]
  refine ⟨t', _, fun _ => none, _, hrun, ?_, hrep, hempty⟩
  cases destructor with
  | false => exact .dropped
  | true =>
    refine .cleared h.rep.nodup_stored fun x => ?_
    rw [h.has]
    exact (and_iff_left rfl).symm

variable (hcompat : ∀ a b, equal less a b = true → hash a = hash b)
include hcompat

theorem findElem (h : Refines hash t xs m) (e : α) :
    t.findElem less (t.findBucket hash e) e = .ok (m (cls less e)) := by
  rw [h.rep.findElem]
  congr 1
  cases hm : m (cls less e) with
  | none =>
    apply find?_eq_none.mpr
    intro x hx hxe
    have hstored : x ∈ t.stored xs := mem_stored.mpr ⟨_, h.rep.idx_lt e, hx⟩
    have hmx := (h.has (cls less e) x).mpr ⟨hstored, (cls_eq_iff less).mpr hxe⟩
    rw [hm] at hmx
    cases hmx
  | some x =>
    obtain ⟨hstored, hclass⟩ := (h.has _ x).mp hm
    have hxe : equal less x e = true := (cls_eq_iff less).mp hclass
    have hidx : bucketIdx hash t.bucketCnt x = bucketIdx hash t.bucketCnt e := by
      rw [bucketIdx, bucketIdx, hcompat x e hxe]
    have hx : x ∈ xs (bucketIdx hash t.bucketCnt e) := by
      rw [← hidx]
      exact h.rep.mem_bucket_iff.mpr hstored
    cases hfind : (xs (bucketIdx hash t.bucketCnt e)).find? fun x => equal less x e with
    | none => exact absurd hxe (by simpa using find?_eq_none.mp hfind x hx)
    | some y =>
      have hye : equal less y e = true := by simpa using find?_some hfind
      have hy : y ∈ t.stored xs :=
        mem_stored.mpr ⟨_, h.rep.idx_lt e, mem_of_find?_eq_some hfind⟩
      rw [← (h.has _ y).mpr ⟨hy, (cls_eq_iff less).mpr hye⟩, hm]

theorem insert (h : Refines hash t xs m) (memory : Bool) (new : α) :
    ∃ t' xs' m', t.hashInsert hash less memory new = .ok (t', m (cls less new)) ∧
      Answers m (.insert new memory) (.elem (m (cls less new))) m' ∧ Refines hash t' xs' m' := by
  unfold Table.hashInsert
  dsimp only
  rw [h.findElem hcompat, ok_bind]
  cases hm : m (cls less new) with
  | some old =>
    obtain ⟨t', xs', hrehash, hrep, hstored⟩ := h.rep.rehash memory
    refine ⟨t', xs', m, ?_, .kept hm, hrep, h.has.congr hstored⟩
    rw [if_neg nofun, ok_bind, hrehash]
    rfl
  | none =>
    have hnew := fun x => h.has.not_mem_of_none (x := x) hm
    obtain ⟨t1, xs1, hinsert, hrep1, hstored1⟩ :=
      h.rep.insertElem fun hmem => hnew new hmem rfl
    obtain ⟨t', xs', hrehash, hrep, hstored⟩ := hrep1.rehash memory
    refine ⟨t', xs', _, ?_, .inserted hm, hrep, h.has.set_some ?_⟩
    · rw [if_pos rfl, hinsert, ok_bind, hrehash]
      rfl
    · intro x
      rw [hstored, hstored1]
      tauto

theorem replace (h : Refines hash t xs m) (memory : Bool) (new : α) :
    ∃ t' xs' m', t.hashReplace hash less memory new = .ok (t', m (cls less new)) ∧
      Answers m (.replace new memory) (.elem (m (cls less new))) m' ∧ Refines hash t' xs' m' := by
  -- after `remove_elem` no element of the class is left
  obtain ⟨t1, xs1, hremove, hrep1, hbucket, hstored1⟩ : ∃ t1 xs1,
      (match m (cls less new) with
        | some old => t.removeElem old
        | none => .ok t) = .ok t1 ∧ Rep hash t1 xs1 ∧
      t1.findBucket hash = t.findBucket hash ∧
      ∀ x, x ∈ t1.stored xs1 ↔ x ∈ t.stored xs ∧ cls less x ≠ cls less new := by
    cases hm : m (cls less new) with
    | none =>
      exact ⟨t, xs, rfl, h.rep, rfl,
        fun x => (and_iff_left_of_imp (h.has.not_mem_of_none hm)).symm⟩
    | some old =>
      obtain ⟨t1, xs1, hrun, hrep1, hbucket, hstored1⟩ :=
        h.rep.removeElem ((h.has _ old).mp hm).1
      refine ⟨t1, xs1, hrun, hrep1, hbucket, fun x => ?_⟩
      rw [hstored1]
      exact and_congr_right (h.has.ne_iff_of_some hm)
  obtain ⟨t2, xs2, hinsert, hrep2, hstored2⟩ :=
    hrep1.insertElem fun hmem => ((hstored1 new).mp hmem).2 rfl
  obtain ⟨t', xs', hrehash, hrep, hstored⟩ := hrep2.rehash memory
  refine ⟨t', xs', _, ?_, .replaced, hrep, h.has.set_some fun x => ?_⟩
  · unfold Table.hashReplace
    dsimp only
    rw [h.findElem hcompat, ok_bind, hremove, ok_bind, ← hbucket, hinsert, ok_bind, hrehash]
    rfl
  · rw [hstored, hstored2, hstored1]

theorem delete (h : Refines hash t xs m) (memory : Bool) (e : α) :
    ∃ t' xs' m', t.hashDelete hash less memory e = .ok (t', m (cls less e)) ∧
      Answers m (.delete e memory) (.elem (m (cls less e))) m' ∧ Refines hash t' xs' m' := by
  have hdeleted : Answers m (.delete e memory) (.elem (m (cls less e))) (m.set (cls less e) none) :=
    .deleted
  unfold Table.hashDelete
  rw [h.findElem hcompat, ok_bind]
  cases hm : m (cls less e) with
  | none =>
    rw [hm] at hdeleted
    exact ⟨t, xs, _, rfl, hdeleted, h.rep,
      h.has.set_none fun x => (and_iff_left_of_imp (h.has.not_mem_of_none hm)).symm⟩
  | some old =>
    obtain ⟨t1, xs1, hremove, hrep1, -, hstored1⟩ :=
      h.rep.removeElem ((h.has _ old).mp hm).1
    obtain ⟨t', xs', hrehash, hrep, hstored⟩ := hrep1.rehash memory
    rw [hm] at hdeleted
    refine ⟨t', xs', _, ?_, hdeleted, hrep, h.has.set_none fun x => ?_⟩
    · simp only [hremove, ok_bind, hrehash]
      rfl
    · rw [hstored, hstored1]
      exact and_congr_right (h.has.ne_iff_of_some hm)

/-- **One call.** -/
theorem exec (h : Refines hash t xs m) (c : Call α) :
    ∃ t' r xs' m', exec hash less t c = .ok (t', r) ∧ Answers m c r m' ∧
      Refines hash t' xs' m' := by
  cases c with
  | insert new memory =>
    obtain ⟨t', xs', m', hrun, hans, href⟩ := h.insert hcompat memory new
    exact ⟨t', _, xs', m', by rw [HashTable.exec, hrun]; rfl, hans, href⟩
  | replace new memory =>
    obtain ⟨t', xs', m', hrun, hans, href⟩ := h.replace hcompat memory new
    exact ⟨t', _, xs', m', by rw [HashTable.exec, hrun]; rfl, hans, href⟩
  | delete e memory =>
    obtain ⟨t', xs', m', hrun, hans, href⟩ := h.delete hcompat memory e
    exact ⟨t', _, xs', m', by rw [HashTable.exec, hrun]; rfl, hans, href⟩
  | find e =>
    refine ⟨t, _, xs, m, ?_, .found, h⟩
    rw [HashTable.exec, Table.hashFind, h.findElem hcompat]
    rfl
  | clear destructor =>
    obtain ⟨t', xs', m', es, hrun, hans, href⟩ := h.clear destructor
    exact ⟨t', _, xs', m', by rw [HashTable.exec, hrun]; rfl, hans, href⟩

theorem run (calls : List (Call α)) :
    ∀ {t : Table α} {xs : ℕ → List α} {m : Map less}, Refines hash t xs m →
      ∃ t' rs xs' m', run hash less t calls = .ok (t', rs) ∧ AnswersAll m calls rs m' ∧
        Refines hash t' xs' m' := by
  induction calls with
  | nil => exact fun {t xs m} h => ⟨t, [], xs, m, rfl, .nil, h⟩
  | cons c cs ih =>
    intro t xs m h
    obtain ⟨t1, r, xs1, m1, hexec, hans, h1⟩ := h.exec hcompat c
    obtain ⟨t', rs, xs', m', hrun, hall, h'⟩ := ih h1
    refine ⟨t', r :: rs, xs', m', ?_, .cons hans hall, h'⟩
    rw [HashTable.run, hexec, ok_bind, hrun]
    rfl

end Refines

/-- **A hash table refines a finite map.**  Whatever the calls and the answers of `malloc`, no call
stops, each one answers as on a map that starts empty, and in the end the buckets are well formed
lists with exactly the elements of the map, at most one of each class; `elem_cnt` is their number,
`bucket_cnt` a power of 2 that is at least 4, and every element is in the bucket of its hash. -/
theorem hash_refines (hcompat : ∀ a b, equal less a b = true → hash a = hash b)
    (links : Links (Node α)) (calls : List (Call α)) :
    ∃ t₀ t replies xs, ∃ m : Map less, hashInit links = .ok t₀ ∧
      run hash less t₀ calls = .ok (t, replies) ∧
      AnswersAll (fun _ => none) calls replies m ∧
      (∀ i < t.bucketCnt,
        KernelList.Represents t.links (bucket (t.buckets, i)) ((xs i).map Node.elem)) ∧
      (∀ c x, m c = some x ↔ (∃ i < t.bucketCnt, x ∈ xs i) ∧ cls less x = c) ∧
      (t.stored xs).Pairwise (fun a b => equal less a b = false) ∧
      t.elemCnt = (t.stored xs).length ∧
      (∃ k, 2 ≤ k ∧ t.bucketCnt = 2 ^ k) ∧
      ∀ i < t.bucketCnt, ∀ e ∈ xs i, i = (hash e).toNat &&& (t.bucketCnt - 1) := by
  obtain ⟨t₀, hinit, hrep0⟩ := rep_hashInit hash links
  have hempty : Map.Has (fun _ => none : Map less) fun x => x ∈ t₀.stored fun _ => [] := by
    intro c x
    simp [mem_stored]
  obtain ⟨t, replies, xs, m, hrun, hall, h⟩ := Refines.run hcompat calls ⟨hrep0, hempty⟩
  refine ⟨t₀, t, replies, xs, m, hinit, hrun, hall, ?_, ?_, h.distinct, h.rep.count,
    h.rep.power, ?_⟩
  · exact fun i hi => h.rep.lists.represents (p := (t.buckets, i)) ⟨rfl, hi⟩
  · exact fun c x => (h.has c x).trans (and_congr_left' mem_stored)
  · exact fun i hi e he => (h.rep.placed i hi e he).symm

end Runs

/-! A table of numbers whose key is the number without its last digit. -/

def sampleLess (a b : ℕ) : Bool := a / 10 < b / 10

instance : IsStrictWeakOrder ℕ fun a b => sampleLess a b = true where
  irrefl a := by simp [sampleLess]
  trans a b c := by
    simp only [sampleLess, decide_eq_true_iff]
    exact fun hab hbc => hab.trans hbc
  incomp_trans a b c := by
    simp only [sampleLess, decide_eq_true_iff]
    omega

def sampleHash (a : ℕ) : UInt32 := UInt32.ofNat (a / 10)

def sampleCalls : List (Call ℕ) :=
  [.insert 12 true, .insert 15 true, .replace 17 true, .find 10, .delete 11 false, .find 10]

theorem hash_refines_sample : ∃ t₀ t,
    hashInit ⟨fun _ => none, fun _ => none⟩ = .ok t₀ ∧
    run sampleHash sampleLess t₀ sampleCalls = .ok (t, [.elem none, .elem (some 12),
      .elem (some 12), .elem (some 17), .elem (some 17), .elem none]) ∧ t.elemCnt = 0 := by
  have hcompat : ∀ a b, equal sampleLess a b = true → sampleHash a = sampleHash b := by
    intro a b hab
    have hkey : a / 10 = b / 10 := by
      simp only [equal, sampleLess, Bool.and_eq_true, Bool.not_eq_true', decide_eq_false_iff_not]
        at hab
      omega
    rw [sampleHash, sampleHash, hkey]
  obtain ⟨t₀, t, replies, xs, m, hinit, hrun, -, -, -, -, -, -⟩ :=
    hash_refines hcompat ⟨fun _ => none, fun _ => none⟩ sampleCalls
  have heval : ((hashInit ⟨fun _ => none, fun _ => none⟩ >>= fun t₀ =>
      run sampleHash sampleLess t₀ sampleCalls).toOption.map fun r => (r.2, r.1.elemCnt)) =
      some ([.elem none, .elem (some 12), .elem (some 12), .elem (some 17), .elem (some 17),
        .elem none], 0) := by
    decide +kernel
  rw [hinit, ok_bind, hrun] at heval
  obtain ⟨rfl, hcnt⟩ := Prod.mk.inj (Option.some.inj heval)
  exact ⟨t₀, t, hinit, hrun, hcnt⟩

end Pintos.HashTable

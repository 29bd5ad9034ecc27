import Mathlib.Data.List.TakeWhile

/-! # Words

The words of a list are its maximal pieces without separators, the elements that satisfy `p`.  A
reader of words skips separators, takes one word and goes on behind it.

* **`split`**: what is left behind the separators is empty, or a word and the rest of the list. -/

namespace Words

open List

variable {α : Type} (p : α → Bool)

/-- The maximal pieces without separators. -/
def words (l : List α) : List (List α) := (l.splitOnP p).filter (· ≠ [])

variable {p}

theorem words_cons {x : α} (hx : p x = true) (l : List α) : words p (x :: l) = words p l := by
  rw [words, ← nil_append (x :: l), splitOnP_append_cons [] l hx, filter_append]
  rfl

theorem words_dropWhile (l : List α) : words p (l.dropWhile p) = words p l := by
  induction l with
  | nil => rfl
  | cons x l ih =>
    by_cases hx : p x = true
    · rw [dropWhile_cons_of_pos hx, ih, words_cons hx]
    · rw [dropWhile_cons_of_neg hx]

theorem words_append {w : List α} (hne : w ≠ []) (hw : ∀ x ∈ w, p x = false) {rest : List α}
    (hrest : ∀ x ∈ rest.head?, p x = true) : words p (w ++ rest) = w :: words p rest := by
  cases rest with
  | nil => simp [words, splitOnP_eq_singleton hw, hne]
  | cons x rest =>
    rw [words_cons (hrest x rfl), words, splitOnP_append_cons_of_forall_mem hw x (hrest x rfl),
      filter_cons_of_pos (by simpa using hne), words]

/-- **The first word of a list.** -/
theorem split (p : α → Bool) (l : List α) :
    (l.dropWhile p = [] ∧ words p l = []) ∨
    ∃ w rest, l.dropWhile p = w ++ rest ∧ w ≠ [] ∧ (∀ x ∈ w, p x = false) ∧
      (∀ x ∈ rest.head?, p x = true) ∧ (w ++ rest).takeWhile (fun x => !p x) = w ∧
      (w ++ rest).dropWhile (fun x => !p x) = rest ∧ words p l = w :: words p rest := by
  rw [← words_dropWhile]
  cases hl : l.dropWhile p with
  | nil => exact .inl ⟨rfl, rfl⟩
  | cons x l' =>
    right
    have hx : p x = false := by
      have := head?_dropWhile_not p l
      rw [hl] at this
      simpa using this
    have hsplit := (x :: l').takeWhile_append_dropWhile (p := fun x => !p x)
    have hrest := head?_dropWhile_not (fun x => !p x) (x :: l')
    have hw : ∀ y ∈ (x :: l').takeWhile (fun x => !p x), p y = false :=
      fun y hy => by simpa using mem_takeWhile_imp hy
    have hne : (x :: l').takeWhile (fun x => !p x) ≠ [] := by
      simp [hx]
    generalize htake : (x :: l').takeWhile (fun x => !p x) = w at hsplit hw hne
    generalize hdrop : (x :: l').dropWhile (fun x => !p x) = rest at hsplit hrest
    have hhead : ∀ y ∈ rest.head?, p y = true := by
      intro y hy
      rw [Option.mem_def.mp hy] at hrest
      simpa using hrest
    refine ⟨w, rest, hsplit.symm, hne, hw, hhead, ?_, ?_, ?_⟩
    · rw [hsplit, htake]
    · rw [hsplit, hdrop]
    · rw [← hsplit, words_append hne hw hhead]

theorem words_eq_nil {l : List α} (h : words p l = []) : ∀ x ∈ l, p x = true := by
  rcases split p l with ⟨hl, -⟩ | ⟨w, rest, -, -, -, -, -, -, hw⟩
  · exact dropWhile_eq_nil_iff.mp hl
  · rw [hw] at h
    cases h

end Words

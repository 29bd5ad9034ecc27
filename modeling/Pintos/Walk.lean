import Mathlib.Data.Option.Basic
import Mathlib.Data.List.Basic

/-! # Walks

A walk through a graph whose edges have labels: from a node the edge with the next label is followed,
until a label has no edge or no label is left.

* `walk child s cs`: where the walk from `s` along the labels `cs` ends.
* `Along child P s cs`: `P` holds at every step of the walk, of the node and of the label followed
  there; the last step may be one that fails. -/

namespace Walk

variable {σ κ : Type} (child : σ → κ → Option σ)

def walk : σ → List κ → Option σ
  | s, [] => some s
  | s, c :: cs => (child s c).bind fun s' => walk s' cs

def Along (P : σ → κ → Prop) : σ → List κ → Prop
  | _, [] => True
  | s, c :: cs => P s c ∧ ∀ s', child s c = some s' → Along P s' cs

variable {child} {P Q : σ → κ → Prop} {s s' : σ} {c : κ} {cs cs' : List κ}

theorem walk_append : walk child s (cs ++ cs') = (walk child s cs).bind fun s' => walk child s' cs' := by
  induction cs generalizing s with
  | nil => rfl
  | cons c cs ih => simp only [List.cons_append, walk, Option.bind_assoc, ih]

theorem walk_singleton : walk child s [c] = child s c := by
  cases h : child s c <;> simp [walk, h]

theorem walk_eq_none_of_mem (hc : c ∈ cs) (hnone : ∀ s, child s c = none) : walk child s cs = none := by
  induction cs generalizing s with
  | nil => cases hc
  | cons c' cs ih =>
    rw [walk]
    rcases List.mem_cons.mp hc with rfl | hc
    · rw [hnone, Option.bind_none]
    · cases child s c' with
      | none => rfl
      | some s' => exact ih hc

theorem Along.mono (h : Along child P s cs) (hPQ : ∀ s c, P s c → Q s c) : Along child Q s cs := by
  induction cs generalizing s with
  | nil => trivial
  | cons c cs ih => exact ⟨hPQ s c h.1, fun s' hs' => ih (h.2 s' hs')⟩

end Walk

import Mathlib.Data.List.Basic

/-!
# Journals

A journal is a list of entries, the newest first. It is grounded in a relation
when every entry stands in it to the entries before it; a grounded journal can be
read at any of its entries, and grows by entries that are grounded themselves.
-/

namespace Core

variable {α : Type*}

/-- Every entry of the journal is grounded in the older ones. -/
def Grounded (P : List α → α → Prop) : List α → Prop
  | [] => True
  | e :: older => P older e ∧ Grounded P older

variable {P : List α → α → Prop}

/-- An entry anywhere in a grounded journal is grounded in what is older. -/
theorem Grounded.at {newer older : List α} {e : α} (h : Grounded P (newer ++ e :: older)) :
    P older e := by
  induction newer with
  | nil => exact h.1
  | cons e' newer ih => exact ih h.2

/-- Entries that are grounded in any journal can be added. -/
theorem Grounded.append {new log : List α} (h : Grounded P log)
    (hnew : ∀ e ∈ new, ∀ older, P older e) : Grounded P (new ++ log) := by
  induction new with
  | nil => exact h
  | cons e new ih =>
    rw [List.forall_mem_cons] at hnew
    exact ⟨hnew.1 _, ih hnew.2⟩

/-- The latest entry of some kind, after entries of other kinds were added. -/
theorem find?_append_of_none {p : α → Bool} {new log : List α} (h : ∀ e ∈ new, p e = false) :
    (new ++ log).find? p = log.find? p := by
  rw [List.find?_append, List.find?_eq_none.mpr fun e he => by simp [h e he], Option.none_or]

end Core

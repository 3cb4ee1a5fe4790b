import AdMQ.Core.Transition
import Mathlib.Data.List.Basic

/-!
# Potentials of transition systems

A system whose inner actions lower a weight and whose other actions raise it by no more
than their price takes at most as many inner actions as the others have paid for. A
set of states that some inner action never leaves has runs of inner actions of every
length.
-/

namespace Core

variable {σ α : Type*} {step : σ → α → Option σ}

/-- What every action of a run keeps holds at its end. -/
theorem run_invariant {ok : α → Prop} {Inv : σ → Prop}
    (hstep : ∀ {s a s'}, Inv s → ok a → step s a = some s' → Inv s') {s s' : σ} {acts : List α}
    (hs : Inv s) (hok : ∀ a ∈ acts, ok a) (hrun : run step s acts = some s') : Inv s' := by
  induction acts generalizing s with
  | nil =>
    obtain rfl : s = s' := by simpa [run] using hrun
    exact hs
  | cons a acts ih =>
    rw [List.forall_mem_cons] at hok
    rw [run] at hrun
    cases hnext : step s a with
    | none => simp [hnext] at hrun
    | some s₁ =>
      rw [hnext] at hrun
      exact ih (hstep hs hok.1 hnext) hok.2 hrun

/-- An invariant under which inner actions lower the weight and the others pay for raising it. -/
structure Paid (step : σ → α → Option σ) (ok : α → Prop) (inner : α → Bool) (weight : σ → Nat)
    (price : α → Nat) (Inv : σ → Prop) : Prop where
  keeps : ∀ {s a s'}, Inv s → ok a → step s a = some s' → Inv s'
  lowers : ∀ {s a s'}, Inv s → inner a = true → step s a = some s' → weight s' < weight s
  raises : ∀ {s a s'}, Inv s → ok a → inner a = false → step s a = some s' →
    weight s' ≤ weight s + price a

/-- What the actions of a run have paid that are not inner ones. -/
def paidFor (inner : α → Bool) (price : α → Nat) : List α → Nat
  | [] => 0
  | a :: acts => (if inner a then 0 else price a) + paidFor inner price acts

theorem paidFor_eq_zero {inner : α → Bool} {price : α → Nat} {acts : List α}
    (h : ∀ a ∈ acts, inner a = true) : paidFor inner price acts = 0 := by
  induction acts with
  | nil => rfl
  | cons a acts ih =>
    rw [List.forall_mem_cons] at h
    rw [paidFor, if_pos h.1, ih h.2]

/-- The inner actions of a run were paid for, and the weight that is left bounds those to come. -/
theorem Paid.countP_le {ok : α → Prop} {inner : α → Bool} {weight : σ → Nat} {price : α → Nat}
    {Inv : σ → Prop} (h : Paid step ok inner weight price Inv) {s s' : σ} {acts : List α}
    (hs : Inv s) (hok : ∀ a ∈ acts, ok a) (hrun : run step s acts = some s') :
    acts.countP inner + weight s' ≤ weight s + paidFor inner price acts := by
  induction acts generalizing s with
  | nil =>
    obtain rfl : s = s' := by simpa [run] using hrun
    simp [paidFor]
  | cons a acts ih =>
    rw [List.forall_mem_cons] at hok
    rw [run] at hrun
    cases hstep : step s a with
    | none => simp [hstep] at hrun
    | some s₁ =>
      rw [hstep] at hrun
      have hrest := ih (h.keeps hs hok.1 hstep) hok.2 hrun
      rw [List.countP_cons, paidFor]
      by_cases ha : inner a = true
      · have hlt := h.lowers hs ha hstep
        rw [if_pos ha, if_pos ha]
        omega
      · have hle := h.raises hs hok.1 (by simpa using ha) hstep
        rw [if_neg ha, if_neg ha]
        omega

/-- From a state of a set that some inner action never leaves, inner actions go on for ever. -/
theorem exists_run_of_endless {inner : α → Bool} {P : σ → Prop}
    (h : ∀ s, P s → ∃ a s', inner a = true ∧ step s a = some s' ∧ P s') (n : Nat) {s : σ}
    (hs : P s) : ∃ acts s', acts.length = n ∧ (∀ a ∈ acts, inner a = true) ∧
      run step s acts = some s' ∧ P s' := by
  induction n generalizing s with
  | zero => exact ⟨[], s, rfl, nofun, rfl, hs⟩
  | succ n ih =>
    obtain ⟨a, s₁, ha, hstep, h₁⟩ := h s hs
    obtain ⟨acts, s', hlen, hall, hrun, h'⟩ := ih h₁
    refine ⟨a :: acts, s', congrArg (· + 1) hlen, ?_, (run_cons_of_eq hstep acts).trans hrun, h'⟩
    exact List.forall_mem_cons.mpr ⟨ha, hall⟩

/-! ## Weights of lists -/

/-- The weights of the members of a list together. -/
def total (weight : α → Nat) : List α → Nat
  | [] => 0
  | a :: rest => weight a + total weight rest

variable {weight weight' : α → Nat}

@[simp] theorem total_append (front back : List α) :
    total weight (front ++ back) = total weight front + total weight back := by
  induction front with
  | nil => simp [total]
  | cons a front ih =>
    rw [List.cons_append, total, ih, total]
    omega

theorem total_map {β : Type*} (f : β → α) (xs : List β) :
    total weight (xs.map f) = total (fun b => weight (f b)) xs := by
  induction xs with
  | nil => rfl
  | cons b xs ih => rw [List.map_cons, total, ih, total]

theorem total_le_mul {bound : Nat} {xs : List α} (h : ∀ a ∈ xs, weight a ≤ bound) :
    total weight xs ≤ bound * xs.length := by
  induction xs with
  | nil => exact Nat.zero_le _
  | cons a xs ih =>
    rw [List.forall_mem_cons] at h
    have hrest := ih h.2
    rw [total, List.length_cons, Nat.mul_succ]
    omega

theorem total_add (xs : List α) :
    total (fun a => weight a + weight' a) xs = total weight xs + total weight' xs := by
  induction xs with
  | nil => rfl
  | cons a xs ih =>
    rw [total, ih, total, total]
    omega

theorem total_mul (k : Nat) (xs : List α) :
    total (fun a => k * weight a) xs = k * total weight xs := by
  induction xs with
  | nil => rfl
  | cons a xs ih => rw [total, ih, total, Nat.mul_add]

theorem total_le_total {xs : List α} (h : ∀ a ∈ xs, weight a ≤ weight' a) :
    total weight xs ≤ total weight' xs := by
  induction xs with
  | nil => exact Nat.le_refl _
  | cons a xs ih =>
    rw [List.forall_mem_cons] at h
    exact Nat.add_le_add h.1 (ih h.2)

theorem total_filter_le (p : α → Bool) (xs : List α) :
    total weight (xs.filter p) ≤ total weight xs := by
  induction xs with
  | nil => exact Nat.le_refl _
  | cons a xs ih =>
    rw [List.filter_cons]
    split
    · exact Nat.add_le_add_left ih _
    · exact Nat.le_trans ih (Nat.le_add_left _ _)

/-- Of members with different keys at most one has a given key. -/
theorem total_ite_key_le {κ : Type*} [DecidableEq κ] (key : α → κ) {xs : List α}
    (hnodup : (xs.map key).Nodup) (k : κ) :
    total (fun a => if key a = k then 1 else 0) xs ≤ 1 := by
  induction xs with
  | nil => exact Nat.zero_le _
  | cons a xs ih =>
    rw [List.map_cons, List.nodup_cons] at hnodup
    rw [total]
    by_cases ha : key a = k
    · have hrest : total (fun a => if key a = k then 1 else 0) xs ≤ 0 * xs.length := by
        refine total_le_mul fun b hb => Nat.le_of_eq (if_neg ?_)
        intro hkey
        exact hnodup.1 (ha.trans hkey.symm ▸ List.mem_map_of_mem hb)
      rw [if_pos ha]
      omega
    · have hrest := ih hnodup.2
      rw [if_neg ha]
      omega

end Core

import Mathlib.Data.List.Sort

/-!
# Numbered logs

A sequencer gives out the numbers `0, 1, 2, …`, and a receiver logs the numbers it
gets to see. A log in order holds each number at most once, the smaller ones
first: it is a subsequence of the numbers given out, and any two such logs agree
about the order of what they have in common.
-/

namespace Core

/-- A log of numbers below `n`, each at most once and the smaller ones first. -/
structure InOrder (log : List Nat) (n : Nat) : Prop where
  increasing : log.Pairwise (· < ·)
  below : ∀ i ∈ log, i < n

variable {log log' : List Nat} {n m : Nat}

theorem InOrder.nil (n : Nat) : InOrder [] n := ⟨List.Pairwise.nil, fun _ => nofun⟩

/-- A log stays in order when further numbers are given out. -/
theorem InOrder.mono (h : InOrder log n) (hle : n ≤ m) : InOrder log m :=
  ⟨h.increasing, fun i hi => Nat.lt_of_lt_of_le (h.below i hi) hle⟩

/-- The number given out last can be logged once. -/
theorem InOrder.concat (h : InOrder log (n + 1)) (hnew : n ∉ log) :
    InOrder (log ++ [n]) (n + 1) := by
  refine ⟨List.pairwise_append.mpr ⟨h.increasing, List.pairwise_singleton .., ?_⟩, ?_⟩
  · intro i hi j hj
    obtain rfl := List.mem_singleton.mp hj
    exact Nat.lt_of_le_of_ne (Nat.le_of_lt_succ (h.below i hi)) fun heq => hnew (heq ▸ hi)
  · intro i hi
    rcases List.mem_append.mp hi with hi | hi
    · exact h.below i hi
    · obtain rfl := List.mem_singleton.mp hi
      exact Nat.lt_succ_self i

/-- A log in order is a subsequence of the numbers given out. -/
theorem InOrder.sublist_range (h : InOrder log n) : log.Sublist (List.range n) := by
  have hsub : log ⊆ List.range n := fun i hi => List.mem_range.mpr (h.below i hi)
  have hnodup : log.Nodup := h.increasing.imp Nat.ne_of_lt
  exact List.sublist_of_subperm_of_pairwise (List.subperm_of_subset hnodup hsub) h.increasing
    List.pairwise_lt_range

/-- Two logs in order have what they share in the same order. -/
theorem InOrder.filter_mem_comm (h : InOrder log n) (h' : InOrder log' m) :
    log.filter (· ∈ log') = log'.filter (· ∈ log) := by
  have hincr := h.increasing.filter (fun i => decide (i ∈ log'))
  have hincr' := h'.increasing.filter (fun i => decide (i ∈ log))
  refine List.Perm.eq_of_pairwise' hincr hincr' ?_
  refine (List.perm_ext_iff_of_nodup (hincr.imp Nat.ne_of_lt) (hincr'.imp Nat.ne_of_lt)).mpr ?_
  intro i
  simp only [List.mem_filter, decide_eq_true_eq]
  exact And.comm

end Core

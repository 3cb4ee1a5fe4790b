import Mathlib.Data.List.Dedup
import Mathlib.Data.List.Perm.Subperm
import Mathlib.Data.List.Induction

/-!
# Ordered sets and their histories

An ordered set is a duplicate-free list: `add` appends an element that is not
there yet, `remove` erases it. `replay` computes the set that a history leaves.
The history alone also says what that set has to be: an element is present when
the last operation that names it added it, and elements stand in the order of
their latest effective addition. The two descriptions agree.
-/

namespace Core

/-- An operation on an ordered set. -/
inductive SetOp (α : Type*) where
  | add (a : α)
  | remove (a : α)
  deriving DecidableEq

namespace SetOp

variable {α : Type*}

/-- The element that an operation names. -/
def elem : SetOp α → α
  | add a => a
  | remove a => a

variable [DecidableEq α]

/-- The effect of one operation on the list of elements. -/
def apply (xs : List α) : SetOp α → List α
  | add a => if a ∈ xs then xs else xs ++ [a]
  | remove a => xs.erase a

/-- The ordered set that a history leaves, starting from the empty one. -/
def replay (history : List (SetOp α)) : List α := history.foldl apply []

/-- The last operation that names the element added it. -/
def Present (history : List (SetOp α)) (a : α) : Prop :=
  (history.filter fun op => decide (op.elem = a)).getLast? = some (add a)

instance (history : List (SetOp α)) (a : α) : Decidable (Present history a) :=
  inferInstanceAs (Decidable (_ = _))

/-- The elements present after a history, without regard to their order. -/
def present (history : List (SetOp α)) : List α :=
  (history.map elem).dedup.filter fun a => decide (Present history a)

/-- The operation at an index added an element that was not present. -/
def EffectiveAt (history : List (SetOp α)) (a : α) (i : Nat) : Prop :=
  history[i]? = some (add a) ∧ ¬ Present (history.take i) a

/-- The index of the latest effective addition of an element. -/
def LatestEffective (history : List (SetOp α)) (a : α) (i : Nat) : Prop :=
  EffectiveAt history a i ∧ ∀ j, EffectiveAt history a j → j ≤ i

/-! ## Appending one operation -/

theorem replay_concat (history : List (SetOp α)) (op : SetOp α) :
    replay (history ++ [op]) = apply (replay history) op := by
  simp [replay]

theorem present_concat_self (history : List (SetOp α)) {op : SetOp α} {a : α} (h : op.elem = a) :
    Present (history ++ [op]) a ↔ op = add a := by
  simp [Present, h]

theorem present_concat_other (history : List (SetOp α)) {op : SetOp α} {a : α} (h : op.elem ≠ a) :
    Present (history ++ [op]) a ↔ Present history a := by
  simp [Present, h]

/-- An index is effective in a longer history if it was before, or if it is the last one. -/
theorem effectiveAt_concat {history : List (SetOp α)} {op : SetOp α} {a : α} {i : Nat} :
    EffectiveAt (history ++ [op]) a i ↔
      EffectiveAt history a i ∨ i = history.length ∧ op = add a ∧ ¬ Present history a := by
  unfold EffectiveAt
  rcases Nat.lt_trichotomy i history.length with hi | hi | hi
  · rw [List.getElem?_append_left hi, List.take_append_of_le_length (Nat.le_of_lt hi)]
    simp [Nat.ne_of_lt hi]
  · subst hi
    simp
  · have hnone : (history ++ [op])[i]? = none := by
      rw [List.getElem?_eq_none_iff, List.length_append, List.length_singleton]
      omega
    have hnone' : history[i]? = none := List.getElem?_eq_none_iff.mpr (Nat.le_of_lt hi)
    simp [hnone, hnone', Nat.ne_of_gt hi]

theorem EffectiveAt.lt_length {history : List (SetOp α)} {a : α} {i : Nat}
    (h : EffectiveAt history a i) : i < history.length :=
  (List.getElem?_eq_some_iff.mp h.1).1

/-- The latest effective addition stays the latest unless the element is added anew. -/
theorem LatestEffective.concat {history : List (SetOp α)} {op : SetOp α} {a : α} {i : Nat}
    (h : LatestEffective history a i) (hop : op = add a → Present history a) :
    LatestEffective (history ++ [op]) a i := by
  refine ⟨effectiveAt_concat.mpr (Or.inl h.1), ?_⟩
  intro j hj
  rcases effectiveAt_concat.mp hj with hj | ⟨-, he, hn⟩
  · exact h.2 j hj
  · exact absurd (hop he) hn

/-- An addition of an absent element is the latest effective one. -/
theorem latestEffective_concat_add {history : List (SetOp α)} {a : α}
    (h : ¬ Present history a) : LatestEffective (history ++ [add a]) a history.length := by
  refine ⟨effectiveAt_concat.mpr (Or.inr ⟨rfl, rfl, h⟩), ?_⟩
  intro j hj
  rcases effectiveAt_concat.mp hj with hj | ⟨hj, -⟩
  · exact Nat.le_of_lt hj.lt_length
  · exact Nat.le_of_eq hj

/-! ## What a history leaves -/

theorem apply_add_of_mem {xs : List α} {a : α} (h : a ∈ xs) : apply xs (add a) = xs := if_pos h

theorem apply_add_of_notMem {xs : List α} {a : α} (h : a ∉ xs) : apply xs (add a) = xs ++ [a] :=
  if_neg h

/-- Adding and removing keep the list free of duplicates. -/
theorem nodup_apply {xs : List α} (h : xs.Nodup) (op : SetOp α) : (apply xs op).Nodup := by
  cases op with
  | add a =>
    by_cases ha : a ∈ xs
    · rwa [apply_add_of_mem ha]
    · rw [apply_add_of_notMem ha]
      exact List.nodup_append_comm.mp (List.nodup_cons.mpr ⟨ha, h⟩)
  | remove a => exact h.erase a

theorem nodup_replay (history : List (SetOp α)) : (replay history).Nodup := by
  induction history using List.reverseRecOn with
  | nil => exact List.nodup_nil
  | append_singleton init op ih => rw [replay_concat]; exact nodup_apply ih op

/-- An operation decides the membership of the element it names. -/
theorem mem_apply_self {xs : List α} (h : xs.Nodup) (op : SetOp α) :
    op.elem ∈ apply xs op ↔ op = add op.elem := by
  cases op with
  | add a =>
    by_cases ha : a ∈ xs
    · simp [elem, apply_add_of_mem ha, ha]
    · simp [elem, apply_add_of_notMem ha]
  | remove a => simp [apply, elem, h.mem_erase_iff]

/-- An operation leaves the membership of every other element alone. -/
theorem mem_apply_other {xs : List α} {op : SetOp α} {a : α} (ha : op.elem ≠ a) :
    a ∈ apply xs op ↔ a ∈ xs := by
  cases op with
  | add b =>
    have hne : a ≠ b := Ne.symm ha
    by_cases hb : b ∈ xs
    · rw [apply_add_of_mem hb]
    · simp [apply_add_of_notMem hb, hne]
  | remove b => exact List.mem_erase_of_ne (Ne.symm ha)

/-- The elements that a history leaves are exactly the ones present. -/
theorem mem_replay_iff (history : List (SetOp α)) (a : α) :
    a ∈ replay history ↔ Present history a := by
  induction history using List.reverseRecOn with
  | nil => simp [replay, Present]
  | append_singleton init op ih =>
    rw [replay_concat]
    by_cases ha : op.elem = a
    · subst ha
      rw [present_concat_self init rfl]
      exact mem_apply_self (nodup_replay init) op
    · rw [present_concat_other init ha, mem_apply_other ha, ih]

/-- Every element present has a latest effective addition. -/
theorem exists_latestEffective {history : List (SetOp α)} {a : α} (h : Present history a) :
    ∃ i, LatestEffective history a i := by
  induction history using List.reverseRecOn with
  | nil => simp [Present] at h
  | append_singleton init op ih =>
    by_cases hin : Present init a
    · obtain ⟨i, hi⟩ := ih hin
      exact ⟨i, hi.concat fun _ => hin⟩
    · have ha : op.elem = a := by
        by_contra hne
        exact hin ((present_concat_other init hne).mp h)
      rw [present_concat_self init ha] at h
      subst h
      exact ⟨init.length, latestEffective_concat_add hin⟩

/-- They stand in the order of their latest effective additions. -/
theorem pairwise_replay (history : List (SetOp α)) :
    (replay history).Pairwise fun a b =>
      ∃ i j, LatestEffective history a i ∧ LatestEffective history b j ∧ i < j := by
  induction history using List.reverseRecOn with
  | nil => exact List.Pairwise.nil
  | append_singleton init op ih =>
    rw [replay_concat]
    -- Elements that were there keep their index, whatever the last operation is.
    have hkeep : (replay init).Pairwise fun a b =>
        ∃ i j, LatestEffective (init ++ [op]) a i ∧ LatestEffective (init ++ [op]) b j ∧ i < j := by
      refine ih.imp_of_mem ?_
      rintro a b ha hb ⟨i, j, hi, hj, hij⟩
      exact ⟨i, j, hi.concat fun _ => (mem_replay_iff init a).mp ha,
        hj.concat fun _ => (mem_replay_iff init b).mp hb, hij⟩
    cases op with
    | remove a => exact hkeep.sublist List.erase_sublist
    | add a =>
      by_cases hm : a ∈ replay init
      · rwa [apply_add_of_mem hm]
      · rw [apply_add_of_notMem hm]
        refine List.pairwise_append.mpr ⟨hkeep, List.pairwise_singleton .., ?_⟩
        intro b hb c hc
        obtain rfl := List.mem_singleton.mp hc
        have hb' := (mem_replay_iff init b).mp hb
        obtain ⟨i, hi⟩ := exists_latestEffective hb'
        exact ⟨i, init.length, hi.concat fun _ => hb',
          latestEffective_concat_add (mt (mem_replay_iff init c).mpr hm), hi.1.lt_length⟩

/-- No more elements are present than operations were made. -/
theorem length_present_le (history : List (SetOp α)) :
    (present history).length ≤ history.length := by
  calc (present history).length ≤ (history.map elem).dedup.length := List.length_filter_le ..
    _ ≤ (history.map elem).length := (List.dedup_sublist _).length_le
    _ = history.length := List.length_map ..

/-- No more elements are left than are present. -/
theorem length_replay_le (history : List (SetOp α)) :
    (replay history).length ≤ (present history).length := by
  refine (List.subperm_of_subset (nodup_replay history) ?_).length_le
  intro a ha
  have hp := (mem_replay_iff history a).mp ha
  refine List.mem_filter.mpr ⟨?_, by simpa using hp⟩
  have hmem := List.mem_of_getLast? hp
  rw [List.mem_dedup]
  exact List.mem_map.mpr ⟨_, (List.mem_filter.mp hmem).1, rfl⟩

end SetOp

end Core

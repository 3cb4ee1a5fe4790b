import Mathlib.Data.Fin.Basic
import Mathlib.Data.List.Basic
import Mathlib.Data.List.FinRange
import Mathlib.Data.List.Induction
import Mathlib.Data.List.Nodup
import Mathlib.Logic.Function.Basic

/-!
# Hash tables with chained entries

A table of `size` buckets, each a chain of key-value entries. The operations walk
the chain of the key's bucket: `set` replaces the value in place or puts a new
entry at the front, `get` returns the first value found, `del` unlinks the first
entry found. A table carries its invariant: every entry stands in the bucket of
its key, and no key occurs twice in a chain. So it represents a finite map.
-/

namespace Core

variable {κ ν : Type*} [DecidableEq κ]

/-! ## One chain -/

/-- The value of the first entry with a key. -/
def chainGet (key : κ) : List (κ × ν) → Option ν
  | [] => none
  | e :: rest => if e.1 = key then some e.2 else chainGet key rest

/-- Replace the value of the first entry with a key, if there is one. -/
def chainUpdate (key : κ) (value : ν) : List (κ × ν) → Option (List (κ × ν))
  | [] => none
  | e :: rest =>
    if e.1 = key then some ((e.1, value) :: rest) else (chainUpdate key value rest).map (e :: ·)

/-- Replace the value of a key, or put a new entry at the front. -/
def chainSet (key : κ) (value : ν) (chain : List (κ × ν)) : List (κ × ν) :=
  (chainUpdate key value chain).getD ((key, value) :: chain)

/-- Unlink the first entry with a key. -/
def chainDel (key : κ) : List (κ × ν) → List (κ × ν)
  | [] => []
  | e :: rest => if e.1 = key then rest else e :: chainDel key rest

/-- Whether the walk of `chainDel` finds an entry to unlink. -/
def chainFound (key : κ) : List (κ × ν) → Bool
  | [] => false
  | e :: rest => if e.1 = key then true else chainFound key rest

theorem chainGet_eq_none_iff {key : κ} {chain : List (κ × ν)} :
    chainGet key chain = none ↔ key ∉ chain.map Prod.fst := by
  induction chain with
  | nil => simp [chainGet]
  | cons e rest ih =>
    by_cases he : e.1 = key
    · simp [chainGet, he]
    · simp [chainGet, he, ih, Ne.symm he]

theorem chainUpdate_eq_none_iff {key : κ} {value : ν} {chain : List (κ × ν)} :
    chainUpdate key value chain = none ↔ key ∉ chain.map Prod.fst := by
  induction chain with
  | nil => simp [chainUpdate]
  | cons e rest ih =>
    by_cases he : e.1 = key
    · simp [chainUpdate, he]
    · simp [chainUpdate, he, ih, Ne.symm he]

/-- An update changes the first entry or goes on behind it. -/
theorem chainUpdate_cons_cases {key : κ} {value : ν} {e : κ × ν} {rest chain' : List (κ × ν)}
    (h : chainUpdate key value (e :: rest) = some chain') :
    e.1 = key ∧ chain' = (e.1, value) :: rest ∨
      e.1 ≠ key ∧ ∃ tail, chainUpdate key value rest = some tail ∧ chain' = e :: tail := by
  rw [chainUpdate] at h
  split at h
  next he => exact Or.inl ⟨he, (Option.some.inj h).symm⟩
  next he =>
    obtain ⟨tail, ht, hchain⟩ := Option.map_eq_some_iff.mp h
    exact Or.inr ⟨he, tail, ht, hchain.symm⟩

/-- An update in place keeps the keys of a chain. -/
theorem map_fst_chainUpdate {key : κ} {value : ν} {chain chain' : List (κ × ν)}
    (h : chainUpdate key value chain = some chain') : chain'.map Prod.fst = chain.map Prod.fst := by
  induction chain generalizing chain' with
  | nil => cases h
  | cons e rest ih =>
    rcases chainUpdate_cons_cases h with ⟨-, rfl⟩ | ⟨-, tail, ht, rfl⟩
    · rfl
    · rw [List.map_cons, List.map_cons, ih ht]

theorem chainGet_chainUpdate {key : κ} {value : ν} {chain chain' : List (κ × ν)}
    (h : chainUpdate key value chain = some chain') (other : κ) :
    chainGet other chain' = if other = key then some value else chainGet other chain := by
  induction chain generalizing chain' with
  | nil => cases h
  | cons e rest ih =>
    rcases chainUpdate_cons_cases h with ⟨he, rfl⟩ | ⟨he, tail, ht, rfl⟩
    · by_cases ho : other = key
      · simp [chainGet, he, ho]
      · simp [chainGet, he, ho, Ne.symm ho]
    · rw [chainGet, chainGet, ih ht]
      by_cases ho : other = key
      · simp [ho, he]
      · simp [ho]

/-- Reading a chain after a value was set. -/
theorem chainGet_chainSet (key : κ) (value : ν) (chain : List (κ × ν)) (other : κ) :
    chainGet other (chainSet key value chain) =
      if other = key then some value else chainGet other chain := by
  rw [chainSet]
  cases h : chainUpdate key value chain with
  | none =>
    by_cases ho : other = key
    · simp [chainGet, ho]
    · simp [chainGet, ho, Ne.symm ho]
  | some chain' => exact chainGet_chainUpdate h other

/-- Setting a value keeps the keys of a chain distinct. -/
theorem nodup_chainSet {key : κ} {value : ν} {chain : List (κ × ν)}
    (h : (chain.map Prod.fst).Nodup) : ((chainSet key value chain).map Prod.fst).Nodup := by
  rw [chainSet]
  cases hu : chainUpdate key value chain with
  | none => exact List.nodup_cons.mpr ⟨chainUpdate_eq_none_iff.mp hu, h⟩
  | some chain' =>
    rw [Option.getD_some, map_fst_chainUpdate hu]
    exact h

/-- The keys of a chain after a value was set. -/
theorem mem_map_fst_chainSet {key other : κ} {value : ν} {chain : List (κ × ν)}
    (h : other ∈ (chainSet key value chain).map Prod.fst) :
    other = key ∨ other ∈ chain.map Prod.fst := by
  rw [chainSet] at h
  cases hu : chainUpdate key value chain with
  | none => simpa [hu] using h
  | some chain' =>
    rw [hu, Option.getD_some, map_fst_chainUpdate hu] at h
    exact Or.inr h

theorem chainDel_sublist (key : κ) (chain : List (κ × ν)) : (chainDel key chain).Sublist chain := by
  induction chain with
  | nil => exact List.Sublist.slnil
  | cons e rest ih =>
    unfold chainDel
    split
    · exact List.sublist_cons_self ..
    · exact ih.cons_cons e

theorem chainFound_iff {key : κ} {chain : List (κ × ν)} :
    chainFound key chain = true ↔ chainGet key chain ≠ none := by
  induction chain with
  | nil => simp [chainFound, chainGet]
  | cons e rest ih =>
    by_cases he : e.1 = key
    · simp [chainFound, chainGet, he]
    · simp only [chainFound, chainGet, if_neg he]
      exact ih

/-- Reading a chain of distinct keys after an entry was unlinked. -/
theorem chainGet_chainDel {key : κ} {chain : List (κ × ν)} (h : (chain.map Prod.fst).Nodup)
    (other : κ) :
    chainGet other (chainDel key chain) = if other = key then none else chainGet other chain := by
  induction chain with
  | nil => simp [chainDel, chainGet]
  | cons e rest ih =>
    rw [List.map_cons, List.nodup_cons] at h
    by_cases he : e.1 = key
    · rw [chainDel, if_pos he]
      by_cases ho : other = key
      · -- The key stood here, so it does not occur again.
        rw [if_pos ho, ho, ← he]
        exact chainGet_eq_none_iff.mpr h.1
      · rw [if_neg ho, chainGet, he, if_neg (Ne.symm ho)]
    · rw [chainDel, if_neg he, chainGet, chainGet, ih h.2]
      by_cases ho : other = key
      · simp [ho, he]
      · simp [ho]

/-- In a chain of distinct keys every entry is the one found under its key. -/
theorem mem_chain_iff {chain : List (κ × ν)} (h : (chain.map Prod.fst).Nodup) {key : κ}
    {value : ν} :
    (key, value) ∈ chain ↔ chainGet key chain = some value := by
  induction chain with
  | nil => simp [chainGet]
  | cons e rest ih =>
    obtain ⟨k, v⟩ := e
    rw [List.map_cons, List.nodup_cons] at h
    rw [List.mem_cons, ih h.2, chainGet]
    by_cases hk : k = key
    · subst hk
      have hnone : chainGet k rest = none := chainGet_eq_none_iff.mpr h.1
      simp [hnone, eq_comm]
    · simp [hk, Ne.symm hk]

/-! ## The table -/

/-- A table of chains for a hash function. -/
structure ChainTable (κ ν : Type*) [DecidableEq κ] {size : Nat} (hash : κ → Fin size) where
  buckets : Fin size → List (κ × ν)
  /-- Every entry stands in the bucket of its key. -/
  placed : ∀ i, ∀ key ∈ (buckets i).map Prod.fst, hash key = i
  /-- No key occurs twice in a chain. -/
  nodup : ∀ i, ((buckets i).map Prod.fst).Nodup

namespace ChainTable

variable {size : Nat} {hash : κ → Fin size}

/-- The table without entries. -/
def empty (hash : κ → Fin size) : ChainTable κ ν hash := ⟨fun _ => [], by simp, by simp⟩

/-- The value stored under a key. -/
def get (t : ChainTable κ ν hash) (key : κ) : Option ν := chainGet key (t.buckets (hash key))

/-- Store a value under a key. -/
def set (t : ChainTable κ ν hash) (key : κ) (value : ν) : ChainTable κ ν hash where
  buckets := Function.update t.buckets (hash key) (chainSet key value (t.buckets (hash key)))
  placed := by
    intro i k hk
    by_cases hi : i = hash key
    · subst hi
      rw [Function.update_self] at hk
      rcases mem_map_fst_chainSet hk with rfl | hk
      · rfl
      · exact t.placed _ k hk
    · rw [Function.update_of_ne hi] at hk
      exact t.placed i k hk
  nodup := by
    intro i
    by_cases hi : i = hash key
    · subst hi
      rw [Function.update_self]
      exact nodup_chainSet (t.nodup _)
    · rw [Function.update_of_ne hi]
      exact t.nodup i

/-- Remove the entry of a key. -/
def del (t : ChainTable κ ν hash) (key : κ) : ChainTable κ ν hash where
  buckets := Function.update t.buckets (hash key) (chainDel key (t.buckets (hash key)))
  placed := by
    intro i k hk
    by_cases hi : i = hash key
    · subst hi
      rw [Function.update_self] at hk
      exact t.placed _ k (((chainDel_sublist key _).map _).subset hk)
    · rw [Function.update_of_ne hi] at hk
      exact t.placed i k hk
  nodup := by
    intro i
    by_cases hi : i = hash key
    · subst hi
      rw [Function.update_self]
      exact ((chainDel_sublist key _).map _).nodup (t.nodup _)
    · rw [Function.update_of_ne hi]
      exact t.nodup i

/-- Remove the entry of a key and tell whether there was one. -/
def delete (t : ChainTable κ ν hash) (key : κ) : Bool × ChainTable κ ν hash :=
  (chainFound key (t.buckets (hash key)), t.del key)

/-- All entries, bucket by bucket. -/
def entries (t : ChainTable κ ν hash) : List (κ × ν) := (List.finRange size).flatMap t.buckets

@[simp] theorem get_empty (key : κ) : (empty hash : ChainTable κ ν hash).get key = none := rfl

/-- A table represents a map: setting a key changes the value of that key only. -/
@[simp] theorem get_set (t : ChainTable κ ν hash) (key : κ) (value : ν) (other : κ) :
    (t.set key value).get other = if other = key then some value else t.get other := by
  by_cases hi : hash other = hash key
  · simp only [get, set, hi, Function.update_self]
    exact chainGet_chainSet ..
  · have ho : other ≠ key := fun h => hi (by rw [h])
    simp only [get, set, Function.update_of_ne hi, if_neg ho]

/-- Removing a key changes the value of that key only. -/
@[simp] theorem get_del (t : ChainTable κ ν hash) (key other : κ) :
    (t.del key).get other = if other = key then none else t.get other := by
  by_cases hi : hash other = hash key
  · simp only [get, del, hi, Function.update_self]
    exact chainGet_chainDel (t.nodup _) other
  · have ho : other ≠ key := fun h => hi (by rw [h])
    simp only [get, del, Function.update_of_ne hi, if_neg ho]

/-- The entries of a table are exactly the pairs it maps. -/
theorem mem_entries_iff (t : ChainTable κ ν hash) {key : κ} {value : ν} :
    (key, value) ∈ t.entries ↔ t.get key = some value := by
  simp only [entries, List.mem_flatMap, List.mem_finRange, true_and]
  constructor
  · rintro ⟨i, hi⟩
    have hp := t.placed i key (List.mem_map_of_mem hi)
    subst hp
    exact (mem_chain_iff (t.nodup _)).mp hi
  · intro h
    exact ⟨hash key, (mem_chain_iff (t.nodup _)).mpr h⟩

/-- No key occurs twice in a table. -/
theorem nodup_keys_entries (t : ChainTable κ ν hash) : (t.entries.map Prod.fst).Nodup := by
  rw [entries, List.map_flatMap, List.nodup_flatMap]
  refine ⟨fun i _ => t.nodup i, (List.nodup_finRange size).imp ?_⟩
  intro i j hij key hi hj
  exact hij ((t.placed i key hi).symm.trans (t.placed j key hj))

theorem fst_delete_iff (t : ChainTable κ ν hash) (key : κ) :
    (t.delete key).1 = true ↔ t.get key ≠ none := chainFound_iff

end ChainTable

/-! ## Sequences of operations -/

/-- An operation that changes a table. -/
inductive TableOp (κ ν : Type*) where
  | set (key : κ) (value : ν)
  | del (key : κ)

/-- The key that an operation is about. -/
def TableOp.key : TableOp κ ν → κ
  | .set key _ => key
  | .del key => key

/-- The last operation about a key is the one that sets this value. -/
def TableOp.LastSet (ops : List (TableOp κ ν)) (key : κ) (value : ν) : Prop :=
  ∃ before after, ops = before ++ .set key value :: after ∧ ∀ op ∈ after, op.key ≠ key

omit [DecidableEq κ] in
/-- The last operation of a sequence in which a value was set: it is this one, or a later one. -/
theorem TableOp.eq_or_of_concat {ops before after : List (TableOp κ ν)} {op set : TableOp κ ν}
    (h : ops ++ [op] = before ++ set :: after) :
    ops = before ∧ op = set ∧ after = [] ∨
    ∃ rest, after = rest ++ [op] ∧ ops = before ++ set :: rest := by
  rcases List.eq_nil_or_concat' after with rfl | ⟨rest, last, rfl⟩
  · obtain ⟨hops, hop⟩ := List.append_inj' h rfl
    exact Or.inl ⟨hops, List.singleton_inj.mp hop, rfl⟩
  · rw [← List.cons_append, ← List.append_assoc] at h
    obtain ⟨hops, hop⟩ := List.append_inj' h rfl
    exact Or.inr ⟨rest, by rw [hop], hops⟩

omit [DecidableEq κ] in
/-- An operation about the key itself decides the last set. -/
theorem TableOp.lastSet_concat_of_eq {ops : List (TableOp κ ν)} {op : TableOp κ ν} {key : κ}
    {value : ν} (h : op.key = key) : LastSet (ops ++ [op]) key value ↔ op = .set key value := by
  constructor
  · rintro ⟨before, after, hops, hafter⟩
    rcases TableOp.eq_or_of_concat hops with ⟨-, hop, -⟩ | ⟨rest, rfl, -⟩
    · exact hop
    · exact absurd h (hafter op (List.mem_append_right _ (List.mem_singleton_self op)))
  · rintro rfl
    exact ⟨ops, [], rfl, fun _ => nofun⟩

omit [DecidableEq κ] in
/-- An operation about another key leaves it. -/
theorem TableOp.lastSet_concat_of_ne {ops : List (TableOp κ ν)} {op : TableOp κ ν} {key : κ}
    {value : ν} (h : op.key ≠ key) : LastSet (ops ++ [op]) key value ↔ LastSet ops key value := by
  constructor
  · rintro ⟨before, after, hops, hafter⟩
    rcases TableOp.eq_or_of_concat hops with ⟨-, hop, -⟩ | ⟨rest, rfl, hops'⟩
    · exact absurd (congrArg TableOp.key hop) h
    · exact ⟨before, rest, hops', fun op' hop' => hafter op' (List.mem_append_left _ hop')⟩
  · rintro ⟨before, after, rfl, hafter⟩
    refine ⟨before, after ++ [op], by simp, ?_⟩
    intro op' hop'
    rcases List.mem_append.mp hop' with hop' | hop'
    · exact hafter op' hop'
    · rwa [List.mem_singleton.mp hop']

namespace ChainTable

variable {size : Nat} {hash : κ → Fin size}

/-- The effect of an operation. -/
def step (t : ChainTable κ ν hash) : TableOp κ ν → ChainTable κ ν hash
  | .set key value => t.set key value
  | .del key => (t.delete key).2

/-- The table after a sequence of operations. -/
def run (t : ChainTable κ ν hash) (ops : List (TableOp κ ν)) : ChainTable κ ν hash :=
  ops.foldl step t

/-- An operation changes the value of its own key only. -/
theorem get_step_of_ne (t : ChainTable κ ν hash) {op : TableOp κ ν} {key : κ} (h : op.key ≠ key) :
    (t.step op).get key = t.get key := by
  cases op with
  | set k v => exact (t.get_set k v key).trans (if_neg (Ne.symm h))
  | del k => exact (t.get_del k key).trans (if_neg (Ne.symm h))

/-- After every sequence of operations a key has the value of its last set, unless a removal
came later. -/
theorem get_run_iff (ops : List (TableOp κ ν)) (key : κ) (value : ν) :
    ((empty hash).run ops).get key = some value ↔ TableOp.LastSet ops key value := by
  induction ops using List.reverseRecOn with
  | nil => simp [run, TableOp.LastSet]
  | append_singleton ops op ih =>
    rw [run, List.foldl_append]
    change (((empty hash).run ops).step op).get key = some value ↔ _
    by_cases hkey : op.key = key
    · rw [TableOp.lastSet_concat_of_eq hkey]
      subst hkey
      cases op with
      | set k v => simp [step, TableOp.key]
      | del k => simp [step, delete, TableOp.key]
    · rw [TableOp.lastSet_concat_of_ne hkey, ← ih, get_step_of_ne _ hkey]

end ChainTable

end Core

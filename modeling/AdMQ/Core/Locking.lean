import Mathlib.Data.Fintype.Basic
import Mathlib.Logic.Function.Basic
import Mathlib.Logic.Relation

/-!
# Lock protocols

Threads that acquire and release locks. A thread is the list of locks it holds
and the list of operations it has yet to do; which held locks block an
acquisition is a relation between locks, so that shared and exclusive modes of
one lock are two locks of this relation. A state is deadlocked when threads wait
for each other in a cycle. A discipline says which lock may be acquired while
which others are held; a program that follows it is never found elsewhere.
-/

namespace Core

/-- An operation on a lock. -/
inductive LockOp (L : Type*) where
  | acquire (l : L)
  | release (l : L)
  deriving DecidableEq

/-- The locks held after an operation. -/
def LockOp.heldAfter {L : Type*} [DecidableEq L] (held : List L) : LockOp L → List L
  | .acquire l => l :: held
  | .release l => held.erase l

/-- A thread: the locks it holds, latest first, and the operations it has yet to do. -/
structure Holder (L : Type*) where
  held : List L
  todo : List (LockOp L)
  deriving DecidableEq

/-- The locks a thread holds after its next operation. -/
def Holder.heldNext {L : Type*} [DecidableEq L] (x : Holder L) : List L :=
  match x.todo with
  | [] => x.held
  | op :: _ => op.heldAfter x.held

section Protocol

variable {L τ : Type*} [DecidableEq L] [DecidableEq τ] (conflict : L → L → Prop)

/-- Some thread holds a lock that blocks an acquisition. -/
def Blocked (s : τ → Holder L) (l : L) : Prop := ∃ u, ∃ l' ∈ (s u).held, conflict l l'

instance [Fintype τ] [DecidableRel conflict] (s : τ → Holder L) (l : L) :
    Decidable (Blocked conflict s l) :=
  inferInstanceAs (Decidable (∃ u, ∃ l' ∈ (s u).held, conflict l l'))

/-- The next operation of a thread; an acquisition that is blocked is not enabled. -/
def advance [Fintype τ] [DecidableRel conflict] (s : τ → Holder L) (t : τ) :
    Option (τ → Holder L) :=
  match (s t).todo with
  | [] => none
  | .acquire l :: rest =>
    if Blocked conflict s l then none
    else some (Function.update s t ⟨LockOp.heldAfter (s t).held (.acquire l), rest⟩)
  | .release l :: rest =>
    some (Function.update s t ⟨LockOp.heldAfter (s t).held (.release l), rest⟩)

/-- What an enabled operation does: the thread moves on with the locks it then holds. -/
theorem advance_cases [Fintype τ] [DecidableRel conflict] {s s' : τ → Holder L} {t : τ}
    (h : advance conflict s t = some s') :
    ∃ op rest, (s t).todo = op :: rest ∧
      s' = Function.update s t ⟨op.heldAfter (s t).held, rest⟩ := by
  unfold advance at h
  split at h
  · cases h
  · next l rest htodo =>
    split at h
    · cases h
    · exact ⟨_, rest, htodo, (Option.some.inj h).symm⟩
  · next l rest htodo => exact ⟨_, rest, htodo, (Option.some.inj h).symm⟩

/-- The next operation of one thread is blocked by a lock that the other holds. -/
def WaitsFor (s : τ → Holder L) (t u : τ) : Prop :=
  ∃ l rest, (s t).todo = .acquire l :: rest ∧ ∃ l' ∈ (s u).held, conflict l l'

/-- Threads wait for each other in a cycle. -/
def Deadlocked (s : τ → Holder L) : Prop := ∃ t, Relation.TransGen (WaitsFor conflict s) t t

/-- A cycle goes on from every thread on it. -/
theorem exists_next_of_cycle {α : Type*} {r : α → α → Prop} {a : α} (h : Relation.TransGen r a a) :
    ∃ b, r a b ∧ Relation.TransGen r b b := by
  obtain ⟨b, hab, hba⟩ := Relation.TransGen.head'_iff.mp h
  exact ⟨b, hab, Relation.TransGen.tail' hba hab⟩

end Protocol

section Discipline

variable {L τ : Type*} [DecidableEq L] (allowed : List L → L → Prop)

/-- A program acquires only what is allowed with the locks held, releases only what it holds,
and ends with some locks still held. -/
inductive Follows : List L → List (LockOp L) → List L → Prop where
  | done (held : List L) : Follows held [] held
  | acquire {held rest final : List _} {l : L} : allowed held l → Follows (l :: held) rest final →
      Follows held (.acquire l :: rest) final
  | release {held rest final : List _} {l : L} : l ∈ held → Follows (held.erase l) rest final →
      Follows held (.release l :: rest) final

variable {allowed}

/-- Programs that follow the discipline are put one after the other. -/
theorem Follows.append {held mid final : List L} {p q : List (LockOp L)}
    (hp : Follows allowed held p mid) (hq : Follows allowed mid q final) :
    Follows allowed held (p ++ q) final := by
  induction hp with
  | done => exact hq
  | acquire ha _ ih => exact .acquire ha (ih hq)
  | release hm _ ih => exact .release hm (ih hq)

/-- A program made of pieces that each return to the same locks. -/
theorem Follows.flatMap {α : Type*} {held : List L} {f : α → List (LockOp L)} (xs : List α)
    (h : ∀ x, Follows allowed held (f x) held) : Follows allowed held (xs.flatMap f) held := by
  induction xs with
  | nil => exact .done held
  | cons x xs ih =>
    rw [List.flatMap_cons]
    exact (h x).append ih

theorem Follows.eq_of_done {held final : List L} (h : Follows allowed held [] final) :
    held = final := by
  cases h with
  | done => rfl

/-- The lock about to be acquired is allowed. -/
theorem Follows.allowed_of_acquire {held rest final : List _} {l : L}
    (h : Follows allowed held (.acquire l :: rest) final) : allowed held l := by
  cases h with
  | acquire ha _ => exact ha

/-- One operation of a program that follows the discipline. -/
theorem Follows.tail {held rest final : List _} {op : LockOp L}
    (h : Follows allowed held (op :: rest) final) :
    Follows allowed (op.heldAfter held) rest final := by
  cases h with
  | acquire _ hrest => exact hrest
  | release _ hrest => exact hrest

/-- If the discipline never allows a lock that is held, no lock is held twice. -/
theorem Follows.nodup_heldAfter (hallowed : ∀ held l, allowed held l → l ∉ held)
    {held rest final : List _} {op : LockOp L} (h : Follows allowed held (op :: rest) final)
    (hn : held.Nodup) : (op.heldAfter held).Nodup := by
  cases h with
  | acquire ha _ => exact List.nodup_cons.mpr ⟨hallowed _ _ ha, hn⟩
  | release _ _ => exact hn.erase _

end Discipline

end Core

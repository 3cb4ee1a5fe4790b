import Mathlib.Data.List.Induction

/-!
# Executable transition systems

A system is a step function: `step s a` is the next state when action `a` is
enabled in `s`, and `none` otherwise. `Reaches` collects the states that enabled
actions reach while every step meets a condition; an invariant that holds at
the start and is kept by every such step holds in all of them. A concrete run is
evaluated by `run` and yields a reachable state. `noted` carries notes along a run
that have no influence on it, and `Advances` says where one party gets by itself.
-/

namespace Core

variable {σ α : Type*}

/-- The states reached from `s₀` by enabled actions that meet a condition. -/
inductive Reaches (step : σ → α → Option σ) (ok : σ → α → Prop) (s₀ : σ) : σ → Prop where
  | start : Reaches step ok s₀ s₀
  | next {s s' : σ} {a : α} : Reaches step ok s₀ s → ok s a → step s a = some s' →
      Reaches step ok s₀ s'

variable {step : σ → α → Option σ} {ok : σ → α → Prop} {s₀ : σ}

/-- The rule of invariants. -/
theorem Reaches.invariant {Inv : σ → Prop} (hstart : Inv s₀)
    (hstep : ∀ s a s', Inv s → ok s a → step s a = some s' → Inv s') {s : σ}
    (h : Reaches step ok s₀ s) : Inv s := by
  induction h with
  | start => exact hstart
  | next _ hok hs ih => exact hstep _ _ _ ih hok hs

/-- The state after a sequence of actions, if each is enabled. -/
def run (step : σ → α → Option σ) : σ → List α → Option σ
  | s, [] => some s
  | s, a :: rest =>
    match step s a with
    | none => none
    | some s' => run step s' rest

/-- A step function that also refuses actions which miss a condition. -/
def guarded (step : σ → α → Option σ) (ok : σ → α → Prop) [∀ s a, Decidable (ok s a)] (s : σ)
    (a : α) : Option σ :=
  if ok s a then step s a else none

/-- Every state on a guarded run is reached. -/
theorem Reaches.run [∀ s a, Decidable (ok s a)] {s : σ} (h : Reaches step ok s₀ s)
    {acts : List α} {s' : σ} (hrun : Core.run (guarded step ok) s acts = some s') :
    Reaches step ok s₀ s' := by
  induction acts generalizing s with
  | nil =>
    obtain rfl : s = s' := by simpa [Core.run] using hrun
    exact h
  | cons a rest ih =>
    rw [Core.run, guarded] at hrun
    by_cases hok : ok s a
    · rw [if_pos hok] at hrun
      cases hs : step s a with
      | none => simp [hs] at hrun
      | some s₁ =>
        rw [hs] at hrun
        exact ih (h.next hok hs) hrun
    · simp [hok] at hrun

/-- Every state on a guarded run from the start is reached. -/
theorem reaches_of_run [∀ s a, Decidable (ok s a)] {acts : List α} {s : σ}
    (h : Core.run (guarded step ok) s₀ acts = some s) : Reaches step ok s₀ s :=
  Reaches.run .start h

theorem run_cons_of_eq {s s₁ : σ} {a : α} (h : step s a = some s₁) (acts : List α) :
    Core.run step s (a :: acts) = Core.run step s₁ acts := by
  rw [Core.run, h]

theorem run_append (s : σ) (acts more : List α) : Core.run step s (acts ++ more) =
    (Core.run step s acts).bind fun s₁ => Core.run step s₁ more := by
  induction acts generalizing s with
  | nil => rfl
  | cons a rest ih =>
    rw [List.cons_append, Core.run, Core.run]
    cases step s a with
    | none => rfl
    | some s' => exact ih s'

theorem run_append_of_eq {s s₁ : σ} {acts : List α} (h : Core.run step s acts = some s₁)
    (more : List α) : Core.run step s (acts ++ more) = Core.run step s₁ more := by
  rw [run_append, h]
  rfl

theorem run_concat_eq_some {s s' : σ} {acts : List α} {a : α} :
    Core.run step s (acts ++ [a]) = some s' ↔
      ∃ s₁, Core.run step s acts = some s₁ ∧ step s₁ a = some s' := by
  rw [run_append, Option.bind_eq_some_iff]
  refine exists_congr fun s₁ => and_congr_right fun _ => ?_
  rw [Core.run]
  cases step s₁ a <;> rfl

theorem guarded_eq_some [∀ s a, Decidable (ok s a)] {s s' : σ} {a : α} :
    guarded step ok s a = some s' ↔ ok s a ∧ step s a = some s' := by
  rw [guarded]
  by_cases hok : ok s a <;> simp [hok]

/-- A condition on the steps does not change where they lead. -/
theorem run_of_run_guarded [∀ s a, Decidable (ok s a)] {s s' : σ} {acts : List α}
    (h : Core.run (guarded step ok) s acts = some s') : Core.run step s acts = some s' := by
  induction acts using List.reverseRecOn generalizing s' with
  | nil => exact h
  | append_singleton acts a ih =>
    obtain ⟨s₁, hacts, hs⟩ := run_concat_eq_some.mp h
    exact run_concat_eq_some.mpr ⟨s₁, ih hacts, (guarded_eq_some.mp hs).2⟩

/-- A run fails at the first action that is not enabled. -/
theorem run_eq_none_iff {s : σ} {acts : List α} : Core.run step s acts = none ↔
    ∃ front a back s', acts = front ++ a :: back ∧ Core.run step s front = some s' ∧
      step s' a = none := by
  induction acts generalizing s with
  | nil => simp [Core.run]
  | cons a rest ih =>
    cases hs : step s a with
    | none =>
      rw [Core.run, hs]
      exact iff_of_true rfl ⟨[], a, rest, s, rfl, rfl, hs⟩
    | some s₁ =>
      rw [run_cons_of_eq hs, ih]
      constructor
      · rintro ⟨front, b, back, s', rfl, hfront, hb⟩
        exact ⟨a :: front, b, back, s', rfl, (run_cons_of_eq hs front).trans hfront, hb⟩
      · rintro ⟨front, b, back, s', hacts, hfront, hb⟩
        cases front with
        | nil =>
          obtain ⟨rfl, rfl⟩ := List.cons.inj hacts
          obtain rfl : s = s' := Option.some.inj hfront
          rw [hs] at hb
          cases hb
        | cons c front =>
          obtain ⟨rfl, rfl⟩ := List.cons.inj hacts
          exact ⟨front, b, back, s', rfl, (run_cons_of_eq hs front).symm.trans hfront, hb⟩

/-- A party that takes the next `n` steps gets from `s` to `s'`, whatever its actions are. -/
def Advances (step : σ → α → Option σ) (own : α → Prop) (n : Nat) (s s' : σ) : Prop :=
  ∀ acts : List α, acts.length = n → (∀ a ∈ acts, own a) → Core.run step s acts = some s'

namespace Advances

variable {own : α → Prop} {m n : Nat} {s s₁ s' : σ}

theorem refl : Advances step own 0 s s := by
  intro acts hlen _
  rw [List.eq_nil_of_length_eq_zero hlen]
  rfl

theorem head (hs : ∀ a, own a → step s a = some s₁) (h : Advances step own n s₁ s') :
    Advances step own (n + 1) s s' := by
  intro acts hlen hown
  obtain ⟨a, rest, rfl⟩ := List.exists_cons_of_length_eq_add_one hlen
  rw [run_cons_of_eq (hs a (hown a List.mem_cons_self))]
  exact h rest (Nat.succ.inj hlen) fun b hb => hown b (List.mem_cons_of_mem a hb)

theorem single (hs : ∀ a, own a → step s a = some s') : Advances step own 1 s s' := head hs refl

theorem trans (h : Advances step own m s s₁) (h' : Advances step own n s₁ s') :
    Advances step own (m + n) s s' := by
  intro acts hlen hown
  have hfirst := h (acts.take m) (by rw [List.length_take]; omega)
    fun a ha => hown a (List.mem_of_mem_take ha)
  have hrest := h' (acts.drop m) (by rw [List.length_drop]; omega)
    fun a ha => hown a (List.mem_of_mem_drop ha)
  rw [← List.take_append_drop m acts, run_append_of_eq hfirst]
  exact hrest

end Advances

/-- The system with notes beside its state, which are taken in every step. -/
def noted {ω : Type*} (step : σ → α → Option σ) (note : ω → σ → α → σ → ω) (p : σ × ω) (a : α) :
    Option (σ × ω) :=
  (step p.1 a).map fun s' => (s', note p.2 p.1 a s')

theorem noted_eq_some_iff {ω : Type*} {note : ω → σ → α → σ → ω} {s s' : σ} {w w' : ω} {a : α} :
    noted step note (s, w) a = some (s', w') ↔ step s a = some s' ∧ w' = note w s a s' := by
  rw [noted, Option.map_eq_some_iff]
  constructor
  · rintro ⟨_, hs, ⟨⟩⟩
    exact ⟨hs, rfl⟩
  · rintro ⟨hs, rfl⟩
    exact ⟨s', hs, rfl⟩

end Core

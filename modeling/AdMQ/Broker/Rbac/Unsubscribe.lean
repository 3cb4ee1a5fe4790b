import AdMQ.Broker.Rbac.Loader

/-!
# The UNSUBSCRIBE check

`rbac_can_unsubscribe` scans the SET array up to the UNSUBSCRIBE count and
accepts at the first difference. It is compared with the UNSUBSCRIBE list of the
resolved role: the two agree exactly when the scanned SET slots happen to answer
as the list does.
-/

namespace AdMQ

open Core

/-- What the UNSUBSCRIBE list of the resolved role grants. -/
def UnsubscribeGranted (policy : Policy) (hostname topic : CStr) : Prop :=
  ∃ r, getRole policy hostname = some r ∧
    (r.unsub.wildcard = true ∨ topic ∈ r.unsub.items.live)

/-- The SET slots that the UNSUBSCRIBE check compares, stale slots included. -/
def Role.scannedKeys (r : Role) : List CStr := r.set.items.slots.take r.unsub.items.count

/-- The resolved role, if any, has the UNSUBSCRIBE wildcard, or its scanned SET slots answer
as its UNSUBSCRIBE list does: some slot differs from a listed topic, and every slot equals
an unlisted one. -/
def UnsubscribeAgrees (policy : Policy) (hostname topic : CStr) : Prop :=
  ∀ r, getRole policy hostname = some r → r.unsub.wildcard = false →
    (topic ∈ r.unsub.items.live → ∃ k ∈ r.scannedKeys, k ≠ topic) ∧
    (topic ∉ r.unsub.items.live → ∀ k ∈ r.scannedKeys, k = topic)

/-- A role without its SET list. -/
def Role.eraseSet (r : Role) : Role := { r with set := .zero }

/-- Two policies that differ only in the SET lists of their roles. -/
def SameExceptSet (p q : Policy) : Prop :=
  p.mappings = q.mappings ∧ p.roles.live.map Role.eraseSet = q.roles.live.map Role.eraseSet

theorem rbacCanUnsubscribe_iff (policy : Policy) (hostname topic : CStr) :
    rbacCanUnsubscribe policy hostname topic = true ↔
      ∃ r, getRole policy hostname = some r ∧
        (r.unsub.wildcard = true ∨ ∃ k ∈ r.scannedKeys, k ≠ topic) := by
  unfold rbacCanUnsubscribe Role.scannedKeys
  cases getRole policy hostname <;> simp

/-- Looking a role up by name does not read its SET list. -/
theorem find?_eraseSet (name : CStr) (rs : List Role) :
    (rs.map Role.eraseSet).find? (fun r => r.name == name) =
      (rs.find? (fun r => r.name == name)).map Role.eraseSet := by
  rw [List.find?_map]
  rfl

/-- Policies that differ only in SET lists resolve every host to roles that do so too. -/
theorem SameExceptSet.getRole_eraseSet {p q : Policy} (h : SameExceptSet p q) (hostname : CStr) :
    (getRole p hostname).map Role.eraseSet = (getRole q hostname).map Role.eraseSet := by
  have ht : targetRole p hostname = targetRole q hostname := by
    simp only [targetRole, h.1]
  simp only [getRole, ← find?_eraseSet, h.2, ht]

/-- Hence the UNSUBSCRIBE lists they grant from are the same. -/
theorem SameExceptSet.granted_iff {p q : Policy} (h : SameExceptSet p q) (hostname topic : CStr) :
    UnsubscribeGranted p hostname topic ↔ UnsubscribeGranted q hostname topic := by
  have he := h.getRole_eraseSet hostname
  unfold UnsubscribeGranted
  cases hp : getRole p hostname with
  | none =>
    have hq : getRole q hostname = none := by simpa [hp] using he.symm
    simp [hq]
  | some r =>
    cases hq : getRole q hostname with
    | none => simp [hp, hq] at he
    | some r' =>
      have hr : r.eraseSet = r'.eraseSet := by simpa [hp, hq] using he
      have hu : r.eraseSet.unsub = r'.eraseSet.unsub := by rw [hr]
      change r.unsub = r'.unsub at hu
      simp [hu]

/-- The UNSUBSCRIBE check follows the UNSUBSCRIBE list exactly under agreement. -/
theorem rbacCanUnsubscribe_granted_iff (policy : Policy) (hostname topic : CStr) :
    (rbacCanUnsubscribe policy hostname topic = true ↔ UnsubscribeGranted policy hostname topic) ↔
      UnsubscribeAgrees policy hostname topic := by
  rw [rbacCanUnsubscribe_iff]
  unfold UnsubscribeGranted UnsubscribeAgrees
  cases getRole policy hostname with
  | none => simp
  | some r =>
    cases hw : r.unsub.wildcard with
    | true => simp [hw]
    | false =>
      simp only [Option.some.injEq, exists_eq_left', hw, Bool.false_eq_true, false_or,
        forall_eq', forall_const]
      constructor
      · intro h
        refine ⟨h.mpr, ?_⟩
        intro hn k hk
        by_contra hne
        exact hn (h.mp ⟨k, hk, hne⟩)
      · rintro ⟨hyes, hno⟩
        refine ⟨fun ⟨k, hk, hne⟩ => ?_, hyes⟩
        by_contra hn
        exact hne (hno hn k hk)

/-- The check answers from the UNSUBSCRIBE list exactly when the scanned SET slots happen to
agree with it, and two policies that agree and differ only in SET lists answer alike. -/
theorem rbacCanUnsubscribe_correct_iff (policy : Policy) (hostname topic : CStr) :
    ((rbacCanUnsubscribe policy hostname topic = true ↔
        UnsubscribeGranted policy hostname topic) ↔
      UnsubscribeAgrees policy hostname topic) ∧
    ∀ other, SameExceptSet policy other → UnsubscribeAgrees policy hostname topic →
      UnsubscribeAgrees other hostname topic →
      rbacCanUnsubscribe policy hostname topic = rbacCanUnsubscribe other hostname topic := by
  refine ⟨rbacCanUnsubscribe_granted_iff policy hostname topic, ?_⟩
  intro other hsame hp hq
  rw [Bool.eq_iff_iff, (rbacCanUnsubscribe_granted_iff policy hostname topic).mpr hp,
    (rbacCanUnsubscribe_granted_iff other hostname topic).mpr hq]
  exact hsame.granted_iff hostname topic

instance (policy : Policy) (hostname topic : CStr) :
    Decidable (UnsubscribeGranted policy hostname topic) :=
  decidable_of_iff ((getRole policy hostname).any
      (fun r => r.unsub.wildcard || decide (topic ∈ r.unsub.items.live)) = true) (by
    simp [UnsubscribeGranted, Option.any_eq_true])

instance (p q : Policy) : Decidable (SameExceptSet p q) :=
  inferInstanceAs (Decidable (_ ∧ _))

/-- A role that may unsubscribe from one topic only, and has one SET key. -/
def userKeyText : List UInt8 := ascii "[role:DEFAULT]\nUNSUBSCRIBE = news\nSET = user\n"

/-- The same role with another SET key. -/
def alarmKeyText : List UInt8 := ascii "[role:DEFAULT]\nUNSUBSCRIBE = news\nSET = alarm\n"

/-- A topic outside the UNSUBSCRIBE list is granted, and replacing the SET key by that topic
turns the answer around. -/
theorem rbacCanUnsubscribe_reads_set :
    ¬ (rbacCanUnsubscribe (loadPolicy userKeyText) (ascii "desk") (ascii "alarm") = true ↔
      UnsubscribeGranted (loadPolicy userKeyText) (ascii "desk") (ascii "alarm")) ∧
    SameExceptSet (loadPolicy userKeyText) (loadPolicy alarmKeyText) ∧
    rbacCanUnsubscribe (loadPolicy userKeyText) (ascii "desk") (ascii "alarm") ≠
      rbacCanUnsubscribe (loadPolicy alarmKeyText) (ascii "desk") (ascii "alarm") := by
  decide

end AdMQ

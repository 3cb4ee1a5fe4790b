import AdMQ.Core.CString
import AdMQ.Core.Slots

/-!
# The role and mapping tables of the broker and the permission checks

The tables are the static arrays of `rbac.c`. A permission list keeps its whole
item array, because the check for UNSUBSCRIBE reads the SET array up to the
UNSUBSCRIBE count and so can reach items that are not in use. The four checks
are stated as the source writes them; three of them are one scan of one list.
-/

namespace AdMQ

open Core

/-- `MAX_ROLES`. -/
def maxRoles : Nat := 20

/-- `MAX_TOPICS` of `rbac.c`: the capacity of one permission list. -/
def maxItems : Nat := 20

/-- `MAX_MAPPINGS`. -/
def maxMappings : Nat := 50

/-- One permission list: the item array with its count, and the wildcard flag. -/
structure Permission where
  /-- `sub_topics`, `unsub_topics`, `pub_topics` or `set_keys`, with the matching count. -/
  items : Slots CStr maxItems
  /-- Set when the list contains `*`. -/
  wildcard : Bool
  deriving DecidableEq

/-- A list as `memset` leaves it. -/
def Permission.zero : Permission := ⟨Slots.empty maxItems [], false⟩

/-- `Role`: a name and one permission list for each protected command. -/
structure Role where
  name : CStr
  sub : Permission
  unsub : Permission
  pub : Permission
  set : Permission
  deriving DecidableEq

/-- A role as `memset` leaves it, with its name copied in. -/
def Role.zero (name : CStr) : Role := ⟨name, .zero, .zero, .zero, .zero⟩

/-- `Mapping`: a hostname pattern and the role it selects. -/
structure Mapping where
  pattern : CStr
  roleName : CStr
  deriving DecidableEq

/-- The loaded tables `roles` and `mappings`. -/
structure Policy where
  roles : Slots Role maxRoles
  mappings : Slots Mapping maxMappings
  deriving DecidableEq

/-- The static tables before any file is loaded. -/
def Policy.empty : Policy :=
  ⟨Slots.empty maxRoles (Role.zero []), Slots.empty maxMappings ⟨[], []⟩⟩

/-- `match_pattern`. -/
def matchPattern (pattern str : CStr) : Bool :=
  let len := pattern.length
  if len = 0 then false
  else if pattern = ascii "*" then true
  else if pattern[len - 1]? = some (byte '*') then
    pattern.take (len - 1) == str.take (len - 1)
  else pattern == str

/-- The role name that `get_role` looks for: the first matching mapping decides. -/
def targetRole (policy : Policy) (hostname : CStr) : CStr :=
  match policy.mappings.live.find? (fun m => matchPattern m.pattern hostname) with
  | some m => m.roleName.take 63
  | none => ascii "DEFAULT"

/-- `get_role`. -/
def getRole (policy : Policy) (hostname : CStr) : Option Role :=
  policy.roles.live.find? (fun r => r.name == targetRole policy hostname)

/-- The scan shared by three of the checks: the wildcard, or an equal item in use. -/
def Permission.allows (p : Permission) (topic : CStr) : Bool :=
  p.wildcard || p.items.live.any (· == topic)

/-- A check that resolves the role and scans one of its lists. -/
def rbacCan (list : Role → Permission) (policy : Policy) (hostname topic : CStr) : Bool :=
  match getRole policy hostname with
  | none => false
  | some r => (list r).allows topic

/-- `rbac_can_subscribe`. -/
def rbacCanSubscribe (policy : Policy) (hostname topic : CStr) : Bool :=
  rbacCan Role.sub policy hostname topic

/-- `rbac_can_publish`. -/
def rbacCanPublish (policy : Policy) (hostname topic : CStr) : Bool :=
  rbacCan Role.pub policy hostname topic

/-- `rbac_can_set`. -/
def rbacCanSet (policy : Policy) (hostname key : CStr) : Bool :=
  rbacCan Role.set policy hostname key

/-- `rbac_can_unsubscribe`: unlike its siblings it compares the SET array, up to the
UNSUBSCRIBE count, and answers yes at the first item that differs from the topic. -/
def rbacCanUnsubscribe (policy : Policy) (hostname topic : CStr) : Bool :=
  match getRole policy hostname with
  | none => false
  | some r => r.unsub.wildcard || (r.set.items.slots.take r.unsub.items.count).any (· != topic)

/-- A list allows exactly the topics it holds, or every topic under the wildcard. -/
theorem Permission.allows_iff (p : Permission) (topic : CStr) :
    p.allows topic = true ↔ p.wildcard = true ∨ topic ∈ p.items.live := by
  simp [Permission.allows]

/-- A shared-scan check grants exactly when the resolved role's list allows the topic. -/
theorem rbacCan_iff (list : Role → Permission) (policy : Policy) (hostname topic : CStr) :
    rbacCan list policy hostname topic = true ↔
      ∃ r, getRole policy hostname = some r ∧ (list r).allows topic = true := by
  unfold rbacCan
  cases getRole policy hostname <;> simp

end AdMQ

import AdMQ.Broker.Rbac.Table
import AdMQ.Ini.Lines

/-!
# Loading the policy file

`rbac_init` reads the file with `fgets` into a 512-byte buffer, trims each block
and dispatches on its first byte. Two variables survive from line to line: the
`parsing_map` flag and the pointer to the role whose keys are being read. A
header line that declares no section leaves the pointer where it was.
-/

namespace AdMQ

open Core

/-- The loop of `parse_list` over the remaining tokens. -/
def parseTokens : List CStr → Permission → Permission
  | [], p => p
  | token :: rest, p =>
    if h : p.items.count < maxItems then
      let trimmed := trimWhitespace token
      if trimmed = ascii "*" then parseTokens rest { p with wildcard := true }
      else if 0 < trimmed.length then
        parseTokens rest { p with items := p.items.push (trimmed.take 63) h }
      else parseTokens rest p
    else p

/-- `parse_list`: the count and the wildcard are reset, the stored items are not. -/
def parseList (listStr : CStr) (p : Permission) : Permission :=
  parseTokens (strtok (byte ',') listStr) ⟨p.items.clear, false⟩

/-- The assignment of one key line to the list it names. -/
def Role.assign (r : Role) (key val : CStr) : Role :=
  if key = ascii "SUBSCRIBE" then { r with sub := parseList val r.sub }
  else if key = ascii "UNSUBSCRIBE" then { r with unsub := parseList val r.unsub }
  else if key = ascii "PUBLISH" then { r with pub := parseList val r.pub }
  else if key = ascii "SET" then { r with set := parseList val r.set }
  else r

/-- The variables of `rbac_init` between two lines. -/
structure Loader where
  policy : Policy
  /-- `parsing_map`. -/
  parsingMap : Bool
  /-- `current_role`, as an index into the role table. -/
  currentRole : Option Nat
  deriving DecidableEq

/-- The name of a `[role:NAME]` header, if its bracket is closed. -/
def roleHeader? (trimmed : CStr) : Option CStr :=
  if trimmed.take 6 = ascii "[role:" ∧ byte ']' ∈ trimmed then
    some ((trimmed.takeWhile (· != byte ']')).drop 6)
  else none

/-- The header branch of `rbac_init`. -/
def Loader.header (l : Loader) (trimmed : CStr) : Loader :=
  if trimmed.take 6 = ascii "[role:" then
    match roleHeader? trimmed with
    | some name =>
      if h : l.policy.roles.count < maxRoles then
        { policy := { l.policy with roles := l.policy.roles.push (Role.zero (name.take 63)) h }
          parsingMap := false
          currentRole := some l.policy.roles.count }
      else { l with parsingMap := false }
    | none => { l with parsingMap := false }
  else if trimmed = ascii "[map]" then { l with parsingMap := true, currentRole := none }
  else l

/-- Store a key line in the role that `current_role` points to. -/
def Loader.assignCurrent (l : Loader) (key val : CStr) : Loader :=
  match l.currentRole with
  | none => l
  | some i =>
    match l.policy.roles.slots[i]? with
    | none => l
    | some r =>
      { l with policy := { l.policy with roles := l.policy.roles.put i (r.assign key val) } }

/-- The key-value branch of `rbac_init`. -/
def Loader.keyLine (l : Loader) (trimmed : CStr) : Loader :=
  match keyValue? trimmed with
  | none => l
  | some (key, val) =>
    if l.parsingMap then
      if h : l.policy.mappings.count < maxMappings then
        { l with policy := { l.policy with
          mappings := l.policy.mappings.push ⟨key.take 127, val.take 63⟩ h } }
      else l.assignCurrent key val
    else l.assignCurrent key val

/-- Blank lines and comments are skipped. -/
def isSkipped (trimmed : CStr) : Bool := trimmed.isEmpty || trimmed.head? == some (byte ';')

/-- One pass of the loop of `rbac_init` over a trimmed line. -/
def Loader.line (l : Loader) (trimmed : CStr) : Loader :=
  if isSkipped trimmed then l
  else if isHeader trimmed then l.header trimmed
  else l.keyLine trimmed

/-- `rbac_init`; a file that cannot be opened leaves the tables as they are. -/
def rbacInit (policy : Policy) : Option (List UInt8) → Policy
  | none => policy
  | some text => ((readLines text).foldl Loader.line ⟨policy, false, none⟩).policy

/-- The tables after the broker has loaded a policy text at start-up. -/
def loadPolicy (text : List UInt8) : Policy := rbacInit .empty (some text)

end AdMQ

import AdMQ.Core.Atoi
import AdMQ.Ini.Settings

/-!
# The configurations of the broker and of the agent

`config_load` and `agent_config_load` fill a structure that their caller has on the
stack, so its arrays hold arbitrary bytes before. The defaults are copied first and the
settings of the file over them.
-/

namespace AdMQ

open Core

/-- The arrays are one byte longer than their copies. -/
structure BrokerConfig where
  vaultPort : Int
  lobbyPort : Int
  certPath : CharArray 255
  keyPath : CharArray 255
  caPath : CharArray 255
  dbPath : CharArray 255

/-- The defaults of `config_load`, over what the storage holds. -/
def BrokerConfig.defaults (c : BrokerConfig) : BrokerConfig where
  vaultPort := 35565
  lobbyPort := 35566
  certPath := c.certPath.copy (ascii "certs/server.crt")
  keyPath := c.keyPath.copy (ascii "certs/server.key")
  caPath := c.caPath.copy (ascii "certs/ca.crt")
  dbPath := c.dbPath.copy (ascii "broker_audit.db")

/-- Map a key to a field. -/
def BrokerConfig.assign (c : BrokerConfig) (key val : CStr) : BrokerConfig :=
  if key = ascii "vault_port" then { c with vaultPort := atoi val }
  else if key = ascii "lobby_port" then { c with lobbyPort := atoi val }
  else if key = ascii "cert_path" then { c with certPath := c.certPath.copy val }
  else if key = ascii "key_path" then { c with keyPath := c.keyPath.copy val }
  else if key = ascii "ca_path" then { c with caPath := c.caPath.copy val }
  else if key = ascii "db_path" then { c with dbPath := c.dbPath.copy val }
  else c

/-- `config_load`. -/
def configLoad (file : Option (List UInt8)) (config : BrokerConfig) : Bool × BrokerConfig :=
  loadSettings BrokerConfig.assign config.defaults file

structure AgentConfig where
  brokerIp : CharArray 63
  brokerPort : Int
  certPath : CharArray 255
  keyPath : CharArray 255
  caPath : CharArray 255
  commandGroup : CharArray 63
  actionDir : CharArray 255

/-- The defaults of `agent_config_load`, over what the storage holds. -/
def AgentConfig.defaults (c : AgentConfig) : AgentConfig where
  brokerIp := c.brokerIp.copy (ascii "127.0.0.1")
  brokerPort := 35565
  certPath := c.certPath.copy (ascii "certs/client.crt")
  keyPath := c.keyPath.copy (ascii "certs/client.key")
  caPath := c.caPath.copy (ascii "certs/ca.crt")
  commandGroup := c.commandGroup.copy (ascii "CMD-GRP-1")
  actionDir := c.actionDir.copy (ascii "./actions")

/-- Map a key to a field. -/
def AgentConfig.assign (c : AgentConfig) (key val : CStr) : AgentConfig :=
  if key = ascii "broker_ip" then { c with brokerIp := c.brokerIp.copy val }
  else if key = ascii "broker_port" then { c with brokerPort := atoi val }
  else if key = ascii "cert_path" then { c with certPath := c.certPath.copy val }
  else if key = ascii "key_path" then { c with keyPath := c.keyPath.copy val }
  else if key = ascii "ca_path" then { c with caPath := c.caPath.copy val }
  else if key = ascii "command_group" then { c with commandGroup := c.commandGroup.copy val }
  else if key = ascii "action_dir" then { c with actionDir := c.actionDir.copy val }
  else c

/-- `agent_config_load`. -/
def agentConfigLoad (file : Option (List UInt8)) (config : AgentConfig) : Bool × AgentConfig :=
  loadSettings AgentConfig.assign config.defaults file

/-! ## What the fields hold after a load -/

/-- An array of a configuration with its key and its default. -/
structure StringField (σ : Type) where
  key : CStr
  default : CStr
  size : Nat
  get : σ → CharArray size

/-- A number of a configuration with its key and its default. -/
structure NumberField (σ : Type) where
  key : CStr
  default : Int
  get : σ → Int

def brokerStrings : List (StringField BrokerConfig) :=
  [⟨ascii "cert_path", ascii "certs/server.crt", 255, BrokerConfig.certPath⟩,
    ⟨ascii "key_path", ascii "certs/server.key", 255, BrokerConfig.keyPath⟩,
    ⟨ascii "ca_path", ascii "certs/ca.crt", 255, BrokerConfig.caPath⟩,
    ⟨ascii "db_path", ascii "broker_audit.db", 255, BrokerConfig.dbPath⟩]

def brokerNumbers : List (NumberField BrokerConfig) :=
  [⟨ascii "vault_port", 35565, BrokerConfig.vaultPort⟩,
    ⟨ascii "lobby_port", 35566, BrokerConfig.lobbyPort⟩]

def agentStrings : List (StringField AgentConfig) :=
  [⟨ascii "broker_ip", ascii "127.0.0.1", 63, AgentConfig.brokerIp⟩,
    ⟨ascii "cert_path", ascii "certs/client.crt", 255, AgentConfig.certPath⟩,
    ⟨ascii "key_path", ascii "certs/client.key", 255, AgentConfig.keyPath⟩,
    ⟨ascii "ca_path", ascii "certs/ca.crt", 255, AgentConfig.caPath⟩,
    ⟨ascii "command_group", ascii "CMD-GRP-1", 63, AgentConfig.commandGroup⟩,
    ⟨ascii "action_dir", ascii "./actions", 255, AgentConfig.actionDir⟩]

def agentNumbers : List (NumberField AgentConfig) :=
  [⟨ascii "broker_port", 35565, AgentConfig.brokerPort⟩]

/-- The field belongs to its key alone, and its default is copied over the storage. -/
structure StringField.Assigned {σ : Type} (f : StringField σ) (assign : σ → CStr → CStr → σ)
    (defaults : σ → σ) : Prop where
  own : ∀ c v, f.get (assign c f.key v) = (f.get c).copy v
  other : ∀ c k v, k ≠ f.key → f.get (assign c k v) = f.get c
  get_defaults : ∀ c, f.get (defaults c) = (f.get c).copy f.default

structure NumberField.Assigned {σ : Type} (f : NumberField σ) (assign : σ → CStr → CStr → σ)
    (defaults : σ → σ) : Prop where
  own : ∀ c v, f.get (assign c f.key v) = atoi v
  other : ∀ c k v, k ≠ f.key → f.get (assign c k v) = f.get c
  get_defaults : ∀ c, f.get (defaults c) = f.default

/-- A string field holds the last value of its key in the file, or its default. -/
theorem StringField.Assigned.get_load {σ : Type} {f : StringField σ}
    {assign : σ → CStr → CStr → σ} {defaults : σ → σ} (h : f.Assigned assign defaults) (c : σ)
    (file : Option (List UInt8)) : f.get (loadSettings assign (defaults c) file).2 =
      (f.get c).copy (settingOr f.key f.default file) :=
  get_load_array h.own h.other (h.get_defaults c) file

/-- A number field holds the last value of its key as `atoi` reads it, or its default. -/
theorem NumberField.Assigned.get_load {σ : Type} {f : NumberField σ}
    {assign : σ → CStr → CStr → σ} {defaults : σ → σ} (h : f.Assigned assign defaults) (c : σ)
    (file : Option (List UInt8)) : f.get (loadSettings assign (defaults c) file).2 =
      ((lastValue f.key (fileSettings file)).map atoi).getD f.default := by
  rw [get_load_number h.own h.other, h.get_defaults]

/-- A field keeps its value over a chain of comparisons if each branch keeps it. -/
theorem get_ite {σ α : Type*} {get : σ → α} {p : Prop} [Decidable p] {a b : σ} {x : α}
    (ha : p → get a = x) (hb : get b = x) : get (if p then a else b) = x := by
  split
  · next h => exact ha h
  · exact hb

/-- The chain of comparisons of the broker reaches each of its string fields by its own key. -/
theorem brokerStrings_assigned :
    ∀ f ∈ brokerStrings, f.Assigned BrokerConfig.assign BrokerConfig.defaults := by
  intro f hf
  simp only [brokerStrings, List.mem_cons, List.not_mem_nil, or_false] at hf
  rcases hf with rfl | rfl | rfl | rfl
  all_goals
    refine ⟨fun c v => rfl, fun c k v hk => ?_, fun c => rfl⟩
    unfold BrokerConfig.assign
    repeat' refine get_ite (fun hkey => ?_) ?_
    all_goals first | rfl | exact absurd hkey hk

/-- So it does for the number fields. -/
theorem brokerNumbers_assigned :
    ∀ f ∈ brokerNumbers, f.Assigned BrokerConfig.assign BrokerConfig.defaults := by
  intro f hf
  simp only [brokerNumbers, List.mem_cons, List.not_mem_nil, or_false] at hf
  rcases hf with rfl | rfl
  all_goals
    refine ⟨fun c v => rfl, fun c k v hk => ?_, fun c => rfl⟩
    unfold BrokerConfig.assign
    repeat' refine get_ite (fun hkey => ?_) ?_
    all_goals first | rfl | exact absurd hkey hk

/-- The chain of comparisons of the agent reaches each of its string fields by its own key. -/
theorem agentStrings_assigned :
    ∀ f ∈ agentStrings, f.Assigned AgentConfig.assign AgentConfig.defaults := by
  intro f hf
  simp only [agentStrings, List.mem_cons, List.not_mem_nil, or_false] at hf
  rcases hf with rfl | rfl | rfl | rfl | rfl | rfl
  all_goals
    refine ⟨fun c v => rfl, fun c k v hk => ?_, fun c => rfl⟩
    unfold AgentConfig.assign
    repeat' refine get_ite (fun hkey => ?_) ?_
    all_goals first | rfl | exact absurd hkey hk

theorem agentNumbers_assigned :
    ∀ f ∈ agentNumbers, f.Assigned AgentConfig.assign AgentConfig.defaults := by
  intro f hf
  obtain rfl := List.mem_singleton.mp hf
  refine ⟨fun c v => rfl, fun c k v hk => ?_, fun c => rfl⟩
  unfold AgentConfig.assign
  repeat' refine get_ite (fun hkey => ?_) ?_
  all_goals first | rfl | exact absurd hkey hk

end AdMQ

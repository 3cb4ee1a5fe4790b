import AdMQ.Broker.Client.Calls

/-!
# Registering the name of a certificate

`client_set_hostname` stores a name twice: whole as a key of the map, and cut to the
hostname field, which nothing terminates. The keys share one space with the descriptor
keys. The two copies agree, no other client is touched and a later removal leaves
nothing behind exactly for names that fit the field, that are not the descriptor key of
another client and that are the only name of the client.

The removal may come after other calls, as long as these leave the client alone: none of
them finds it, and none gives its descriptor key to somebody else.
-/

namespace AdMQ

open Core

namespace Connections

variable {s s' : Connections} {fd : Int} {c : ConnId} {hostname : CStr}

/-- A call that leaves the client of a descriptor alone: it does not find the client, and it gives
the key of the descriptor to nobody. -/
def Spares (fd : Int) (c : ConnId) (s : Connections) : RegistryCall → Prop
  | .add n _ _ => n ≠ fd
  | .setHostname n hostname => s.registry.byFd n ≠ some c ∧ hostname ≠ fdKey fd
  | .remove n => s.registry.byFd n ≠ some c

/-- What the call is to achieve for the client of a descriptor: the field and the map agree on
the name, the descriptors of other clients lead where they did, and a removal, also one behind
other calls that leave the client alone, leaves no entry of the client. -/
structure Identifies (s s' : Connections) (fd : Int) (c : ConnId) (hostname : CStr) : Prop where
  field : (s'.client c).hostname = hostname ∧ (s'.client c).hostname.length ≤ 127
  lookup : s'.registry.byHostname hostname = some c
  others : ∀ n d, d ≠ c → (s'.registry.byFd n = some d ↔ s.registry.byFd n = some d)
  removal : ∀ s₁ s₂, Reaches step (Spares fd c) s' s₁ → s₁.step (.remove fd) = some s₂ →
    ∀ key, s₂.registry.clientsMap.get key ≠ some c

/-- The names for which it does, in a given state. -/
structure Suits (s : Connections) (fd : Int) (c : ConnId) (hostname : CStr) : Prop where
  /-- The name ends inside the field. -/
  fits : hostname.length < 127 ∨ hostname.length = 127 ∧ (s.client c).hostnameTail = []
  /-- It is not the descriptor key of another client. -/
  plain : ∀ n d, s.registry.byFd n = some d → d ≠ c → hostname ≠ fdKey n
  /-- The client has no other entry. -/
  only : ∀ key, s.registry.clientsMap.get key = some c → key = fdKey fd ∨ key = hostname

/-! ## The call itself -/

/-- The state after the call for a registered descriptor. -/
theorem named_of_step (hc : s.registry.byFd fd = some c)
    (hs : s.step (.setHostname fd hostname) = some s') :
    s'.client = Function.update s.client c ((s.client c).copyHostname hostname) ∧
      (∀ key, s'.registry.clientsMap.get key =
        if key = hostname then some c else s.registry.clientsMap.get key) ∧
      s'.sections.nextConn = s.sections.nextConn := by
  cases move_of_step hs with
  | nobodyNamed hget =>
    rw [hc] at hget
    cases hget
  | named hget =>
    obtain rfl := Option.some.inj (hc.symm.trans hget)
    exact ⟨rfl, fun key => ChainTable.get_set .., rfl⟩

/-- Whatever the name, the descriptor still leads to the client. -/
theorem byFd_of_named (hc : s.registry.byFd fd = some c)
    (hs : s.step (.setHostname fd hostname) = some s') : s'.registry.byFd fd = some c := by
  refine ((named_of_step hc hs).2.1 (fdKey fd)).trans ?_
  split
  · rfl
  · exact hc

/-- The map after a removal of a registered descriptor. -/
theorem get_of_removed (hc : s.registry.byFd fd = some c) (hs : s.step (.remove fd) = some s')
    (key : CStr) : s'.registry.clientsMap.get key =
      if key = fdKey fd ∨ key = (s.client c).hostname ∧ key ≠ [] ∧
        s.registry.clientsMap.get key = some c
      then none else s.registry.clientsMap.get key := by
  cases move_of_step hs with
  | nobodyRemoved hget =>
    rw [hc] at hget
    cases hget
  | removed hget =>
    obtain rfl := Option.some.inj (hc.symm.trans hget)
    exact s.registry.get_dropEntries fd c key

/-- The field holds the name and its end exactly if the name leaves room for the terminator, or
finds one behind it. -/
theorem copyHostname_eq_iff (k : Client) (hostname : CStr) :
    (k.copyHostname hostname).hostname = hostname ∧
        (k.copyHostname hostname).hostname.length ≤ 127 ↔
      hostname.length < 127 ∨ hostname.length = 127 ∧ k.hostnameTail = [] := by
  by_cases hlen : hostname.length < 127
  · rw [k.hostname_copyHostname hlen]
    simp [hlen, Nat.le_of_lt hlen]
  · have hfield : (k.copyHostname hostname).hostname = hostname.take 127 ++ k.hostnameTail :=
      if_neg hlen
    have htake : (hostname.take 127).length = 127 := List.length_take_of_le (by omega)
    rw [hfield]
    constructor
    · rintro ⟨heq, hle⟩
      have htail : k.hostnameTail.length = 0 := by
        rw [List.length_append, htake] at hle
        omega
      have hlength := congrArg List.length heq
      rw [List.length_append, htake, htail] at hlength
      exact Or.inr ⟨hlength.symm, List.length_eq_zero_iff.mp htail⟩
    · rintro (hlt | ⟨hlength, htail⟩)
      · exact absurd hlt hlen
      · rw [htail, List.append_nil, List.take_of_length_le (by omega)]
        exact ⟨rfl, by omega⟩

/-! ## Until the removal -/

/-- The entries of a client that has one name. -/
structure HasOneName (s : Connections) (fd : Int) (c : ConnId) (hostname : CStr) : Prop where
  made : c < s.sections.nextConn
  byFd : s.registry.byFd fd = some c
  field : (s.client c).hostname = hostname
  entries : ∀ key, s.registry.clientsMap.get key = some c → key = fdKey fd ∨ key = hostname

/-- Calls that leave the client alone leave it its entries. -/
theorem HasOneName.step (h : s.HasOneName fd c hostname) {call : RegistryCall}
    (hcall : Spares fd c s call) (hs : s.step call = some s') : s'.HasOneName fd c hostname := by
  cases move_of_step hs with
  | add n now junk =>
    have hne : c ≠ s.sections.nextConn := Nat.ne_of_lt h.made
    have hget := s.sections.registry.get_add s.sections.nextConn (.new n now junk)
    refine ⟨Nat.lt_succ_of_lt h.made, ?_, ?_, ?_⟩
    · have hkey : fdKey fd ≠ fdKey n := fun heq => hcall (fdKey_injective heq).symm
      exact (hget (fdKey fd)).trans ((if_neg hkey).trans h.byFd)
    · exact (congrArg Client.hostname (Registry.client_add_of_ne _ hne _)).trans h.field
    · intro key hkey
      have hkey' := (hget key).symm.trans hkey
      split at hkey'
      · exact absurd (Option.some.inj hkey').symm hne
      · exact h.entries key hkey'
  | nobodyNamed hget => exact ⟨h.made, h.byFd, h.field, h.entries⟩
  | @named n name d hget =>
    obtain ⟨hother, hname⟩ := hcall
    have hne : d ≠ c := by
      rintro rfl
      exact hother hget
    have hset (key : CStr) := ChainTable.get_set s.sections.registry.clientsMap name d key
    refine ⟨h.made, ?_, ?_, ?_⟩
    · exact (hset (fdKey fd)).trans ((if_neg hname.symm).trans h.byFd)
    · exact (congrArg Client.hostname (Function.update_of_ne hne.symm ..)).trans h.field
    · intro key hkey
      have hkey' := (hset key).symm.trans hkey
      split at hkey'
      · exact absurd (Option.some.inj hkey') hne
      · exact h.entries key hkey'
  | nobodyRemoved hget => exact ⟨h.made, h.byFd, h.field, h.entries⟩
  | @removed n d hget =>
    have hne : d ≠ c := by
      rintro rfl
      exact hcall hget
    refine ⟨h.made, ?_, ?_, ?_⟩
    · have hdrop := Registry.get_dropEntries s.sections.registry n d (fdKey fd)
      refine hdrop.trans ((if_neg ?_).trans h.byFd)
      rintro (heq | ⟨-, -, hlead⟩)
      · rw [fdKey_injective heq] at h
        exact hcall h.byFd
      · exact hne (Option.some.inj (hlead.symm.trans h.byFd))
    · exact (congrArg Client.hostname (Registry.client_modify_of_ne _ hne.symm _)).trans h.field
    · intro key hkey
      exact h.entries key (Registry.get_of_get_dropEntries hkey)

theorem HasOneName.of_reaches (h : s.HasOneName fd c hostname)
    (hs : Reaches Connections.step (Spares fd c) s s') : s'.HasOneName fd c hostname := by
  induction hs with
  | start => exact h
  | next _ hcall hstep ih => exact ih.step hcall hstep

/-- Its removal leaves nothing behind. -/
theorem HasOneName.remove (h : s.HasOneName fd c hostname) (hne : hostname ≠ [])
    (hs : s.step (.remove fd) = some s') (key : CStr) :
    s'.registry.clientsMap.get key ≠ some c := by
  rw [get_of_removed h.byFd hs]
  split
  · intro hnone
    cases hnone
  · next hkeep =>
    intro hkey
    refine hkeep ((h.entries key hkey).imp_right ?_)
    rintro rfl
    exact ⟨h.field.symm, hne, hkey⟩

/-! ## The names that suit -/

theorem Suits.hasOneName (h : s.Suits fd c hostname) (hc : s.registry.byFd fd = some c)
    (hmade : c < s.sections.nextConn) (hs : s.step (.setHostname fd hostname) = some s') :
    s'.HasOneName fd c hostname := by
  obtain ⟨hclient, hget, hnext⟩ := named_of_step hc hs
  refine ⟨hnext ▸ hmade, ?_, ?_, ?_⟩
  · exact byFd_of_named hc hs
  · rw [hclient, Function.update_self]
    exact ((copyHostname_eq_iff _ _).mpr h.fits).1
  · intro key hkey
    rw [hget] at hkey
    split at hkey
    · exact Or.inr ‹_›
    · exact h.only key hkey

theorem Suits.identifies (h : s.Suits fd c hostname) (hc : s.registry.byFd fd = some c)
    (hmade : c < s.sections.nextConn) (hne : hostname ≠ [])
    (hs : s.step (.setHostname fd hostname) = some s') : Identifies s s' fd c hostname := by
  obtain ⟨hclient, hget, -⟩ := named_of_step hc hs
  refine ⟨?_, (hget hostname).trans (if_pos rfl), ?_, ?_⟩
  · rw [hclient, Function.update_self]
    exact (copyHostname_eq_iff _ _).mpr h.fits
  · intro n d hd
    rw [Registry.byFd, hget]
    by_cases hkey : fdKey n = hostname
    · -- Such a descriptor leads to no other client before, and to this one afterwards.
      rw [if_pos hkey]
      refine iff_of_false (fun heq => hd (Option.some.inj heq).symm) fun hn => ?_
      exact h.plain n d hn hd hkey.symm
    · rw [if_neg hkey]
      rfl
  · intro s₁ s₂ hreach hremove
    exact ((h.hasOneName hc hmade hs).of_reaches hreach).remove hne hremove

/-- A name that is the descriptor key of another client takes the descriptor from it. -/
theorem Identifies.plain (h : Identifies s s' fd c hostname) (n : Int) (d : ConnId)
    (hn : s.registry.byFd n = some d) (hd : d ≠ c) : hostname ≠ fdKey n := by
  rintro rfl
  have hkept := (h.others n d hd).mpr hn
  exact hd (Option.some.inj (hkept.symm.trans h.lookup))

/-- An older name of the client survives the removal. -/
theorem Identifies.only (h : Identifies s s' fd c hostname) (hc : s.registry.byFd fd = some c)
    (hs : s.step (.setHostname fd hostname) = some s') (key : CStr)
    (hkey : s.registry.clientsMap.get key = some c) : key = fdKey fd ∨ key = hostname := by
  by_contra hother
  rw [not_or] at hother
  obtain ⟨-, hget, -⟩ := named_of_step hc hs
  have hbyFd := byFd_of_named hc hs
  obtain ⟨s₂, hs₂⟩ := s'.exists_step (.remove fd)
  refine h.removal s' s₂ .start hs₂ key ?_
  refine (get_of_removed hbyFd hs₂ key).trans ((if_neg ?_).trans ?_)
  · rintro (heq | ⟨heq, -⟩)
    · exact hother.1 heq
    · exact hother.2 (heq.trans h.field.1)
  · exact (hget key).trans ((if_neg hother.2).trans hkey)

/-- In every state and for every name, registering it identifies the client exactly if the name
suits it: field and map agree, nobody else is touched and no removal leaves an entry behind. -/
theorem identifies_iff_suits (s : Connections) (fd : Int) (c : ConnId) (hostname : CStr)
    (hc : s.registry.byFd fd = some c) (hmade : c < s.sections.nextConn) (hne : hostname ≠ []) :
    ∃ s', s.step (.setHostname fd hostname) = some s' ∧
      (Identifies s s' fd c hostname ↔ s.Suits fd c hostname) := by
  obtain ⟨s', hs⟩ := s.exists_step (.setHostname fd hostname)
  refine ⟨s', hs, ?_, fun h => h.identifies hc hmade hne hs⟩
  intro h
  refine ⟨?_, h.plain, h.only hc hs⟩
  have hfield := h.field
  rw [(named_of_step hc hs).1, Function.update_self] at hfield
  exact (copyHostname_eq_iff _ _).mp hfield

/-- The first connection of a device takes its name. -/
theorem identifies_iff_suits_pump :
    ∃ s s', init.step (.add 5 0 .zero) = some s ∧ s.registry.byFd 5 = some 0 ∧
      s.step (.setHostname 5 (ascii "pump")) = some s' ∧ Identifies s s' 5 0 (ascii "pump") := by
  obtain ⟨s, hs⟩ := init.exists_step (.add 5 0 .zero)
  obtain ⟨hregistry, hnext⟩ : s.registry = Registry.init.add 0 (.new 5 0 .zero) ∧
      s.sections.nextConn = 1 := by
    cases move_of_step hs with
    | add => exact ⟨rfl, rfl⟩
  have hget (key : CStr) : s.registry.clientsMap.get key = if key = fdKey 5 then some 0 else none :=
    (congrArg (fun r : Registry => r.clientsMap.get key) hregistry).trans (Registry.get_add ..)
  have hbyFd : s.registry.byFd 5 = some 0 := (hget (fdKey 5)).trans (if_pos rfl)
  obtain ⟨s', hs', hiff⟩ := identifies_iff_suits s 5 0 (ascii "pump") hbyFd
    (hnext ▸ Nat.zero_lt_one) (by decide)
  refine ⟨s, s', hs, hbyFd, hs', hiff.mpr ⟨Or.inl (by decide), ?_, ?_⟩⟩
  · exact fun n _ _ _ => ne_fdKey_of_not_isFdKey (by decide) n
  · intro key hkey
    rw [hget] at hkey
    split at hkey
    · exact Or.inl ‹_›
    · cases hkey

/-- A common name longer than the field. -/
def longName : CStr := List.replicate 130 97

/-- The map keeps the whole of a long name and the field its first 127 bytes, so that a removal
leaves the name leading to the freed client; a device named after the key of another descriptor
takes that descriptor over; and the client that it was taken from keeps its name when it is
removed. -/
theorem misidentified_long_alias :
    (run step init [.add 5 0 .zero, .setHostname 5 longName]).map
        (fun s => (s.client 0).hostname == longName) = some false ∧
      (run step init [.add 5 0 .zero, .setHostname 5 longName, .remove 5]).map
        (fun s => s.registry.byHostname longName) = some (some 0) ∧
      (run step init [.add 5 0 .zero, .add 7 0 .zero]).map
        (fun s => s.registry.byFd 7) = some (some 1) ∧
      (run step init [.add 5 0 .zero, .add 7 0 .zero, .setHostname 5 (ascii "fd:7")]).map
        (fun s => s.registry.byFd 7) = some (some 0) ∧
      (run step init [.add 5 0 .zero, .add 7 0 .zero, .setHostname 5 (ascii "pump"),
        .setHostname 7 (ascii "fd:5"), .remove 5]).map
        (fun s => s.registry.byHostname (ascii "pump")) = some (some 0) := by
  decide +kernel

end Connections

end AdMQ

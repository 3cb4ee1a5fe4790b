import Mathlib.Algebra.BigOperators.Group.Finset.Basic
import Mathlib.Data.Fintype.Basic
import AdMQ.Broker.Client.Hash
import AdMQ.Core.Heap

/-!
# The hash table in memory

The functions of `hash.c` as they work on memory: tables, arrays, entries and the copies of
keys are blocks that `malloc` and `strdup` hand out, chains are walked along `next`
pointers, and an entry is unlinked through the pointer that led to it. `malloc` always
succeeds; a chain is walked for at most as many rounds as there are addresses.

Whatever the allocator does, a table that is created, used by any calls and freed makes no
invalid access, answers as the chained table does, and leaves the memory as it was.
-/

namespace AdMQ

open Core

namespace HeapTable

variable {ν : Type} (A : Allocator ν)

/-- `table->buckets`. -/
def bucketsOf (table : Loc) : HeapM ν Loc := do
  let buckets ← Heap.loadPtr table 0
  Heap.deref buckets

/-- `strcmp(entry->key, key) == 0`. -/
def hasKey (entry : Loc) (key : CStr) : HeapM ν Bool := do
  let p ← Heap.loadPtr entry 0
  let l ← Heap.deref p
  Heap.strcmp l key

/-- The loop of `create_table`. -/
def clearSlots (table : Loc) : Nat → HeapM ν Unit
  | 0 => pure ()
  | n + 1 => do
    clearSlots table n
    let buckets ← bucketsOf table
    Heap.store buckets n (.ptr none)

/-- `create_table`. -/
def createTable : HeapM ν Loc := do
  let table ← Heap.malloc A 1
  let buckets ← Heap.malloc A tableSize
  Heap.store table 0 (.ptr (some buckets))
  clearSlots table tableSize
  pure table

/-- The loop of `set`, and whether it returned from the function. -/
def setFrom (key : CStr) (value : ν) : Nat → Option Loc → HeapM ν Bool
  | _, none => pure false
  | 0, some _ => failure
  | fuel + 1, some entry => do
    let found ← hasKey entry key
    if found then do
      Heap.store entry 1 (.data value)
      pure true
    else do
      let next ← Heap.loadPtr entry 2
      setFrom key value fuel next

/-- The end of `set`: a new entry in front of the chain. -/
def pushEntry (table : Loc) (slot : Nat) (key : CStr) (value : ν) : HeapM ν Unit := do
  let newEntry ← Heap.malloc A 3
  let copy ← Heap.strdup A key
  Heap.store newEntry 0 (.ptr (some copy))
  Heap.store newEntry 1 (.data value)
  let buckets ← bucketsOf table
  let next ← Heap.loadPtr buckets slot
  Heap.store newEntry 2 (.ptr next)
  let buckets ← bucketsOf table
  Heap.store buckets slot (.ptr (some newEntry))

/-- `set`. -/
def set (table : Loc) (key : CStr) (value : ν) : HeapM ν Unit := do
  let buckets ← bucketsOf table
  let entry ← Heap.loadPtr buckets (hash key)
  let fuel ← Heap.rounds
  let found ← setFrom key value fuel entry
  if found then pure () else pushEntry A table (hash key) key value

/-- The loop of `get`. -/
def getFrom (key : CStr) : Nat → Option Loc → HeapM ν (Option ν)
  | _, none => pure none
  | 0, some _ => failure
  | fuel + 1, some entry => do
    let found ← hasKey entry key
    if found then do
      let value ← Heap.loadData entry 1
      pure (some value)
    else do
      let next ← Heap.loadPtr entry 2
      getFrom key fuel next

/-- `get`. -/
def get (table : Loc) (key : CStr) : HeapM ν (Option ν) := do
  let buckets ← bucketsOf table
  let entry ← Heap.loadPtr buckets (hash key)
  let fuel ← Heap.rounds
  getFrom key fuel entry

/-- The pointer that led to an entry is set to the next one. -/
def relink (table : Loc) (slot : Nat) (previous : Option Loc) (next : Option Loc) :
    HeapM ν Unit :=
  match previous with
  | none => do
    let buckets ← bucketsOf table
    Heap.store buckets slot (.ptr next)
  | some p => Heap.store p 2 (.ptr next)

/-- The loop of `del`. -/
def delFrom (table : Loc) (slot : Nat) (key : CStr) :
    Nat → Option Loc → Option Loc → HeapM ν Bool
  | _, _, none => pure false
  | 0, _, some _ => failure
  | fuel + 1, previous, some current => do
    let found ← hasKey current key
    if found then do
      let next ← Heap.loadPtr current 2
      relink table slot previous next
      let copy ← Heap.loadPtr current 0
      Heap.free copy
      Heap.free (some current)
      pure true
    else do
      let next ← Heap.loadPtr current 2
      delFrom table slot key fuel (some current) next

/-- `del`. -/
def del (table : Option Loc) (key : Option CStr) : HeapM ν Bool :=
  match table, key with
  | some table, some key => do
    let buckets ← bucketsOf table
    let current ← Heap.loadPtr buckets (hash key)
    let fuel ← Heap.rounds
    delFrom table (hash key) key fuel none current
  | _, _ => pure false

/-- The inner loop of `free_table`. -/
def freeFrom : Nat → Option Loc → HeapM ν Unit
  | _, none => pure ()
  | 0, some _ => failure
  | fuel + 1, some entry => do
    let next ← Heap.loadPtr entry 2
    let copy ← Heap.loadPtr entry 0
    Heap.free copy
    Heap.free (some entry)
    freeFrom fuel next

/-- The outer loop of `free_table`. -/
def freeSlots (table : Loc) : Nat → HeapM ν Unit
  | 0 => pure ()
  | n + 1 => do
    freeSlots table n
    let buckets ← bucketsOf table
    let entry ← Heap.loadPtr buckets n
    let fuel ← Heap.rounds
    freeFrom fuel entry

/-- `free_table`. -/
def freeTable (table : Option Loc) : HeapM ν Unit :=
  match table with
  | none => pure ()
  | some table => do
    freeSlots table tableSize
    let buckets ← Heap.loadPtr table 0
    Heap.free buckets
    Heap.free (some table)

/-! ## The blocks of a chain -/

/-- An entry and where it lies. -/
structure Entry (ν : Type) where
  loc : Loc
  /-- Where the copy of the key lies. -/
  copy : Loc
  key : CStr
  value : ν
  plain : 0 ∉ key

/-- The key and the value of an entry. -/
def Entry.pair (e : Entry ν) : CStr × ν := (e.key, e.value)

/-- The block of an entry that is followed by another one. -/
def Entry.block (e : Entry ν) (next : Option Loc) : HeapBlock ν :=
  [some (.ptr (some e.copy)), some (.data e.value), some (.ptr next)]

/-- The pointer to a chain. -/
def first (es : List (Entry ν)) : Option Loc := es.head?.map Entry.loc

/-- The blocks of a chain. -/
def chain : List (Entry ν) → Multiset (Loc × HeapBlock ν)
  | [] => 0
  | e :: rest => (e.loc, e.block (first rest)) ::ₘ (e.copy, Heap.text e.key) ::ₘ chain rest

variable {A} {es rest : List (Entry ν)} {e : Entry ν} {m : Multiset (Loc × HeapBlock ν)}
variable {key : CStr} {value : ν} {fuel : Nat}

theorem first_nil : first ([] : List (Entry ν)) = none := rfl

theorem length_le_card_chain (es : List (Entry ν)) : es.length ≤ (chain es).card := by
  induction es with
  | nil => exact Nat.zero_le _
  | cons e rest ih =>
    rw [chain, Multiset.card_cons, Multiset.card_cons, List.length_cons]
    omega

/-- The first entry of a chain, put to the other blocks. -/
theorem chain_cons_add (e : Entry ν) (rest : List (Entry ν)) (m : Multiset (Loc × HeapBlock ν)) :
    chain (e :: rest) + m =
      chain rest + ((e.loc, e.block (first rest)) ::ₘ (e.copy, Heap.text e.key) ::ₘ m) := by
  rw [chain, Multiset.cons_add, Multiset.cons_add, Multiset.add_cons, Multiset.add_cons]

theorem mem_chain_entry : (e.loc, e.block (first rest)) ∈ chain (e :: rest) + m := by
  rw [chain, Multiset.cons_add]
  exact Multiset.mem_cons_self ..

theorem mem_chain_copy : (e.copy, (Heap.text e.key : HeapBlock ν)) ∈ chain (e :: rest) + m := by
  rw [chain, Multiset.cons_add, Multiset.cons_add]
  exact Multiset.mem_cons_of_mem (Multiset.mem_cons_self ..)

/-! ## Walks along a chain -/

theorem hasKey_spec (hkey : 0 ∉ key) :
    Heap.Spec (hasKey e.loc key) (chain (e :: rest) + m) fun a m' =>
      a = decide (e.key = key) ∧ m' = chain (e :: rest) + m := by
  refine .step (.loadPtr mem_chain_entry rfl) ?_
  refine .step (.deref _) ?_
  exact .strcmp mem_chain_copy e.plain hkey

theorem getFrom_spec (hkey : 0 ∉ key) (hfuel : es.length ≤ fuel) :
    Heap.Spec (getFrom key fuel (first es)) (chain es + m) fun a m' =>
      a = chainGet key (es.map Entry.pair) ∧ m' = chain es + m := by
  induction es generalizing fuel m with
  | nil =>
    rw [first_nil, getFrom]
    exact .pure ⟨rfl, rfl⟩
  | cons e rest ih =>
    obtain ⟨fuel, rfl⟩ : ∃ n, fuel = n + 1 := ⟨fuel - 1, by simp at hfuel; omega⟩
    refine .step (hasKey_spec hkey) ?_
    rw [List.map_cons, chainGet]
    by_cases hfound : e.pair.1 = key
    · rw [if_pos (decide_eq_true (p := e.key = key) hfound), if_pos hfound]
      refine .step (.loadData mem_chain_entry rfl) ?_
      exact .pure ⟨rfl, rfl⟩
    · rw [if_neg (by simpa [Entry.pair] using hfound), if_neg hfound]
      refine .step (.loadPtr mem_chain_entry rfl) ?_
      rw [chain_cons_add]
      exact ih (Nat.le_of_succ_le_succ hfuel)

/-- The loop of `set` updates the entry in place, or finds none. -/
theorem setFrom_spec (hkey : 0 ∉ key) (hfuel : es.length ≤ fuel) :
    Heap.Spec (setFrom key value fuel (first es)) (chain es + m) fun a m' =>
      a = false ∧ chainUpdate key value (es.map Entry.pair) = none ∧ m' = chain es + m ∨
      a = true ∧ ∃ es' : List (Entry ν), m' = chain es' + m ∧ first es' = first es ∧
        chainUpdate key value (es.map Entry.pair) = some (es'.map Entry.pair) := by
  induction es generalizing fuel m with
  | nil =>
    rw [first_nil, setFrom]
    exact .pure (Or.inl ⟨rfl, rfl, rfl⟩)
  | cons e rest ih =>
    obtain ⟨fuel, rfl⟩ : ∃ n, fuel = n + 1 := ⟨fuel - 1, by simp at hfuel; omega⟩
    refine .step (hasKey_spec hkey) ?_
    rw [List.map_cons, chainUpdate]
    by_cases hfound : e.pair.1 = key
    · rw [if_pos (decide_eq_true (p := e.key = key) hfound), if_pos hfound, chain,
        Multiset.cons_add]
      refine .step (.storeUnit _ (show 1 < 3 by decide)) ?_
      refine .pure (Or.inr ⟨rfl, { e with value := value } :: rest, ?_, rfl, rfl⟩)
      simp only [chain, Multiset.cons_add]
      rfl
    · rw [if_neg (by simpa [Entry.pair] using hfound), if_neg hfound]
      refine .step (.loadPtr mem_chain_entry rfl) ?_
      rw [chain_cons_add]
      refine (ih (Nat.le_of_succ_le_succ hfuel)).mono ?_
      rintro a m' (⟨rfl, hnone, rfl⟩ | ⟨rfl, es', rfl, hfirst, hsome⟩)
      · exact Or.inl ⟨rfl, by rw [hnone]; rfl, rfl⟩
      · refine Or.inr ⟨rfl, e :: es', ?_, rfl, by rw [hsome]; rfl⟩
        rw [chain_cons_add, hfirst]

/-- The pointer that leads to an entry, by its block and index: it lies in the array for the first
entry of a chain, and in the entry before it otherwise. -/
inductive Link (table slot : Nat) (m : Multiset (Loc × HeapBlock ν)) :
    Option Loc → Loc → Nat → Prop where
  | array {l : Loc} (htable : (table, [some (.ptr (some l))]) ∈ m) : Link table slot m none l slot
  | entry (p : Loc) : Link table slot m (some p) p 2

theorem relink_spec {table slot l i : Nat} {previous next : Option Loc} {b : HeapBlock ν}
    (h : Link table slot m previous l i) (hi : i < b.length) :
    Heap.Spec (relink table slot previous next) ((l, b) ::ₘ m) fun a m' =>
      a = () ∧ m' = (l, b.set i (some (.ptr next))) ::ₘ m := by
  cases h with
  | array htable =>
    refine .step (.step (.loadPtr (Multiset.mem_cons_of_mem htable) rfl) (.deref l)) ?_
    exact .storeUnit _ hi
  | entry p => exact .storeUnit _ hi

/-- Writing a word that is already there changes nothing. -/
theorem set_eq_self {b : HeapBlock ν} {i : Nat} {w : Option (Word ν)} (h : b[i]? = some w) :
    b.set i w = b := by
  obtain ⟨hi, rfl⟩ := List.getElem?_eq_some_iff.mp h
  exact List.set_getElem_self hi

/-- An entry that is not linked any more is freed with its copy of the key. -/
theorem freeEntry_spec {next : Option Loc} {α : Type} {f : Unit → HeapM ν α}
    {Q : α → Multiset (Loc × HeapBlock ν) → Prop} (hf : Heap.Spec (f ()) m Q) :
    Heap.Spec (do
      let copy ← Heap.loadPtr e.loc 0
      Heap.free copy
      Heap.free (some e.loc)
      f ()) ((e.loc, e.block next) ::ₘ (e.copy, Heap.text e.key) ::ₘ m) Q := by
  refine .step (.loadPtr (Multiset.mem_cons_self ..) rfl) ?_
  rw [Multiset.cons_swap]
  refine .bind .free ?_
  rintro _ _ rfl
  refine .bind .free ?_
  rintro _ _ rfl
  exact hf

/-- The loop of `del` unlinks and frees the entry, or finds none. -/
theorem delFrom_spec (hkey : 0 ∉ key) (hfuel : es.length ≤ fuel) {table slot l i : Nat}
    {previous : Option Loc} {b : HeapBlock ν} (hlink : Link table slot m previous l i)
    (hfirst : b[i]? = some (some (.ptr (first es)))) :
    Heap.Spec (delFrom table slot key fuel previous (first es)) (chain es + ((l, b) ::ₘ m))
      fun a m' => a = chainFound key (es.map Entry.pair) ∧
        ∃ es' : List (Entry ν), es'.map Entry.pair = chainDel key (es.map Entry.pair) ∧
          m' = chain es' + ((l, b.set i (some (.ptr (first es')))) ::ₘ m) := by
  induction es generalizing fuel m previous l b i with
  | nil =>
    rw [first_nil, delFrom]
    exact .pure ⟨rfl, [], rfl, by rw [set_eq_self hfirst]⟩
  | cons e rest ih =>
    obtain ⟨fuel, rfl⟩ : ∃ n, fuel = n + 1 := ⟨fuel - 1, by simp at hfuel; omega⟩
    refine .step (hasKey_spec hkey) ?_
    rw [List.map_cons, chainFound, chainDel]
    by_cases hfound : e.pair.1 = key
    · rw [if_pos (decide_eq_true (p := e.key = key) hfound), if_pos hfound, if_pos hfound]
      refine .step (.loadPtr mem_chain_entry rfl) ?_
      rw [Multiset.add_cons]
      have hlink' : Link table slot (chain (e :: rest) + m) previous l i := by
        cases hlink with
        | array htable => exact .array (Multiset.mem_add.mpr (Or.inr htable))
        | entry => exact .entry _
      refine .step (relink_spec hlink' (List.getElem?_eq_some_iff.mp hfirst).1) ?_
      rw [← Multiset.add_cons, chain, Multiset.cons_add, Multiset.cons_add]
      exact freeEntry_spec (f := fun _ => pure true) (.pure ⟨rfl, rest, rfl, rfl⟩)
    · rw [if_neg (by simpa [Entry.pair] using hfound), if_neg hfound, if_neg hfound]
      refine .step (.loadPtr mem_chain_entry rfl) ?_
      rw [chain_cons_add]
      -- The entry is the one before the rest of the chain.
      refine (ih (Nat.le_of_succ_le_succ hfuel) (.entry e.loc) rfl).mono ?_
      rintro a m' ⟨rfl, es', hes', rfl⟩
      refine ⟨rfl, e :: es', by rw [List.map_cons, hes'], ?_⟩
      rw [chain_cons_add, show first (e :: es') = first (e :: rest) from rfl, set_eq_self hfirst]
      rfl

/-- The inner loop of `free_table` frees a chain. -/
theorem freeFrom_spec (hfuel : es.length ≤ fuel) :
    Heap.Spec (freeFrom fuel (first es)) (chain es + m) fun a m' => a = () ∧ m' = m := by
  induction es generalizing fuel m with
  | nil =>
    rw [first_nil, freeFrom]
    exact .pure ⟨rfl, zero_add m⟩
  | cons e rest ih =>
    obtain ⟨fuel, rfl⟩ : ∃ n, fuel = n + 1 := ⟨fuel - 1, by simp at hfuel; omega⟩
    refine .step (.loadPtr mem_chain_entry rfl) ?_
    rw [chain, Multiset.cons_add, Multiset.cons_add]
    exact freeEntry_spec (f := fun _ => freeFrom fuel (first rest))
      (ih (Nat.le_of_succ_le_succ hfuel))

/-! ## The blocks of a table -/

/-- The array with the pointers to the chains. -/
def slots (es : Fin tableSize → List (Entry ν)) : HeapBlock ν :=
  List.ofFn fun i => some (.ptr (first (es i)))

/-- The blocks of a table. -/
def cells (table buckets : Loc) (es : Fin tableSize → List (Entry ν)) :
    Multiset (Loc × HeapBlock ν) :=
  (table, [some (.ptr (some buckets))]) ::ₘ (buckets, slots es) ::ₘ ∑ i, chain (es i)

/-- The blocks represent a table. -/
def Represents (t : HashTable ν) (table : Loc) (m : Multiset (Loc × HeapBlock ν)) : Prop :=
  ∃ buckets es, m = cells table buckets es ∧ ∀ i, (es i).map Entry.pair = t.buckets i

variable {table buckets : Loc} {chains : Fin tableSize → List (Entry ν)} {slot : Fin tableSize}

theorem getElem?_slots (chains : Fin tableSize → List (Entry ν)) (slot : Fin tableSize) :
    (slots chains)[(slot : Nat)]? = some (some (.ptr (first (chains slot)))) := by
  rw [slots, List.getElem?_ofFn, dif_pos slot.isLt]

theorem slots_update (chains : Fin tableSize → List (Entry ν)) (slot : Fin tableSize)
    (es : List (Entry ν)) :
    slots (Function.update chains slot es) =
      (slots chains).set slot (some (.ptr (first es))) := by
  refine List.ext_getElem? fun n => ?_
  rw [List.getElem?_set, slots, slots, List.getElem?_ofFn, List.getElem?_ofFn, List.length_ofFn]
  by_cases hn : n < tableSize
  · by_cases hslot : (slot : Nat) = n
    · have hfin : (⟨n, hn⟩ : Fin tableSize) = slot := Fin.ext hslot.symm
      rw [dif_pos hn, if_pos hslot, if_pos (hslot ▸ hn), hfin, Function.update_self]
    · have hfin : (⟨n, hn⟩ : Fin tableSize) ≠ slot := fun h => hslot (congrArg Fin.val h).symm
      rw [dif_pos hn, if_neg hslot, Function.update_of_ne hfin, dif_pos hn]
  · have hslot : (slot : Nat) ≠ n := fun h => hn (h ▸ slot.isLt)
    rw [dif_neg hn, if_neg hslot, dif_neg hn]

/-- One chain of a table beside its other blocks. -/
theorem cells_update (table buckets : Loc) (chains : Fin tableSize → List (Entry ν))
    (slot : Fin tableSize) (es : List (Entry ν)) :
    cells table buckets (Function.update chains slot es) =
      chain es + ((buckets, (slots chains).set slot (some (.ptr (first es)))) ::ₘ
        (table, [some (.ptr (some buckets))]) ::ₘ
          ∑ i ∈ Finset.univ.erase slot, chain (chains i)) := by
  have hothers : ∑ i ∈ Finset.univ.erase slot, chain (Function.update chains slot es i) =
      ∑ i ∈ Finset.univ.erase slot, chain (chains i) := by
    refine Finset.sum_congr rfl fun i hi => ?_
    rw [Function.update_of_ne (Finset.ne_of_mem_erase hi)]
  rw [cells, slots_update, ← Finset.add_sum_erase _ _ (Finset.mem_univ slot), hothers,
    Function.update_self, Multiset.cons_swap, Multiset.add_cons, Multiset.add_cons]

theorem cells_eq (table buckets : Loc) (chains : Fin tableSize → List (Entry ν))
    (slot : Fin tableSize) :
    cells table buckets chains =
      chain (chains slot) + ((buckets, slots chains) ::ₘ
        (table, [some (.ptr (some buckets))]) ::ₘ
          ∑ i ∈ Finset.univ.erase slot, chain (chains i)) := by
  have h := cells_update table buckets chains slot (chains slot)
  rwa [Function.update_eq_self, set_eq_self (getElem?_slots chains slot)] at h

theorem mem_cells_table :
    (table, [some (.ptr (some buckets))]) ∈ cells table buckets chains :=
  Multiset.mem_cons_self ..

theorem mem_cells_slots : (buckets, slots chains) ∈ cells table buckets chains :=
  Multiset.mem_cons_of_mem (Multiset.mem_cons_self ..)

theorem bucketsOf_spec (h : (table, [some (.ptr (some buckets))]) ∈ m) :
    Heap.Spec (bucketsOf table) m fun a m' => a = buckets ∧ m' = m :=
  .step (.loadPtr h rfl) (.deref buckets)

/-- The beginning of `set`, `get` and `del`: the chain of the key is found, and there are enough
rounds for it. -/
theorem lookup_spec {α : Type} {f : Loc → Option Loc → Nat → HeapM ν α}
    {Q : α → Multiset (Loc × HeapBlock ν) → Prop}
    (h : ∀ fuel, (chains slot).length ≤ fuel →
      Heap.Spec (f buckets (first (chains slot)) fuel) (cells table buckets chains) Q) :
    Heap.Spec (do
      let buckets ← bucketsOf table
      let entry ← Heap.loadPtr buckets slot
      let fuel ← Heap.rounds
      f buckets entry fuel) (cells table buckets chains) Q := by
  refine .step (bucketsOf_spec mem_cells_table) ?_
  refine .step (.loadPtr mem_cells_slots (getElem?_slots chains slot)) ?_
  refine .bind .rounds ?_
  rintro fuel _ ⟨hcard, rfl⟩
  refine h fuel ((length_le_card_chain _).trans (le_trans ?_ hcard))
  rw [cells_eq table buckets chains slot, Multiset.card_add]
  exact Nat.le_add_right ..

/-! ## The functions -/

variable {t : HashTable ν}

/-- A table whose chain for a key was changed. -/
theorem Represents.update {t' : HashTable ν} {es : List (Entry ν)}
    (h : ∀ i, (chains i).map Entry.pair = t.buckets i)
    (ht : t'.buckets = Function.update t.buckets slot (es.map Entry.pair)) :
    Represents t' table (cells table buckets (Function.update chains slot es)) := by
  refine ⟨buckets, _, rfl, ?_⟩
  intro i
  rw [ht]
  by_cases hi : i = slot
  · rw [hi, Function.update_self, Function.update_self]
  · rw [Function.update_of_ne hi, Function.update_of_ne hi, h]

theorem get_spec (h : Represents t table m) (hkey : 0 ∉ key) :
    Heap.Spec (get table key) m fun a m' => a = t.get key ∧ m' = m := by
  obtain ⟨buckets, chains, rfl, hchains⟩ := h
  refine lookup_spec (f := fun _ entry fuel => getFrom key fuel entry) fun fuel hfuel => ?_
  rw [cells_eq table buckets chains (hash key), ChainTable.get, ← hchains]
  exact getFrom_spec hkey hfuel

theorem del_spec (h : Represents t table m) (hkey : 0 ∉ key) :
    Heap.Spec (del (some table) (some key)) m fun a m' =>
      a = (t.delete key).1 ∧ Represents (t.delete key).2 table m' := by
  obtain ⟨buckets, chains, rfl, hchains⟩ := h
  refine lookup_spec (f := fun _ entry fuel => delFrom table (hash key) key fuel none entry)
    fun fuel hfuel => ?_
  rw [cells_eq table buckets chains (hash key)]
  refine (delFrom_spec hkey hfuel (.array (Multiset.mem_cons_self ..))
    (getElem?_slots chains (hash key))).mono ?_
  rintro a m' ⟨rfl, es', hes', rfl⟩
  rw [← cells_update]
  refine ⟨by rw [ChainTable.delete, hchains], .update hchains ?_⟩
  rw [hes', hchains]
  rfl

/-- A new entry is put in front of a chain. -/
theorem pushEntry_spec (hkey : 0 ∉ key) :
    Heap.Spec (pushEntry A table slot key value) (cells table buckets chains) fun _ m' =>
      ∃ e : Entry ν, e.pair = (key, value) ∧
        m' = cells table buckets (Function.update chains slot (e :: chains slot)) := by
  refine .bind (.alloc A _) ?_
  rintro newEntry _ rfl
  refine .bind (.alloc A _) ?_
  rintro copy _ rfl
  rw [Multiset.cons_swap]
  refine .step (.storeUnit _ (show 0 < 3 by decide)) ?_
  refine .step (.storeUnit _ (show 1 < 3 by decide)) ?_
  have htable {x y : Loc × HeapBlock ν} :
      (table, [some (.ptr (some buckets))]) ∈ x ::ₘ y ::ₘ cells table buckets chains :=
    Multiset.mem_cons_of_mem (Multiset.mem_cons_of_mem mem_cells_table)
  have hslots {x y : Loc × HeapBlock ν} :
      (buckets, slots chains) ∈ x ::ₘ y ::ₘ cells table buckets chains :=
    Multiset.mem_cons_of_mem (Multiset.mem_cons_of_mem mem_cells_slots)
  refine .step (bucketsOf_spec htable) ?_
  refine .step (.loadPtr hslots (getElem?_slots chains slot)) ?_
  refine .step (.storeUnit _ (show 2 < 3 by decide)) ?_
  refine .step (bucketsOf_spec htable) ?_
  rw [cells_eq table buckets chains slot, Multiset.add_cons, Multiset.cons_swap _ (buckets, _),
    Multiset.cons_swap _ (buckets, _)]
  refine (Heap.Spec.store _ ?_).mono ?_
  · exact (List.getElem?_eq_some_iff.mp (getElem?_slots chains slot)).1
  · rintro _ _ rfl
    refine ⟨⟨newEntry, copy, key, value, hkey⟩, rfl, ?_⟩
    rw [cells_update, chain, Multiset.cons_add, Multiset.cons_add,
      Multiset.cons_swap (buckets, _), Multiset.cons_swap (buckets, _), ← Multiset.add_cons]
    rfl

theorem set_spec (h : Represents t table m) (hkey : 0 ∉ key) :
    Heap.Spec (set A table key value) m fun _ m' => Represents (t.set key value) table m' := by
  obtain ⟨buckets, chains, rfl, hchains⟩ := h
  refine lookup_spec (f := fun _ entry fuel => do
    let found ← setFrom key value fuel entry
    if found then pure () else pushEntry A table (hash key) key value) fun fuel hfuel => ?_
  rw [cells_eq table buckets chains (hash key)]
  refine .bind (setFrom_spec hkey hfuel) ?_
  rintro a m' (⟨rfl, hnone, rfl⟩ | ⟨rfl, es', rfl, hfirst, hsome⟩)
  · rw [← cells_eq]
    refine (pushEntry_spec hkey).mono ?_
    rintro _ _ ⟨e, he, rfl⟩
    refine .update hchains ?_
    change Function.update t.buckets _ (chainSet key value (t.buckets (hash key))) = _
    rw [chainSet, ← hchains, hnone, List.map_cons, he]
    rfl
  · refine .pure ?_
    have hslots : slots chains = (slots chains).set (hash key) (some (.ptr (first es'))) := by
      rw [hfirst, set_eq_self (getElem?_slots chains (hash key))]
    rw [hslots, ← cells_update]
    refine .update hchains ?_
    change Function.update t.buckets _ (chainSet key value (t.buckets (hash key))) = _
    rw [chainSet, ← hchains, hsome]
    rfl

/-- The loop of `create_table` has written the first slots. -/
theorem clearSlots_spec {n : Nat} (hn : n ≤ tableSize) :
    Heap.Spec (clearSlots table n)
      ((buckets, List.replicate tableSize none) ::ₘ {(table, [some (.ptr (some buckets))])})
      fun a m' => a = () ∧ m' = (buckets, List.replicate n (some (.ptr none)) ++
        List.replicate (tableSize - n) (none : Option (Word ν))) ::ₘ
          {(table, [some (.ptr (some buckets))])} := by
  induction n with
  | zero => exact .pure ⟨rfl, rfl⟩
  | succ n ih =>
    refine .step (ih (Nat.le_of_succ_le hn)) ?_
    refine .step (bucketsOf_spec (Multiset.mem_cons_of_mem (Multiset.mem_singleton_self _))) ?_
    refine (Heap.Spec.storeUnit _ ?_).mono ?_
    · simp
      omega
    · rintro _ _ ⟨-, rfl⟩
      obtain ⟨k, hk⟩ : ∃ k, tableSize - n = k + 1 := ⟨tableSize - n - 1, by omega⟩
      have hk' : tableSize - (n + 1) = k := by omega
      rw [hk, hk', List.set_append_right _ _ (by simp), List.length_replicate, Nat.sub_self,
        List.replicate_succ, List.set_cons_zero, List.replicate_succ', List.append_assoc]
      exact ⟨rfl, rfl⟩

theorem createTable_spec :
    Heap.Spec (createTable A) 0 fun table m' => Represents (AdMQ.createTable ν) table m' := by
  refine .bind (.alloc A _) ?_
  rintro table _ rfl
  refine .bind (.alloc A _) ?_
  rintro buckets _ rfl
  rw [Multiset.cons_swap]
  refine .step (.storeUnit _ (show 0 < 1 by decide)) ?_
  rw [Multiset.cons_swap]
  refine .step (clearSlots_spec (Nat.le_refl tableSize)) ?_
  refine .pure ⟨buckets, fun _ => [], ?_, fun _ => rfl⟩
  have hslots : slots (fun _ => ([] : List (Entry ν))) =
      List.replicate tableSize (some (.ptr none)) := List.ofFn_const ..
  have hchains : ∑ _i : Fin tableSize, chain ([] : List (Entry ν)) = 0 := Finset.sum_const_zero
  rw [cells, hslots, hchains, Multiset.cons_swap, Nat.sub_self, List.replicate_zero,
    List.append_nil]
  rfl

/-- The chains from a slot on. -/
def chainsFrom (chains : Fin tableSize → List (Entry ν)) (n : Nat) :
    Multiset (Loc × HeapBlock ν) :=
  ∑ i with n ≤ i.val, chain (chains i)

theorem chainsFrom_eq_add {n : Nat} (hn : n < tableSize) :
    chainsFrom chains n = chain (chains ⟨n, hn⟩) + chainsFrom chains (n + 1) := by
  have hinsert : (Finset.univ.filter fun i : Fin tableSize => n ≤ i.val) =
      insert ⟨n, hn⟩ (Finset.univ.filter fun i : Fin tableSize => n + 1 ≤ i.val) := by
    ext i
    simp only [Finset.mem_filter, Finset.mem_univ, true_and, Finset.mem_insert, Fin.ext_iff]
    omega
  rw [chainsFrom, hinsert, Finset.sum_insert (by simp)]
  rfl

theorem chainsFrom_zero : chainsFrom chains 0 = ∑ i, chain (chains i) := by
  rw [chainsFrom, Finset.filter_true_of_mem fun _ _ => Nat.zero_le _]

theorem chainsFrom_tableSize : chainsFrom chains tableSize = 0 := by
  rw [chainsFrom, Finset.filter_false_of_mem fun i _ => Nat.not_le.mpr i.isLt]
  rfl

/-- The outer loop of `free_table` has freed the first chains. -/
theorem freeSlots_spec {n : Nat} (hn : n ≤ tableSize) :
    Heap.Spec (freeSlots table n) (cells table buckets chains) fun a m' => a = () ∧
      m' = (table, [some (.ptr (some buckets))]) ::ₘ (buckets, slots chains) ::ₘ
        chainsFrom chains n := by
  induction n with
  | zero => exact .pure ⟨rfl, by rw [chainsFrom_zero, cells]⟩
  | succ n ih =>
    refine .step (ih (Nat.le_of_succ_le hn)) ?_
    refine .step (bucketsOf_spec (Multiset.mem_cons_self ..)) ?_
    refine .step (.loadPtr (Multiset.mem_cons_of_mem (Multiset.mem_cons_self ..))
      (getElem?_slots chains ⟨n, hn⟩)) ?_
    refine .bind .rounds ?_
    rintro fuel _ ⟨hcard, rfl⟩
    rw [chainsFrom_eq_add hn, ← Multiset.add_cons, ← Multiset.add_cons] at hcard ⊢
    refine freeFrom_spec ((length_le_card_chain _).trans (le_trans ?_ hcard))
    rw [Multiset.card_add]
    exact Nat.le_add_right ..

theorem freeTable_spec (h : Represents t table m) :
    Heap.Spec (freeTable (some table)) m fun a m' => a = () ∧ m' = 0 := by
  obtain ⟨buckets, chains, rfl, -⟩ := h
  refine .step (freeSlots_spec (Nat.le_refl tableSize)) ?_
  rw [chainsFrom_tableSize]
  refine .step (.loadPtr (Multiset.mem_cons_self ..) rfl) ?_
  rw [Multiset.cons_swap]
  refine .bind .free ?_
  rintro _ _ rfl
  exact Heap.Spec.free.mono fun _ _ hm => ⟨rfl, hm⟩

/-! ## Calls -/

end HeapTable

/-- A call of one of the functions on a table. -/
inductive TableCall (ν : Type) where
  | set (key : CStr) (value : ν)
  | get (key : CStr)
  | del (key : CStr)

/-- What a call returns. -/
inductive TableAnswer (ν : Type) where
  | done
  | value (v : Option ν)
  | deleted (b : Bool)
  deriving DecidableEq

namespace TableCall

variable {ν : Type} {A : Allocator ν}

/-- The key of a call. -/
def key : TableCall ν → CStr
  | .set key _ | .get key | .del key => key

/-- A call on the table as a finite map. -/
def answer (t : HashTable ν) : TableCall ν → TableAnswer ν × HashTable ν
  | .set key value => (.done, t.set key value)
  | .get key => (.value (t.get key), t)
  | .del key => (.deleted (t.delete key).1, (t.delete key).2)

/-- The answers to a sequence of calls. -/
def answers (t : HashTable ν) : List (TableCall ν) → List (TableAnswer ν)
  | [] => []
  | call :: rest => (call.answer t).1 :: answers (call.answer t).2 rest

/-- A call on the table in memory. -/
def run (A : Allocator ν) (table : Loc) : TableCall ν → HeapM ν (TableAnswer ν)
  | .set key value => do
    HeapTable.set A table key value
    pure .done
  | .get key => do
    let v ← HeapTable.get table key
    pure (.value v)
  | .del key => do
    let b ← HeapTable.del (some table) (some key)
    pure (.deleted b)

/-- A sequence of calls on the table in memory. -/
def runAll (A : Allocator ν) (table : Loc) : List (TableCall ν) → HeapM ν (List (TableAnswer ν))
  | [] => pure []
  | call :: rest => do
    let a ← call.run A table
    let as ← runAll A table rest
    pure (a :: as)

/-- A table is created, used and freed. -/
def session (A : Allocator ν) (calls : List (TableCall ν)) : HeapM ν (List (TableAnswer ν)) := do
  let table ← HeapTable.createTable A
  let as ← runAll A table calls
  HeapTable.freeTable (some table)
  pure as

theorem run_spec {t : HashTable ν} {table : Loc} {m : Multiset (Loc × HeapBlock ν)}
    (h : HeapTable.Represents t table m) {call : TableCall ν} (hkey : 0 ∉ call.key) :
    Heap.Spec (call.run A table) m fun a m' =>
      a = (call.answer t).1 ∧ HeapTable.Represents (call.answer t).2 table m' := by
  cases call with
  | set key value =>
    refine .bind (HeapTable.set_spec h hkey) ?_
    intro _ m' hm'
    exact .pure ⟨rfl, hm'⟩
  | get key =>
    refine .step (HeapTable.get_spec h hkey) ?_
    exact .pure ⟨rfl, h⟩
  | del key =>
    refine .bind (HeapTable.del_spec h hkey) ?_
    rintro _ m' ⟨rfl, hm'⟩
    exact .pure ⟨rfl, hm'⟩

theorem runAll_spec {t : HashTable ν} {table : Loc} {m : Multiset (Loc × HeapBlock ν)}
    (h : HeapTable.Represents t table m) {calls : List (TableCall ν)}
    (hkeys : ∀ call ∈ calls, 0 ∉ call.key) :
    Heap.Spec (runAll A table calls) m fun as m' =>
      as = answers t calls ∧ ∃ t', HeapTable.Represents t' table m' := by
  induction calls generalizing t m with
  | nil => exact .pure ⟨rfl, t, h⟩
  | cons call rest ih =>
    rw [List.forall_mem_cons] at hkeys
    refine .bind (run_spec h hkeys.1) ?_
    rintro _ m' ⟨rfl, hm'⟩
    refine .bind (ih hm' hkeys.2) ?_
    rintro _ m'' ⟨rfl, ht'⟩
    exact .pure ⟨rfl, ht'⟩

/-- A table that is created, used and freed makes no invalid access, whatever addresses `malloc`
picks and whatever was in memory before. It answers as a finite map does, everything that was
allocated is freed, and no other memory is touched. -/
theorem table_in_memory (A : Allocator ν) (calls : List (TableCall ν))
    (hkeys : ∀ call ∈ calls, 0 ∉ call.key) (h : Heap ν) :
    ∃ h', session A calls h = some (answers (createTable ν) calls, h') ∧
      ∀ l, h'.block l = h.block l := by
  have hspec : Heap.Spec (session A calls) 0 fun as m' =>
      m' = 0 ∧ as = answers (createTable ν) calls := by
    refine .bind HeapTable.createTable_spec ?_
    intro table m hm
    refine .bind (runAll_spec hm hkeys) ?_
    rintro _ m' ⟨rfl, t', ht'⟩
    refine .step (HeapTable.freeTable_spec ht') ?_
    exact .pure ⟨rfl, rfl⟩
  obtain ⟨as, h', hrun, rfl, hblock⟩ := hspec.exists_run h
  exact ⟨h', hrun, hblock⟩

/-- Two keys of one bucket: the older entry is found behind the newer one, which is then unlinked
through the array. -/
theorem table_in_memory_collision :
    ∃ h', session (.next Nat)
        [.set (ascii "9") 1, .set [197] 2, .get (ascii "9"), .del [197], .get [197],
          .get (ascii "9")] .empty =
      some ([.done, .done, .value (some 1), .deleted true, .value none, .value (some 1)], h') ∧
      ∀ l, h'.block l = none :=
  table_in_memory (.next Nat) _ (by decide) .empty

end TableCall

end AdMQ

import AdMQ.Core.CString
import AdMQ.Core.ChainTable

/-!
# The hash table of the client registry

`hash.c` as an instance of the chained table. The hash is computed in 64-bit
arithmetic on bytes that are signed as `char` is.
-/

namespace AdMQ

open Core

/-- `TABLE_SIZE`. -/
def tableSize : Nat := 100

/-- One pass of the loop of `hash`: the byte is sign-extended before it is added. -/
def hashStep (value : UInt64) (b : UInt8) : UInt64 := value * 37 + b.toInt8.toInt64.toUInt64

/-- `hash`. -/
def hash (key : CStr) : Fin tableSize :=
  ⟨(key.foldl hashStep 0).toNat % tableSize, Nat.mod_lt _ (by decide)⟩

/-- `HashTable`: keys are strings, values are pointers to clients. -/
abbrev HashTable (ν : Type) := ChainTable CStr ν hash

/-- `create_table`. -/
def createTable (ν : Type) : HashTable ν := ChainTable.empty hash

/-- After every sequence of `set` and `del` calls the table is a finite map: no key occurs twice,
an entry stands in the bucket of its key, a key has the value of its last `set` unless a `del`
came later, a further call about one key leaves all others alone, and `del` tells whether the
key was there. -/
theorem hashTable_refines (ν : Type) (ops : List (TableOp CStr ν)) :
    let t := (createTable ν).run ops
    ((t.entries.map Prod.fst).Nodup ∧ ∀ i, ∀ key ∈ (t.buckets i).map Prod.fst, i = hash key) ∧
    (∀ key, (hash key : Nat) = (key.foldl hashStep 0).toNat % 100 ∧ (hash key : Nat) < 100) ∧
    (∀ key value, t.get key = some value ↔ TableOp.LastSet ops key value) ∧
    (∀ op key, op.key ≠ key → (t.step op).get key = t.get key) ∧
    ∀ key, (t.delete key).1 = true ↔ ∃ value, TableOp.LastSet ops key value := by
  intro t
  have hget : ∀ key value, t.get key = some value ↔ TableOp.LastSet ops key value :=
    ChainTable.get_run_iff ops
  refine ⟨⟨t.nodup_keys_entries, fun i key hkey => (t.placed i key hkey).symm⟩,
    fun key => ⟨rfl, (hash key).isLt⟩, hget, fun op key => t.get_step_of_ne, ?_⟩
  intro key
  rw [t.fst_delete_iff, Option.ne_none_iff_exists']
  exact exists_congr (hget key)

/-- Two keys of one bucket, the second of them a byte with its sign bit set. -/
theorem hashTable_refines_collision :
    hash (ascii "9") = hash [197] ∧
    (((createTable Nat).run [.set (ascii "9") 1, .set [197] 2]).step (.del [197])).get
      (ascii "9") = some 1 := by
  obtain ⟨-, -, hget, hframe, -⟩ := hashTable_refines Nat [.set (ascii "9") 1, .set [197] 2]
  refine ⟨by decide, (hframe (.del [197]) (ascii "9") (by decide)).trans ((hget _ _).mpr ?_)⟩
  refine ⟨[], [.set [197] 2], rfl, fun op hop => ?_⟩
  obtain rfl := List.mem_singleton.mp hop
  decide

/-- The key `fd:%d` under which a connection is registered. -/
def fdKey (fd : Int) : CStr := ascii "fd:" ++ decimal fd

/-- The prefix by which the registry tells descriptor keys from hostnames. -/
def isFdKey (key : CStr) : Bool := key.take 3 == ascii "fd:"

theorem isFdKey_fdKey (fd : Int) : isFdKey (fdKey fd) = true := by
  simp [isFdKey, fdKey, ascii]

/-- Different descriptors have different keys. -/
theorem fdKey_injective : Function.Injective fdKey := fun _ _ h =>
  decimal_injective (List.append_cancel_left h)

@[simp] theorem fdKey_inj {m n : Int} : fdKey m = fdKey n ↔ m = n := fdKey_injective.eq_iff

/-- A hostname without the prefix is no descriptor key. -/
theorem ne_fdKey_of_not_isFdKey {hostname : CStr} (h : isFdKey hostname = false) (fd : Int) :
    hostname ≠ fdKey fd := by
  rintro rfl
  rw [isFdKey_fdKey] at h
  cases h

end AdMQ

import Mathlib.Data.List.Basic

/-!
# A layer of records

Data arrive as records. A read with a limit returns the next bytes of the current
record; what it does not return stays inside the layer, where the socket does not
show it. Records without data are skipped.
-/

namespace Core

variable {α : Type*}

/-- Records that wait in the socket, and what is left of the record that was opened last. -/
structure RecordLayer (α : Type*) where
  socket : List (List α)
  pending : List α
  deriving DecidableEq

namespace RecordLayer

variable (l : RecordLayer α) (limit : Nat)

/-- Nothing has arrived. -/
def empty : RecordLayer α := ⟨[], []⟩

/-- A record arrives at the socket. -/
def arrive (record : List α) : RecordLayer α := { l with socket := l.socket ++ [record] }

/-- The next bytes, and the layer that is left; none if there are no data. -/
def read : Option (List α) × RecordLayer α :=
  match l.pending with
  | [] =>
    match l.socket.dropWhile List.isEmpty with
    | [] => (none, ⟨[], []⟩)
    | record :: rest => (some (record.take limit), ⟨rest, record.drop limit⟩)
  | x :: xs => (some ((x :: xs).take limit), ⟨l.socket, (x :: xs).drop limit⟩)

/-- The data in the layer. -/
def data : List α := l.pending ++ l.socket.flatten

theorem data_arrive (record : List α) : (l.arrive record).data = l.data ++ record := by
  simp [data, arrive]

/-- Records without data hold no data. -/
theorem flatten_dropWhile_isEmpty (records : List (List α)) :
    (records.dropWhile List.isEmpty).flatten = records.flatten := by
  induction records with
  | nil => rfl
  | cons record records ih =>
    rw [List.dropWhile_cons]
    split
    next hnil => rw [ih, List.flatten_cons, List.isEmpty_iff.mp hnil, List.nil_append]
    · rfl

/-- The record that a read opens. -/
theorem mem_of_dropWhile_isEmpty {records rest : List (List α)} {record : List α}
    (h : records.dropWhile List.isEmpty = record :: rest) :
    record ≠ [] ∧ ∀ r ∈ record :: rest, r ∈ records := by
  refine ⟨?_, fun r hr => ?_⟩
  · have hhead := List.head_dropWhile_not List.isEmpty (l := records)
      (by rw [h]; exact List.cons_ne_nil _ _)
    simpa [h] using hhead
  · rw [← h] at hr
    exact (List.dropWhile_sublist _).subset hr

/-- Nothing gets lost: what a read returns and what it leaves is what there was. -/
theorem data_read : (l.read limit).1.getD [] ++ (l.read limit).2.data = l.data := by
  obtain ⟨socket, pending⟩ := l
  cases pending with
  | nil =>
    have hdata : (⟨socket, []⟩ : RecordLayer α).data =
        (socket.dropWhile List.isEmpty).flatten := (flatten_dropWhile_isEmpty socket).symm
    rw [hdata]
    simp only [read]
    split
    next hnone =>
      rw [hnone]
      rfl
    next record rest hsome =>
      rw [hsome, List.flatten_cons, data, ← List.append_assoc]
      exact congrArg (· ++ rest.flatten) (List.take_append_drop limit record)
  | cons x xs =>
    simp only [read, data, Option.getD_some]
    rw [← List.append_assoc, List.take_append_drop]

/-- A read returns one to `limit` bytes. -/
theorem length_of_read (hlimit : 0 < limit) {chunk : List α} (h : (l.read limit).1 = some chunk) :
    1 ≤ chunk.length ∧ chunk.length ≤ limit := by
  have htake {bytes : List α} (hne : bytes ≠ []) :
      1 ≤ (bytes.take limit).length ∧ (bytes.take limit).length ≤ limit := by
    have hpos := List.length_pos_iff.mpr hne
    rw [List.length_take]
    omega
  rw [read] at h
  split at h
  · split at h
    · cases h
    next record rest hsome =>
      obtain rfl := Option.some.inj h
      exact htake (mem_of_dropWhile_isEmpty hsome).1
  · obtain rfl := Option.some.inj h
    exact htake (List.cons_ne_nil _ _)

/-- The records that wait after a read have waited before. -/
theorem socket_read_subset : (l.read limit).2.socket ⊆ l.socket := by
  rw [read]
  split
  · split
    · exact List.nil_subset _
    next record rest hsome =>
      intro r hr
      exact (mem_of_dropWhile_isEmpty hsome).2 r (List.mem_cons_of_mem _ hr)
  · exact List.Subset.refl _

variable {l limit}

/-- Records that fit a read leave nothing inside the layer. -/
theorem pending_read (hpending : l.pending = [])
    (hfit : ∀ record ∈ l.socket, record.length ≤ limit) : (l.read limit).2.pending = [] := by
  rw [read, hpending]
  dsimp only
  split
  · rfl
  next record rest hsome =>
    exact List.drop_of_length_le
      (hfit record ((mem_of_dropWhile_isEmpty hsome).2 record List.mem_cons_self))

/-- A record that does not fit leaves its rest inside the layer. -/
theorem read_single {record : List α} (hlong : limit < record.length) :
    (⟨[record], []⟩ : RecordLayer α).read limit =
      (some (record.take limit), ⟨[], record.drop limit⟩) := by
  have hne : ¬ record.isEmpty = true := by
    rw [List.isEmpty_iff]
    rintro rfl
    exact Nat.not_lt_zero _ hlong
  simp only [read, List.dropWhile_cons_of_neg hne]

/-- A record that fits leaves nothing. -/
theorem read_single_of_le {record : List α} (hfit : record.length ≤ limit) :
    ((⟨[record], []⟩ : RecordLayer α).read limit).2 = ⟨[], []⟩ := by
  cases record with
  | nil => rfl
  | cons x xs => simp only [read, List.dropWhile_cons_of_neg, List.isEmpty_cons, Bool.false_eq_true,
      not_false_eq_true, List.drop_of_length_le hfit]

end RecordLayer

end Core

import Mathlib.Algebra.Order.Group.Multiset
import Mathlib.Data.Finset.Card
import AdMQ.Core.CString

/-!
# Memory that is allocated and freed

Blocks of words at addresses, as `malloc` hands them out. A computation has no result when
it reads or writes outside of a live block, reads a word that was not written, follows
NULL or frees what is not allocated. The allocator picks any unused address, also one that
was freed before.

`Holds h h₀ m` says that the heap `h` consists of the blocks `m`, all allocated since, and
of what was in `h₀`. `Spec prog m Q` says that a program which finds the blocks `m` has a
result, leaves all other memory alone, and ends with an answer and blocks for which `Q`
holds. So a program with a `Spec` makes no invalid access, and one that ends with no
blocks has freed all it allocated.
-/

namespace Core

/-- The address of a block. A pointer is an address or NULL. -/
abbrev Loc := Nat

/-- What a word of memory holds: a pointer, a byte, or a value that is only passed on. -/
inductive Word (ν : Type) where
  | ptr (p : Option Loc)
  | data (v : ν)
  | byte (b : UInt8)

/-- The words of a block; `none` for one that was not written yet. -/
abbrev HeapBlock (ν : Type) := List (Option (Word ν))

/-- The live blocks. -/
structure Heap (ν : Type) where
  block : Loc → Option (HeapBlock ν)
  /-- No address from here on was used. -/
  bound : Nat
  unused : ∀ l, bound ≤ l → block l = none

/-- How addresses are picked. -/
structure Allocator (ν : Type) where
  pick : Heap ν → Loc
  unused : ∀ h : Heap ν, h.block (pick h) = none

/-- A computation on the heap. -/
abbrev HeapM (ν : Type) := StateT (Heap ν) Option

/-- The allocator that uses every address once. -/
def Allocator.next (ν : Type) : Allocator ν := ⟨Heap.bound, fun h => h.unused _ (Nat.le_refl _)⟩

namespace Heap

variable {ν : Type}

/-- The heap before the first allocation. -/
def empty : Heap ν := ⟨fun _ => none, 0, fun _ _ => rfl⟩

theorem unused_update (h : Heap ν) (l : Loc) (b : Option (HeapBlock ν)) (l' : Loc)
    (hl : max h.bound (l + 1) ≤ l') : Function.update h.block l b l' = none := by
  have hne : l' ≠ l := Nat.ne_of_gt ((le_max_right ..).trans hl)
  rw [Function.update_of_ne hne]
  exact h.unused l' ((le_max_left ..).trans hl)

/-- Allocate, rewrite or free a block. -/
def update (h : Heap ν) (l : Loc) (b : Option (HeapBlock ν)) : Heap ν :=
  ⟨Function.update h.block l b, max h.bound (l + 1), h.unused_update l b⟩

/-- The block of a string. -/
def text (s : CStr) : HeapBlock ν := (s ++ [0]).map fun b => some (.byte b)

/-- A new block with this content. -/
def alloc (A : Allocator ν) (b : HeapBlock ν) : HeapM ν Loc := fun h =>
  some (A.pick h, h.update (A.pick h) (some b))

/-- `malloc` of this many words. -/
def malloc (A : Allocator ν) (n : Nat) : HeapM ν Loc := alloc A (List.replicate n none)

/-- `strdup`. -/
def strdup (A : Allocator ν) (s : CStr) : HeapM ν Loc := alloc A (text s)

/-- `free`. -/
def free : Option Loc → HeapM ν Unit
  | none => pure ()
  | some l => fun h => (h.block l).map fun _ => ((), h.update l none)

/-- The word at an index of a block. -/
def load (l : Loc) (i : Nat) : HeapM ν (Word ν) := fun h =>
  (h.block l).bind fun b => b[i]?.join.map fun w => (w, h)

/-- Write the word at an index of a block. -/
def store (l : Loc) (i : Nat) (w : Word ν) : HeapM ν Unit := fun h =>
  (h.block l).bind fun b =>
    if i < b.length then some ((), h.update l (some (b.set i (some w)))) else none

/-- `realloc`: the content moves into a block of the new size, which may be at the old place. -/
def realloc (A : Allocator ν) (p : Option Loc) (n : Nat) : HeapM ν Loc :=
  match p with
  | none => malloc A n
  | some l => fun h => (h.block l).bind fun b =>
      alloc A (b.take n ++ List.replicate (n - b.length) none) (h.update l none)

/-- A result that must be there. -/
def require {α : Type} (x : Option α) : HeapM ν α := fun h => x.map fun a => (a, h)

/-- Follow a pointer. -/
def deref (p : Option Loc) : HeapM ν Loc := require p

/-- A pointer in memory. -/
def loadPtr (l : Loc) (i : Nat) : HeapM ν (Option Loc) := do
  let w ← load l i
  match w with
  | .ptr p => pure p
  | _ => failure

/-- A value in memory. -/
def loadData (l : Loc) (i : Nat) : HeapM ν ν := do
  let w ← load l i
  match w with
  | .data v => pure v
  | _ => failure

/-- A byte in memory. -/
def loadByte (l : Loc) (i : Nat) : HeapM ν UInt8 := do
  let w ← load l i
  match w with
  | .byte b => pure b
  | _ => failure

/-- Whether `strcmp` finds the string in memory, from an index on, equal to another one; it reads
up to the first difference. -/
def strcmpFrom (l : Loc) : Nat → CStr → HeapM ν Bool
  | i, [] => do
    let b ← loadByte l i
    pure (b == 0)
  | i, c :: rest => do
    let b ← loadByte l i
    if b = c then strcmpFrom l (i + 1) rest else pure false

/-- `strcmp(l, s) == 0`. -/
def strcmp (l : Loc) (s : CStr) : HeapM ν Bool := strcmpFrom l 0 s

/-- The string at the beginning of a block. -/
def textOf : HeapBlock ν → Option CStr
  | some (.byte b) :: rest => if b = 0 then some [] else (textOf rest).map (b :: ·)
  | _ => none

/-- What a reader of a string in memory sees. -/
def readText (l : Loc) : HeapM ν CStr := fun h =>
  (h.block l).bind fun b => (textOf b).map fun s => (s, h)

/-- A number of rounds that suffices for a walk over live blocks. -/
def rounds : HeapM ν Nat := fun h => some (h.bound, h)

theorem textOf_text {s : CStr} (hs : 0 ∉ s) : textOf (text s : HeapBlock ν) = some s := by
  induction s with
  | nil => rfl
  | cons b rest ih =>
    rw [List.mem_cons, not_or] at hs
    change (if b = 0 then _ else (textOf (text rest)).map _) = _
    rw [if_neg (Ne.symm hs.1), ih hs.2]
    rfl

/-! ## Which blocks there are -/

variable {α β : Type}

/-- The heap consists of these blocks and of what was there at first. -/
structure Holds (h h₀ : Heap ν) (m : Multiset (Loc × HeapBlock ν)) : Prop where
  nodup : (m.map Prod.fst).Nodup
  live : ∀ c ∈ m, h.block c.1 = some c.2
  new : ∀ c ∈ m, h₀.block c.1 = none
  frame : ∀ l, l ∉ m.map Prod.fst → h.block l = h₀.block l

namespace Holds

variable {h h₀ : Heap ν} {m : Multiset (Loc × HeapBlock ν)} {l : Loc} {b : HeapBlock ν}

theorem start (h : Heap ν) : Holds h h 0 where
  nodup := Multiset.nodup_zero
  live c hc := absurd hc (Multiset.notMem_zero c)
  new c hc := absurd hc (Multiset.notMem_zero c)
  frame _ _ := rfl

theorem ne_of_mem (hh : Holds h h₀ ((l, b) ::ₘ m)) {c : Loc × HeapBlock ν} (hc : c ∈ m) :
    c.1 ≠ l := by
  have hnodup := hh.nodup
  rw [Multiset.map_cons, Multiset.nodup_cons] at hnodup
  intro heq
  have hmem := Multiset.mem_map_of_mem Prod.fst hc
  rw [heq] at hmem
  exact hnodup.1 hmem

/-- A block that is new to the heap. -/
theorem alloc (hh : Holds h h₀ m) (hl : h.block l = none) (b : HeapBlock ν) :
    Holds (h.update l (some b)) h₀ ((l, b) ::ₘ m) := by
  have hother : l ∉ m.map Prod.fst := by
    intro hmem
    obtain ⟨c, hc, rfl⟩ := Multiset.mem_map.mp hmem
    rw [hh.live c hc] at hl
    cases hl
  have hne {c : Loc × HeapBlock ν} (hc : c ∈ m) : c.1 ≠ l := by
    rintro rfl
    exact hother (Multiset.mem_map_of_mem Prod.fst hc)
  refine ⟨?_, ?_, ?_, ?_⟩
  · rw [Multiset.map_cons, Multiset.nodup_cons]
    exact ⟨hother, hh.nodup⟩
  · intro c hc
    rcases Multiset.mem_cons.mp hc with rfl | hc
    · exact Function.update_self ..
    · exact (Function.update_of_ne (hne hc) ..).trans (hh.live c hc)
  · intro c hc
    rcases Multiset.mem_cons.mp hc with rfl | hc
    · exact (hh.frame l hother).symm.trans hl
    · exact hh.new c hc
  · intro l' hl'
    rw [Multiset.map_cons, Multiset.mem_cons, not_or] at hl'
    exact (Function.update_of_ne hl'.1 ..).trans (hh.frame l' hl'.2)

theorem free (hh : Holds h h₀ ((l, b) ::ₘ m)) : Holds (h.update l none) h₀ m := by
  refine ⟨?_, ?_, fun c hc => hh.new c (Multiset.mem_cons_of_mem hc), ?_⟩
  · have hnodup := hh.nodup
    rw [Multiset.map_cons, Multiset.nodup_cons] at hnodup
    exact hnodup.2
  · intro c hc
    exact (Function.update_of_ne (hh.ne_of_mem hc) ..).trans
      (hh.live c (Multiset.mem_cons_of_mem hc))
  · intro l' hl'
    by_cases heq : l' = l
    · subst heq
      exact (Function.update_self ..).trans (hh.new _ (Multiset.mem_cons_self _ m)).symm
    · refine (Function.update_of_ne heq ..).trans (hh.frame l' ?_)
      rw [Multiset.map_cons, Multiset.mem_cons, not_or]
      exact ⟨heq, hl'⟩

theorem store (hh : Holds h h₀ ((l, b) ::ₘ m)) (b' : HeapBlock ν) :
    Holds (h.update l (some b')) h₀ ((l, b') ::ₘ m) := by
  refine ⟨?_, ?_, ?_, ?_⟩
  · have hnodup := hh.nodup
    rw [Multiset.map_cons] at hnodup ⊢
    exact hnodup
  · intro c hc
    rcases Multiset.mem_cons.mp hc with rfl | hc
    · exact Function.update_self ..
    · exact (Function.update_of_ne (hh.ne_of_mem hc) ..).trans
        (hh.live c (Multiset.mem_cons_of_mem hc))
  · intro c hc
    rcases Multiset.mem_cons.mp hc with rfl | hc
    · exact hh.new (l, b) (Multiset.mem_cons_self _ m)
    · exact hh.new c (Multiset.mem_cons_of_mem hc)
  · intro l' hl'
    rw [Multiset.map_cons] at hl'
    have hne : l' ≠ l := fun heq => hl' (heq ▸ Multiset.mem_cons_self _ _)
    refine (Function.update_of_ne hne ..).trans (hh.frame l' ?_)
    rw [Multiset.map_cons]
    exact hl'

/-- There are no more blocks than addresses. -/
theorem card_le (hh : Holds h h₀ m) : m.card ≤ h.bound := by
  rw [← Multiset.card_map Prod.fst m, ← Multiset.toFinset_card_of_nodup hh.nodup]
  have hsub : (m.map Prod.fst).toFinset ⊆ Finset.range h.bound := by
    intro l hl
    rw [Multiset.mem_toFinset, Multiset.mem_map] at hl
    obtain ⟨c, hc, rfl⟩ := hl
    rw [Finset.mem_range]
    by_contra hle
    have hlive := hh.live c hc
    rw [h.unused c.1 (Nat.not_lt.mp hle)] at hlive
    cases hlive
  exact (Finset.card_le_card hsub).trans (Finset.card_range _).le

end Holds

/-! ## What a program does with its blocks -/

/-- From these blocks the program ends with an answer and blocks as described. -/
def Spec (prog : HeapM ν α) (m : Multiset (Loc × HeapBlock ν))
    (Q : α → Multiset (Loc × HeapBlock ν) → Prop) : Prop :=
  ∀ h₀ h, Holds h h₀ m → ∃ a h' m', prog h = some (a, h') ∧ Holds h' h₀ m' ∧ Q a m'

namespace Spec

variable {prog : HeapM ν α} {f : α → HeapM ν β} {m m' : Multiset (Loc × HeapBlock ν)}
variable {Q : α → Multiset (Loc × HeapBlock ν) → Prop}
variable {R : β → Multiset (Loc × HeapBlock ν) → Prop}
variable {l : Loc} {b : HeapBlock ν} {i : Nat}

theorem pure {a : α} (h : Q a m) : Spec (Pure.pure a) m Q :=
  fun _ heap hh => ⟨a, heap, m, rfl, hh, h⟩

theorem bind (hprog : Spec prog m Q) (hf : ∀ a m', Q a m' → Spec (f a) m' R) :
    Spec (prog >>= f) m R := by
  intro h₀ h hh
  obtain ⟨a, h₁, m₁, hrun, hh₁, hQ⟩ := hprog h₀ h hh
  obtain ⟨c, h₂, m₂, hrun', hh₂, hR⟩ := hf a m₁ hQ h₀ h₁ hh₁
  refine ⟨c, h₂, m₂, ?_, hh₂, hR⟩
  change (prog h).bind (fun p => f p.1 p.2) = some (c, h₂)
  rw [hrun]
  exact hrun'

theorem mono {Q' : α → Multiset (Loc × HeapBlock ν) → Prop} (h : Spec prog m Q)
    (hQ : ∀ a m', Q a m' → Q' a m') : Spec prog m Q' := by
  intro h₀ heap hh
  obtain ⟨a, h', m', hrun, hh', hq⟩ := h h₀ heap hh
  exact ⟨a, h', m', hrun, hh', hQ a m' hq⟩

/-- A program that ends with no blocks has left the heap as it was. -/
theorem exists_run (h : Spec prog 0 fun a m' => m' = 0 ∧ Q a m') (heap : Heap ν) :
    ∃ a heap', prog heap = some (a, heap') ∧ Q a 0 ∧ ∀ l, heap'.block l = heap.block l := by
  obtain ⟨a, heap', m', hrun, hh, rfl, hq⟩ := h heap heap (.start heap)
  exact ⟨a, heap', hrun, hq, fun l => hh.frame l (Multiset.notMem_zero l)⟩

theorem alloc (A : Allocator ν) (b : HeapBlock ν) :
    Spec (Heap.alloc A b) m fun l m' => m' = (l, b) ::ₘ m :=
  fun _ h hh => ⟨A.pick h, _, _, rfl, hh.alloc (A.unused h) b, rfl⟩

theorem free : Spec (Heap.free (some l)) ((l, b) ::ₘ m) fun _ m' => m' = m := by
  intro h₀ h hh
  have hlive : h.block l = some b := hh.live (l, b) (Multiset.mem_cons_self _ m)
  refine ⟨(), _, m, ?_, hh.free, rfl⟩
  change (h.block l).map _ = _
  rw [hlive]
  rfl

theorem load {w : Word ν} (hl : (l, b) ∈ m) (hw : b[i]? = some (some w)) :
    Spec (Heap.load l i) m fun a m' => a = w ∧ m' = m := by
  intro h₀ h hh
  refine ⟨w, h, m, ?_, hh, rfl, rfl⟩
  rw [Heap.load, hh.live (l, b) hl, Option.bind_some, hw]
  rfl

theorem store (w : Word ν) (hi : i < b.length) :
    Spec (Heap.store l i w) ((l, b) ::ₘ m) fun _ m' => m' = (l, b.set i (some w)) ::ₘ m := by
  intro h₀ h hh
  refine ⟨(), _, _, ?_, hh.store (b.set i (some w)), rfl⟩
  rw [Heap.store, hh.live (l, b) (Multiset.mem_cons_self _ m), Option.bind_some, if_pos hi]

theorem require (a : α) : Spec (Heap.require (some a)) m fun x m' => x = a ∧ m' = m :=
  fun _ h hh => ⟨a, h, m, rfl, hh, rfl, rfl⟩

theorem deref (l : Loc) : Spec (Heap.deref (some l)) m fun a m' => a = l ∧ m' = m := require l

theorem rounds : Spec (Heap.rounds : HeapM ν Nat) m fun n m' => m.card ≤ n ∧ m' = m :=
  fun _ h hh => ⟨h.bound, h, m, rfl, hh, hh.card_le, rfl⟩

theorem realloc (A : Allocator ν) (n : Nat) :
    Spec (Heap.realloc A (some l) n) ((l, b) ::ₘ m) fun l' m' =>
      m' = (l', b.take n ++ List.replicate (n - b.length) none) ::ₘ m := by
  intro h₀ h hh
  obtain ⟨l', h', m', hrun, hh', hm'⟩ :=
    alloc A (b.take n ++ List.replicate (n - b.length) none) h₀ _ hh.free
  have hlive : h.block l = some b := hh.live (l, b) (Multiset.mem_cons_self _ m)
  refine ⟨l', h', m', ?_, hh', hm'⟩
  change (h.block l).bind _ = _
  rw [hlive]
  exact hrun

/-! ## Step by step -/

/-- A step with one possible outcome. -/
theorem step {a : α} (hprog : Spec prog m fun x m'' => x = a ∧ m'' = m') (hf : Spec (f a) m' R) :
    Spec (prog >>= f) m R := by
  refine bind hprog ?_
  rintro _ _ ⟨rfl, rfl⟩
  exact hf

theorem loadPtr {p : Option Loc} (hl : (l, b) ∈ m) (hw : b[i]? = some (some (.ptr p))) :
    Spec (Heap.loadPtr l i) m fun a m' => a = p ∧ m' = m :=
  step (load hl hw) (pure ⟨rfl, rfl⟩)

theorem loadData {v : ν} (hl : (l, b) ∈ m) (hw : b[i]? = some (some (.data v))) :
    Spec (Heap.loadData l i) m fun a m' => a = v ∧ m' = m :=
  step (load hl hw) (pure ⟨rfl, rfl⟩)

theorem loadByte {c : UInt8} (hl : (l, b) ∈ m) (hw : b[i]? = some (some (.byte c))) :
    Spec (Heap.loadByte l i) m fun a m' => a = c ∧ m' = m :=
  step (load hl hw) (pure ⟨rfl, rfl⟩)

theorem storeUnit (w : Word ν) (hi : i < b.length) :
    Spec (Heap.store l i w) ((l, b) ::ₘ m) fun a m' =>
      a = () ∧ m' = (l, b.set i (some w)) ::ₘ m :=
  (store w hi).mono fun _ _ hm => ⟨rfl, hm⟩

/-- The byte behind the front part of a string. -/
theorem loadByte_text {front back : CStr} (hl : (l, text (front ++ back)) ∈ m) :
    Spec (Heap.loadByte l front.length) m fun a m' => a = back.headD 0 ∧ m' = m := by
  refine loadByte hl ?_
  rw [text, List.append_assoc, List.map_append, List.getElem?_append_right (by simp)]
  cases back <;> simp

/-- Strings in memory are compared as strings. -/
theorem strcmpFrom {front back s : CStr} (hl : (l, text (front ++ back)) ∈ m) (hback : 0 ∉ back)
    (hs : 0 ∉ s) :
    Spec (Heap.strcmpFrom l front.length s) m fun a m' => a = decide (back = s) ∧ m' = m := by
  induction s generalizing front back with
  | nil =>
    refine step (loadByte_text hl) (pure ⟨?_, rfl⟩)
    cases back with
    | nil => rfl
    | cons c back =>
      have hc : c ≠ 0 := fun h => hback (h ▸ List.mem_cons_self)
      simp [hc]
  | cons c s ih =>
    refine step (loadByte_text hl) ?_
    cases back with
    | nil =>
      have hc : (0 : UInt8) ≠ c := fun h => hs (h ▸ List.mem_cons_self)
      rw [List.headD_nil, if_neg hc]
      exact pure ⟨rfl, rfl⟩
    | cons c' back =>
      rw [List.headD_cons]
      by_cases hc : c' = c
      · subst hc
        rw [if_pos rfl]
        have hl' : (l, text ((front ++ [c']) ++ back)) ∈ m := by simpa using hl
        have hrest := ih hl' (fun h => hback (List.mem_cons_of_mem _ h))
          (fun h => hs (List.mem_cons_of_mem _ h))
        simpa using hrest
      · rw [if_neg hc]
        exact pure ⟨by simp [hc], rfl⟩

theorem readText {s : CStr} (hl : (l, text s) ∈ m) (hs : 0 ∉ s) :
    Spec (Heap.readText l) m fun a m' => a = s ∧ m' = m := by
  intro h₀ h hh
  refine ⟨s, h, m, ?_, hh, rfl, rfl⟩
  rw [Heap.readText, hh.live (l, text s) hl, Option.bind_some, textOf_text hs]
  rfl

theorem strcmp {s s' : CStr} (hl : (l, text s) ∈ m) (hs : 0 ∉ s) (hs' : 0 ∉ s') :
    Spec (Heap.strcmp l s') m fun a m' => a = decide (s = s') ∧ m' = m := by
  have hl' : (l, text ([] ++ s)) ∈ m := hl
  exact strcmpFrom hl' hs hs'

end Spec

end Heap

end Core

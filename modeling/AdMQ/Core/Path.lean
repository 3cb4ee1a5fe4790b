import AdMQ.Core.CString

/-!
# Resolving paths by their components

A place in a file tree is the list of names from the root to it. A path is walked
component by component: an empty one and `.` stay, `..` goes to the parent, any other
goes down. Symbolic links are not followed.

A walk that never goes above its start ends below it, wherever it starts. A walk that
does go above it ends below its start only by spelling out the names it left.
-/

namespace Core

/-- The pieces of a path between its slashes. -/
def components (path : CStr) : List CStr := path.splitOn (byte '/')

/-- One component of a walk; the parent of the root is the root. -/
def walk (place : List CStr) (component : CStr) : List CStr :=
  if component = [] ∨ component = ascii "." then place
  else if component = ascii ".." then place.dropLast
  else place ++ [component]

/-- Where a path leads from a place. -/
def walkAll (place : List CStr) (pieces : List CStr) : List CStr := pieces.foldl walk place

/-- Where a path leads: an absolute one from the root, any other from the working directory. -/
def resolve (cwd : List CStr) (path : CStr) : List CStr :=
  walkAll (if path.head? = some (byte '/') then [] else cwd) (components path)

/-- A walk that has gone `depth` names down leaves the place where it started. -/
def climbs : Nat → List CStr → Bool
  | _, [] => false
  | depth, c :: rest =>
    if c = [] ∨ c = ascii "." then climbs depth rest
    else if c = ascii ".." then
      match depth with
      | 0 => true
      | depth + 1 => climbs depth rest
    else climbs (depth + 1) rest

variable {place pieces : List CStr}

/-- A path below a directory is walked from where the directory is. -/
theorem resolve_append {dir : CStr} (hdir : dir ≠ []) (cwd : List CStr) (path : CStr) :
    resolve cwd (dir ++ byte '/' :: path) = walkAll (resolve cwd dir) (components path) := by
  obtain ⟨b, dir, rfl⟩ := List.exists_cons_of_ne_nil hdir
  rw [resolve, components, List.splitOn_append_cons_self, walkAll, List.foldl_append]
  rfl

/-- A walk passes through names that it starts from or that its components spell. -/
theorem mem_of_mem_walkAll {name : CStr} (h : name ∈ walkAll place pieces) :
    name ∈ place ∨ name ∈ pieces := by
  induction pieces generalizing place with
  | nil => exact Or.inl h
  | cons c rest ih =>
    rcases ih h with hplace | hrest
    · unfold walk at hplace
      split_ifs at hplace
      · exact Or.inl hplace
      · exact Or.inl (List.dropLast_subset _ hplace)
      · rcases List.mem_append.mp hplace with hplace | hname
        · exact Or.inl hplace
        · rw [List.mem_singleton.mp hname]
          exact Or.inr (List.mem_cons_self ..)
    · exact Or.inr (List.mem_cons_of_mem _ hrest)

/-- A walk that does not climb is the same walk below any place. -/
theorem walkAll_append (below : List CStr) (h : climbs below.length pieces = false)
    (place : List CStr) :
    walkAll (place ++ below) pieces = place ++ walkAll below pieces := by
  induction pieces generalizing below with
  | nil => rfl
  | cons c rest ih =>
    have hcons (p : List CStr) : walkAll p (c :: rest) = walkAll (walk p c) rest := rfl
    rw [hcons, hcons]
    unfold climbs at h
    unfold walk
    split_ifs at h ⊢
    · exact ih _ h
    · cases hbelow : below with
      | nil => simp [hbelow] at h
      | cons b below' =>
        rw [hbelow, List.length_cons] at h
        rw [List.dropLast_append_of_ne_nil (List.cons_ne_nil _ _)]
        refine ih _ ?_
        rw [List.length_dropLast, List.length_cons]
        exact h
    · rw [List.append_assoc]
      refine ih _ ?_
      rw [List.length_append]
      exact h

/-- Once a walk has climbed, the name of the place it started from is gone. -/
theorem mem_of_climbs {top name : CStr} (below : List CStr)
    (h : climbs below.length pieces = true) (hname : name ∈ walkAll (top :: below) pieces) :
    name ∈ below ∨ name ∈ pieces := by
  induction pieces generalizing below with
  | nil => cases h
  | cons c rest ih =>
    have hcons : walkAll (top :: below) (c :: rest) = walkAll (walk (top :: below) c) rest := rfl
    rw [hcons] at hname
    unfold climbs at h
    unfold walk at hname
    split_ifs at h hname
    · exact (ih below h hname).imp_right (List.mem_cons_of_mem _)
    · cases hbelow : below with
      | nil =>
        rw [hbelow] at hname
        rcases mem_of_mem_walkAll hname with hnil | hrest
        · cases hnil
        · exact Or.inr (List.mem_cons_of_mem _ hrest)
      | cons b below' =>
        rw [hbelow, List.length_cons] at h
        rw [hbelow, List.dropLast_cons_cons] at hname
        have hlen : (b :: below').dropLast.length = below'.length := by simp
        rcases ih _ (hlen ▸ h) hname with hdrop | hrest
        · exact Or.inl (List.dropLast_subset _ hdrop)
        · exact Or.inr (List.mem_cons_of_mem _ hrest)
    · have hlen : (below ++ [c]).length = below.length + 1 := List.length_append
      rcases ih _ (hlen ▸ h) hname with hmem | hrest
      · rcases List.mem_append.mp hmem with hmem | hc
        · exact Or.inl hmem
        · rw [List.mem_singleton.mp hc]
          exact Or.inr (List.mem_cons_self ..)
      · exact Or.inr (List.mem_cons_of_mem _ hrest)

/-- What is appended without a slash extends the last component. -/
theorem exists_components_append {extension : CStr} (h : byte '/' ∉ extension) (path : CStr) :
    ∃ before last, components (path ++ extension) = before ++ [last ++ extension] := by
  unfold components
  induction path using piece_induction (byte '/') with
  | last l hl => exact ⟨[], l, List.splitOn_eq_singleton (by simp [hl, h])⟩
  | piece l rest hl ih =>
    obtain ⟨before, last, heq⟩ := ih
    refine ⟨l :: before, last, ?_⟩
    rw [List.append_assoc, List.cons_append, List.splitOn_append_cons_self_of_not_mem hl, heq]
    rfl

/-- A walk ends with the name that its last component spells. -/
theorem walkAll_concat {name : CStr} (hname : name ≠ [] ∧ name ≠ ascii "." ∧ name ≠ ascii "..")
    (place pieces : List CStr) :
    walkAll place (pieces ++ [name]) = walkAll place pieces ++ [name] := by
  rw [walkAll, List.foldl_concat, walk, if_neg (by simp [hname.1, hname.2.1]), if_neg hname.2.2]
  rfl

end Core

import AdMQ.Agent.ActionFile
import AdMQ.Core.CharArray

/-!
# Files of settings

`config_load` and `agent_config_load` are one loop over different structures. Blank
lines, comments and section headers are passed over; every other line with an `=` is a
key and a value, whose quotes are stripped, and a chain of comparisons assigns the value
to the field of the key. What a field holds in the end is the last value of its key.
-/

namespace AdMQ

open Core

/-- Blank lines, comments and section headers are passed over. -/
def isPassedOver (trimmed : CStr) : Bool := isIgnored trimmed || isHeader trimmed

/-- The key and the value of a trimmed line. -/
def setting? (trimmed : CStr) : Option (CStr × CStr) :=
  if isPassedOver trimmed then none
  else (keyValue? trimmed).map fun e => (e.1, stripQuotes e.2)

/-- The settings of a file, in the order in which they are read. -/
def settings (text : List UInt8) : List (CStr × CStr) := (readLines text).filterMap setting?

/-- A loader of settings: the result is 1, unless the file cannot be opened and the defaults
are kept. -/
def loadSettings {σ : Type*} (assign : σ → CStr → CStr → σ) (defaults : σ) :
    Option (List UInt8) → Bool × σ
  | none => (false, defaults)
  | some text => (true, (settings text).foldl (fun c e => assign c e.1 e.2) defaults)

/-- The settings that a loader sees. -/
def fileSettings (file : Option (List UInt8)) : List (CStr × CStr) := (file.map settings).getD []

/-- The last value of a key, or its default. -/
def settingOr (key default : CStr) (file : Option (List UInt8)) : CStr :=
  (lastValue key (fileSettings file)).getD default

theorem loadSettings_snd {σ : Type*} (assign : σ → CStr → CStr → σ) (defaults : σ)
    (file : Option (List UInt8)) : (loadSettings assign defaults file).2 =
      (fileSettings file).foldl (fun c e => assign c e.1 e.2) defaults := by
  cases file <;> rfl

/-! ## Fields -/

section Fields

variable {σ α : Type*} {assign : σ → CStr → CStr → σ} {get : σ → α} {key : CStr}

/-- The values of a key, in the order in which they are read. -/
def valuesOf (key : CStr) (entries : List (CStr × CStr)) : List CStr :=
  (entries.filter fun e => decide (e.1 = key)).map Prod.snd

theorem valuesOf_cons (key : CStr) (e : CStr × CStr) (entries : List (CStr × CStr)) :
    valuesOf key (e :: entries) =
      if e.1 = key then e.2 :: valuesOf key entries else valuesOf key entries := by
  by_cases h : e.1 = key
  · simp [valuesOf, h]
  · simp [valuesOf, h]

theorem lastValue_eq (key : CStr) (entries : List (CStr × CStr)) :
    lastValue key entries = (valuesOf key entries).getLast? := by
  rw [valuesOf, List.getLast?_map]
  rfl

/-- A field sees only the values of its key. -/
theorem get_foldl (put : α → CStr → α) (hown : ∀ c v, get (assign c key v) = put (get c) v)
    (hother : ∀ c k v, k ≠ key → get (assign c k v) = get c)
    (entries : List (CStr × CStr)) (c : σ) :
    get (entries.foldl (fun c e => assign c e.1 e.2) c) =
      (valuesOf key entries).foldl put (get c) := by
  induction entries generalizing c with
  | nil => rfl
  | cons e entries ih =>
    rw [List.foldl_cons, ih, valuesOf_cons]
    by_cases hkey : e.1 = key
    · rw [if_pos hkey, List.foldl_cons, hkey, hown]
    · rw [if_neg hkey, hother c e.1 e.2 hkey]

/-- A number is that of the last value of its key. -/
theorem get_load_number {value : CStr → α} (hown : ∀ c v, get (assign c key v) = value v)
    (hother : ∀ c k v, k ≠ key → get (assign c k v) = get c) (defaults : σ)
    (file : Option (List UInt8)) : get (loadSettings assign defaults file).2 =
      ((lastValue key (fileSettings file)).map value).getD (get defaults) := by
  have hlast (values : List CStr) (x : α) :
      values.foldl (fun _ v => value v) x = (values.getLast?.map value).getD x := by
    induction values generalizing x with
    | nil => rfl
    | cons v values ih =>
      rw [List.foldl_cons, ih, List.getLast?_cons]
      cases values.getLast? <;> rfl
  rw [loadSettings_snd, get_foldl (fun _ v => value v) hown hother, hlast, lastValue_eq]

/-- An array is a copy of the last value of its key. -/
theorem get_load_array {size : Nat} {get : σ → CharArray size}
    (hown : ∀ c v, get (assign c key v) = (get c).copy v)
    (hother : ∀ c k v, k ≠ key → get (assign c k v) = get c) {defaults : σ}
    {a : CharArray size} {default : CStr} (hdefault : get defaults = a.copy default)
    (file : Option (List UInt8)) :
    get (loadSettings assign defaults file).2 = a.copy (settingOr key default file) := by
  rw [loadSettings_snd, get_foldl CharArray.copy hown hother, hdefault, CharArray.foldl_copy,
    settingOr, lastValue_eq]

end Fields

end AdMQ

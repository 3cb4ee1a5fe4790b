import AdMQ.Core.CString

/-!
# Numbers read by `atoi`

`atoi` is `strtol` in base ten with the result converted to an `int`: white space is
skipped, a sign may follow, and digits are read up to the first other byte. A `long`
of 64 bits that would overflow is clamped; the conversion to an `int` of 32 bits
keeps the low bits. Printing an `int` that is not negative and reading it back gives it.
-/

namespace Core

/-- `INT_MAX`. -/
def intMax : Nat := 2147483647

/-- `LONG_MAX`. -/
def longMax : Nat := 9223372036854775807

/-- `isdigit`. -/
def isdigit (b : UInt8) : Bool := 48 ≤ b && b ≤ 57

/-- The number that a row of digits stands for. -/
def digitsValue (digits : CStr) : Nat := digits.foldl (fun n b => 10 * n + (b.toNat - 48)) 0

/-- The sign in front of a number and what follows it. -/
def scanSign : CStr → Bool × CStr
  | [] => (false, [])
  | b :: rest =>
    if b = byte '-' then (true, rest)
    else if b = byte '+' then (false, rest)
    else (false, b :: rest)

/-- `strtol(s, NULL, 10)`. -/
def strtol (s : CStr) : Int :=
  let (negative, rest) := scanSign (s.dropWhile isspace)
  let magnitude : Int := digitsValue (rest.takeWhile isdigit)
  if negative then max (-longMax - 1) (-magnitude) else min longMax magnitude

/-- `atoi`; the conversion keeps the lowest 32 bits. -/
def atoi (s : CStr) : Int := (strtol s).bmod (2 * (intMax + 1))

/-- The code of a digit is a digit. -/
theorem isdigit_of_mem_toDigits {n : Nat} {b : UInt8} (h : b ∈ (Nat.toDigits 10 n).map byte) :
    isdigit b = true := by
  obtain ⟨c, hc, rfl⟩ := List.mem_map.mp h
  have hcode := toNat_lt_of_isDigit (Nat.isDigit_of_mem_toDigits (by decide) (by decide) hc)
  have hbyte : (byte c).toNat = c.toNat := toNat_byte (by omega)
  simp only [isdigit, Bool.and_eq_true, decide_eq_true_eq, UInt8.le_iff_toNat_le]
  rw [hbyte]
  exact ⟨hcode.1, Nat.le_of_lt_succ hcode.2⟩

/-- No white space comes after the blank. -/
theorem isspace_eq_false_of_lt {b : UInt8} (h : 32 < b) : isspace b = false := by
  simp only [isspace, Bool.or_eq_false_iff, Bool.and_eq_false_iff, beq_eq_false_iff_ne,
    decide_eq_false_iff_not]
  refine ⟨?_, Or.inr fun hle => ?_⟩
  · rintro rfl
    exact absurd h (by decide)
  · exact absurd (UInt8.lt_of_lt_of_le h hle) (by decide)

theorem isspace_of_isdigit {b : UInt8} (h : isdigit b = true) : isspace b = false := by
  simp only [isdigit, Bool.and_eq_true, decide_eq_true_eq] at h
  exact isspace_eq_false_of_lt (UInt8.lt_of_lt_of_le (by decide) h.1)

theorem digitsValue_toDigits (n : Nat) : digitsValue ((Nat.toDigits 10 n).map byte) = n := by
  have hvalue : ∀ (cs : List Char) (acc : Nat), (∀ c ∈ cs, c.isDigit = true) →
      (cs.map byte).foldl (fun n b => 10 * n + (b.toNat - 48)) acc =
        Nat.ofDigitChars 10 cs acc := by
    intro cs
    induction cs with
    | nil => intros; rfl
    | cons c cs ih =>
      intro acc hcs
      rw [List.forall_mem_cons] at hcs
      have hcode := toNat_lt_of_isDigit hcs.1
      have hbyte : (byte c).toNat = c.toNat := toNat_byte (by omega)
      rw [List.map_cons, List.foldl_cons, hbyte, ih _ hcs.2]
      rfl
  rw [digitsValue, hvalue _ 0 fun c hc => Nat.isDigit_of_mem_toDigits (by decide) (by decide) hc,
    Nat.ofDigitChars_ten_toDigits]

/-- An `int` that is not negative has at most ten digits. -/
theorem length_decimal_le {n : Nat} (h : n ≤ intMax) : (decimal n).length ≤ 10 := by
  have hlt : n < 10 ^ 10 := Nat.lt_of_le_of_lt h (by decide)
  change ((Nat.toDigits 10 n).map byte).length ≤ 10
  rwa [List.length_map, Nat.length_toDigits_le_iff (by decide) (by decide)]

/-- What is printed for an `int` that is not negative is read as the same number. -/
theorem atoi_decimal {n : Nat} (h : n ≤ intMax) : atoi (decimal n) = n := by
  have hdigit : ∀ b ∈ decimal n, isdigit b = true := fun b hb => isdigit_of_mem_toDigits hb
  obtain ⟨b, rest, hcons⟩ : ∃ b rest, decimal n = b :: rest :=
    List.exists_cons_of_ne_nil (by simp [decimal, Nat.toDigits_ne_nil])
  have hb : isdigit b = true := hdigit b (by rw [hcons]; exact List.mem_cons_self ..)
  have hspace : isspace b = false := isspace_of_isdigit hb
  have hsign : scanSign ((decimal n).dropWhile isspace) = (false, decimal n) := by
    rw [hcons, List.dropWhile_cons_of_neg (by rw [hspace]; decide), scanSign, if_neg, if_neg]
    · rintro rfl
      exact absurd hb (by decide)
    · rintro rfl
      exact absurd hb (by decide)
  have hall : (decimal n).takeWhile isdigit = decimal n :=
    List.takeWhile_eq_self_iff.mpr hdigit
  have hvalue : digitsValue (decimal n) = n := digitsValue_toDigits n
  have hmax : intMax = 2147483647 ∧ longMax = 9223372036854775807 := ⟨rfl, rfl⟩
  simp only [atoi, strtol, hsign, hall, hvalue, Bool.false_eq_true, if_false]
  rw [Int.min_eq_right (by omega), Int.bmod_eq_of_le (by omega) (by omega)]

end Core

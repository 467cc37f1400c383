/-
Decimal text of 64-bit integers: `std::to_string` and `std::stoll` by their documented behaviour.
`stoll` skips white space, takes an optional sign and the longest run of digits, ignores what follows,
and raises when there is no digit or the value is out of range. Printing then parsing is the identity
on every `int64_t`, the extreme ones included. `std::stoi` does the same with the range of an `int`.
-/
import MiniHadoop.Base.Text
import Mathlib.Data.List.TakeWhile
import Mathlib.Data.Nat.Digits.Defs

namespace Text

/-! ## Printing -/

/-- The decimal digits of a natural number, most significant first. -/
def decimal (n : Nat) : Bytes :=
  if n = 0 then [48] else (Nat.digits 10 n).reverse.map fun d => UInt8.ofNat (48 + d)

/-- `std::to_string(x)`, also what `out << x` writes. -/
def toStr (x : Int64) : Bytes :=
  if x.toInt < 0 then 45 :: decimal x.toInt.natAbs else decimal x.toInt.natAbs

/-! ## Parsing -/

/-- The exceptions `std::stoll` and `std::stoi` raise. -/
inductive StollError where
  | invalidArgument
  | outOfRange
  deriving DecidableEq, Repr

def isDigit (b : UInt8) : Bool := 48 ≤ b && b ≤ 57

/-- The value of a run of digits. -/
def digitsValue (ds : Bytes) : Nat := ds.foldl (fun v b => 10 * v + (b.toNat - 48)) 0

/-- The optional sign `strtoll` takes before the digits. -/
def takeSign : Bytes → Bool × Bytes
  | 45 :: s => (true, s)
  | 43 :: s => (false, s)
  | s => (false, s)

/-- `std::stoll(s)`. -/
def stoll (s : Bytes) : Except StollError Int64 :=
  let signed := takeSign (s.dropWhile isSpace)
  let ds := signed.2.takeWhile isDigit
  let v : Int := if signed.1 then -(digitsValue ds : Int) else digitsValue ds
  if ds = [] then .error .invalidArgument
  else if -2 ^ 63 ≤ v ∧ v < 2 ^ 63 then .ok (Int64.ofInt v)
  else .error .outOfRange

/-- `std::stoi(s)`: what is beyond an `int` is out of range, as what is beyond a `long` is. -/
def stoi (s : Bytes) : Except StollError Int32 := do
  let v ← stoll s
  if -2 ^ 31 ≤ v.toInt ∧ v.toInt < 2 ^ 31 then return v.toInt32 else throw .outOfRange

/-! ## Digits -/

theorem digit_toNat {d : Nat} (h : d < 10) : (UInt8.ofNat (48 + d)).toNat = 48 + d := by
  simp; omega

theorem isDigit_digit {d : Nat} (h : d < 10) : isDigit (UInt8.ofNat (48 + d)) = true := by
  have := digit_toNat h
  simp only [isDigit, Bool.and_eq_true, decide_eq_true_eq, UInt8.le_iff_toNat_le]
  rw [this]
  simp; omega

theorem isDigit_of_mem_decimal {n : Nat} {b : UInt8} (h : b ∈ decimal n) : isDigit b = true := by
  unfold decimal at h
  split at h
  · rw [List.mem_singleton.1 h]; decide
  · obtain ⟨d, hd, rfl⟩ := List.mem_map.1 h
    exact isDigit_digit (Nat.digits_lt_base (by decide) (List.mem_reverse.1 hd))

theorem decimal_ne_nil (n : Nat) : decimal n ≠ [] := by
  unfold decimal
  split
  · simp
  · rename_i h
    simp [Nat.digits_eq_nil_iff_eq_zero, h]

theorem digitsValue_map : ∀ ds : List Nat, (∀ d ∈ ds, d < 10) →
    digitsValue (ds.reverse.map fun d => UInt8.ofNat (48 + d)) = Nat.ofDigits 10 ds
  | [], _ => rfl
  | d :: ds, h => by
    have ih := digitsValue_map ds fun x hx => h x (List.mem_cons_of_mem _ hx)
    have hd := digit_toNat (h d (List.mem_cons_self ..))
    unfold digitsValue at ih ⊢
    rw [List.reverse_cons, List.map_append, List.foldl_append, ih]
    simp only [List.map_cons, List.map_nil, List.foldl_cons, List.foldl_nil, hd, Nat.ofDigits_cons]
    omega

theorem digitsValue_decimal (n : Nat) : digitsValue (decimal n) = n := by
  unfold decimal
  split
  · rename_i h; rw [h]; rfl
  · rw [digitsValue_map _ fun d hd => Nat.digits_lt_base (by decide) hd, Nat.ofDigits_digits]

/-! ## Round trip -/

theorem takeWhile_decimal (n : Nat) : (decimal n).takeWhile isDigit = decimal n :=
  List.takeWhile_eq_self_iff.2 fun _ hb => isDigit_of_mem_decimal hb

/-- Digits are neither white space nor a sign, so nothing is skipped before them. -/
theorem isDigit_props {b : UInt8} (h : isDigit b = true) : isSpace b = false ∧ b ≠ 45 ∧ b ≠ 43 ∧ b ≠ 44 := by
  simp only [isDigit, Bool.and_eq_true, decide_eq_true_eq, UInt8.le_iff_toNat_le] at h
  simp only [isSpace, Bool.or_eq_false_iff, beq_eq_false_iff_ne, ne_eq, Bool.and_eq_false_iff,
    decide_eq_false_iff_not, UInt8.le_iff_toNat_le, ← UInt8.toNat_inj]
  simp at h ⊢
  omega

theorem takeSign_decimal (n : Nat) : takeSign ((decimal n).dropWhile isSpace) = (false, decimal n) := by
  cases hd : decimal n with
  | nil => exact absurd hd (decimal_ne_nil n)
  | cons b ds =>
    obtain ⟨h1, h2, h3, -⟩ := isDigit_props (isDigit_of_mem_decimal (n := n) (b := b) (by simp [hd]))
    rw [List.dropWhile_cons, h1]
    simp only [Bool.false_eq_true, if_false]
    unfold takeSign
    split
    · rename_i he; cases he; exact absurd rfl h2
    · rename_i he; cases he; exact absurd rfl h3
    · rfl

/-- Parsing the printed form of an `int64_t` gives it back. -/
theorem stoll_toStr (x : Int64) : stoll (toStr x) = .ok x := by
  have h1 := x.le_toInt
  have h2 := x.toInt_lt
  unfold toStr
  split
  · rename_i hneg
    have hs : takeSign ((45 :: decimal x.toInt.natAbs).dropWhile isSpace) =
        (true, decimal x.toInt.natAbs) := rfl
    simp only [stoll, hs, takeWhile_decimal, digitsValue_decimal, if_neg (decimal_ne_nil _), if_true]
    rw [show (-(x.toInt.natAbs : Int)) = x.toInt by omega, if_pos ⟨h1, h2⟩, Int64.ofInt_toInt]
  · rename_i hpos
    simp only [stoll, takeSign_decimal, takeWhile_decimal, digitsValue_decimal,
      if_neg (decimal_ne_nil _), Bool.false_eq_true, if_false]
    rw [show ((x.toInt.natAbs : Int)) = x.toInt by omega, if_pos ⟨h1, h2⟩, Int64.ofInt_toInt]

/-- Different integers print differently. -/
theorem toStr_injective : Function.Injective toStr := by
  intro x y h
  have := stoll_toStr x
  rw [h, stoll_toStr y] at this
  exact (Except.ok.inj this).symm

/-- Printed integers hold no white space and no comma. -/
theorem of_mem_toStr {x : Int64} {b : UInt8} (h : b ∈ toStr x) : isSpace b = false ∧ b ≠ 44 := by
  unfold toStr at h
  split at h
  · rcases List.mem_cons.1 h with rfl | h
    · decide
    · obtain ⟨h1, -, -, h4⟩ := isDigit_props (isDigit_of_mem_decimal h)
      exact ⟨h1, h4⟩
  · obtain ⟨h1, -, -, h4⟩ := isDigit_props (isDigit_of_mem_decimal h)
    exact ⟨h1, h4⟩

theorem toStr_ne_nil (x : Int64) : toStr x ≠ [] := by
  unfold toStr
  split
  · simp
  · exact decimal_ne_nil _

end Text

/-
Comparison functions in the style of `memcmp`: the sign of a result says which of two values comes first. What
such a function must do for values to be sorted by it, and that it does so when its signs follow a linear order.
-/
import Mathlib.Algebra.Order.Ring.Int
import Mathlib.Data.List.Lex
import MiniHadoop.Base.Text

namespace Comparison

open Text

variable {α β : Type}

/-- The sign of what a comparison returns. -/
def sign (c : Int32) : Int := c.toInt.sign

/-- `operator<` derived from a comparison. -/
def less (cmp : α → α → Int32) (a b : α) : Bool := cmp a b < 0

/-- What sorting relies on, for three values. -/
structure OrderLaws (cmp : α → α → Int32) (a b c : α) : Prop where
  opposite : sign (cmp a b) = -sign (cmp b a)
  trans : less cmp a b = true → less cmp b c = true → less cmp a c = true
  zero : cmp a b = 0 ↔ a = b

/-! ## Following a linear order -/

/-- The signs are those of the order on what `f` makes of the values. -/
structure Follows [LinearOrder β] (f : α → β) (cmp : α → α → Int32) : Prop where
  neg : ∀ a b, (cmp a b).toInt < 0 ↔ f a < f b
  pos : ∀ a b, 0 < (cmp a b).toInt ↔ f b < f a

section Follows

variable [LinearOrder β] {f : α → β} {cmp : α → α → Int32}

theorem less_iff (a b : α) : less cmp a b = true ↔ (cmp a b).toInt < 0 := by
  rw [less, decide_eq_true_iff, Int32.lt_iff_toInt_lt]
  rfl

theorem eq_zero_iff (a b : α) : cmp a b = 0 ↔ (cmp a b).toInt = 0 :=
  ⟨fun h => by rw [h]; rfl, fun h => Int32.toInt_inj.1 h⟩

theorem Follows.eq_iff (h : Follows f cmp) (a b : α) : (cmp a b).toInt = 0 ↔ f a = f b := by
  have hneg := h.neg a b
  have hpos := h.pos a b
  rcases lt_trichotomy (f a) (f b) with hlt | heq | hgt
  · have hcmp := hneg.2 hlt
    exact ⟨fun hzero => absurd hcmp (by omega), fun heq => absurd heq (ne_of_lt hlt)⟩
  · have hneg' := mt hneg.1 (by rw [heq]; exact lt_irrefl _)
    have hpos' := mt hpos.1 (by rw [heq]; exact lt_irrefl _)
    exact ⟨fun _ => heq, fun _ => by omega⟩
  · have hcmp := hpos.2 hgt
    exact ⟨fun hzero => absurd hcmp (by omega), fun heq => absurd heq (ne_of_gt hgt)⟩

theorem Follows.sign_swap (h : Follows f cmp) (a b : α) : sign (cmp a b) = -sign (cmp b a) := by
  rw [sign, sign]
  rcases lt_trichotomy (f a) (f b) with hlt | heq | hgt
  · rw [Int.sign_eq_neg_one_of_neg ((h.neg a b).2 hlt), Int.sign_eq_one_of_pos ((h.pos b a).2 hlt)]
  · rw [(h.eq_iff a b).2 heq, (h.eq_iff b a).2 heq.symm]
    rfl
  · rw [Int.sign_eq_one_of_pos ((h.pos a b).2 hgt), Int.sign_eq_neg_one_of_neg ((h.neg b a).2 hgt)]
    rfl

/-- A comparison that follows a linear order on distinguishing images obeys the laws. -/
theorem Follows.laws (h : Follows f cmp) (hf : Function.Injective f) (a b c : α) : OrderLaws cmp a b c where
  opposite := h.sign_swap a b
  trans := by
    rw [less_iff, less_iff, less_iff, h.neg, h.neg, h.neg]
    exact lt_trans
  zero := by rw [eq_zero_iff, h.eq_iff, hf.eq_iff]

end Follows

/-! ## Bytes -/

/-- `std::memcmp` of the bytes both have: the sign is that of the first difference. -/
def memcmp : Bytes → Bytes → Int32
  | x :: xs, y :: ys => if x = y then memcmp xs ys else if x < y then -1 else 1
  | _, _ => 0

/-- The difference of two lengths as an `int`, or the end of the range it is beyond. -/
def lengthDifference (m n : Nat) : Int32 := Int32.ofInt (max (-2 ^ 31) (min (2 ^ 31 - 1) ((m : Int) - n)))

/-- `std::string::compare`. -/
def stringCompare (x y : Bytes) : Int32 :=
  if memcmp x y = 0 then lengthDifference x.length y.length else memcmp x y

theorem toInt_lengthDifference (m n : Nat) :
    (lengthDifference m n).toInt = max (-2 ^ 31) (min (2 ^ 31 - 1) ((m : Int) - n)) := by
  rw [lengthDifference, Int32.toInt_ofInt_of_le (by omega) (by omega)]

/-- Strings with a first byte each are compared by it, or by what follows it. -/
theorem stringCompare_cons (x y : UInt8) (xs ys : Bytes) :
    stringCompare (x :: xs) (y :: ys) = if x = y then stringCompare xs ys else if x < y then -1 else 1 := by
  have hlen : lengthDifference (x :: xs).length (y :: ys).length = lengthDifference xs.length ys.length := by
    apply Int32.toInt_inj.1
    rw [toInt_lengthDifference, toInt_lengthDifference, List.length_cons, List.length_cons]
    omega
  rw [stringCompare, stringCompare, memcmp, hlen]
  by_cases hxy : x = y
  · rw [if_pos hxy, if_pos hxy]
  · rw [if_neg hxy, if_neg hxy]
    by_cases hlt : x < y
    · rw [if_pos hlt]; rfl
    · rw [if_neg hlt]; rfl

theorem map_cons_lt_iff (x y : UInt8) (xs ys : Bytes) :
    (x :: xs).map UInt8.toNat < (y :: ys).map UInt8.toNat ↔
      x < y ∨ x = y ∧ xs.map UInt8.toNat < ys.map UInt8.toNat := by
  rw [List.map_cons, List.map_cons, List.cons_lt_cons_iff, UInt8.lt_iff_toNat_lt, UInt8.toNat_inj]

theorem toNat_injective : Function.Injective (List.map UInt8.toNat) :=
  List.map_injective_iff.2 fun _ _ => UInt8.toNat_inj.1

theorem byte_cases (x y : UInt8) :
    (x < y ∧ ¬ y < x ∧ x ≠ y) ∨ (x = y ∧ ¬ x < y ∧ ¬ y < x) ∨ (y < x ∧ ¬ x < y ∧ x ≠ y) := by
  have heq : x = y ↔ x.toNat = y.toNat := UInt8.toNat_inj.symm
  rw [UInt8.lt_iff_toNat_lt, UInt8.lt_iff_toNat_lt, ne_eq, heq]
  omega

/-- The comparison with the empty string is one of lengths. -/
theorem stringCompare_nil (x : Bytes) :
    ((stringCompare [] x).toInt < 0 ↔ x ≠ []) ∧ ((stringCompare x []).toInt < 0 ↔ False) ∧
      (0 < (stringCompare [] x).toInt ↔ False) ∧ (0 < (stringCompare x []).toInt ↔ x ≠ []) := by
  have hleft : stringCompare [] x = lengthDifference 0 x.length := by cases x <;> rfl
  have hright : stringCompare x [] = lengthDifference x.length 0 := by cases x <;> rfl
  rw [hleft, hright, toInt_lengthDifference, toInt_lengthDifference, ← List.length_pos_iff, iff_false, iff_false]
  refine ⟨?_, ?_, ?_, ?_⟩ <;> omega

/-- Strings are compared in the order of their bytes. -/
theorem stringCompare_sign : ∀ x y : Bytes,
    ((stringCompare x y).toInt < 0 ↔ x.map UInt8.toNat < y.map UInt8.toNat) ∧
      (0 < (stringCompare x y).toInt ↔ y.map UInt8.toNat < x.map UInt8.toNat)
  | [], y => by
    obtain ⟨hneg, -, hpos, -⟩ := stringCompare_nil y
    rw [hneg, hpos]
    cases y <;> simp
  | x :: xs, [] => by
    obtain ⟨-, hneg, -, hpos⟩ := stringCompare_nil (x :: xs)
    rw [hneg, hpos]
    simp
  | x :: xs, y :: ys => by
    rw [stringCompare_cons, map_cons_lt_iff, map_cons_lt_iff]
    rcases byte_cases x y with ⟨hlt, hnot, hne⟩ | ⟨heq, hlt, hgt⟩ | ⟨hgt, hnot, hne⟩
    · simp [hlt, hnot, hne, hne.symm]
    · obtain ⟨hneg, hpos⟩ := stringCompare_sign xs ys
      simp only [heq, if_true, hneg, hpos, true_and]
      subst heq
      simp only [hlt, false_or, and_self]
    · simp [hgt, hnot, hne, hne.symm]

theorem follows_stringCompare : Follows (List.map UInt8.toNat) stringCompare :=
  ⟨fun x y => (stringCompare_sign x y).1, fun x y => (stringCompare_sign x y).2⟩

/-- Of strings of one length, `memcmp` is the comparison. -/
theorem memcmp_eq_stringCompare {x y : Bytes} (h : x.length = y.length) : memcmp x y = stringCompare x y := by
  have hlen : lengthDifference x.length y.length = 0 := by
    apply Int32.toInt_inj.1
    rw [toInt_lengthDifference, h, Int32.toInt_zero]
    omega
  rw [stringCompare, hlen]
  split
  · assumption
  · rfl

end Comparison

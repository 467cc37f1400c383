/-
`CompareTo` of the comparable types (`io/writable_types.h`, `io/md5.h`) but for floats. All follow a linear order
of their values except `IntWritable`, which returns a difference: it tells which number comes first going the
shorter way round the 2^32 numbers, so two of them half a round apart each come before the other, and three
spread over the round can each come before the next.
-/
import MiniHadoop.Base.Comparison
import MiniHadoop.Io.Writable

namespace MiniHadoop

open Text Comparison

/-! ## CompareTo -/

/-- `IntWritable::CompareTo`: the difference, which wraps. -/
def IntWritable.compareTo (a b : Int32) : Int32 := a - b

/-- `LongWritable::CompareTo`. -/
def LongWritable.compareTo (a b : Int64) : Int32 := if a < b then -1 else if a = b then 0 else 1

/-- `BooleanWritable::CompareTo`: the difference of two numbers that are 0 or 1. -/
def BooleanWritable.compareTo (a b : Bool) : Int32 := (if a then 1 else 0) - (if b then 1 else 0)

/-- `UTF8::CompareTo`. -/
def UTF8.compareTo (a b : Bytes) : Int32 := stringCompare a b

/-- `MD5Hash::CompareTo`: `memcmp` of the digests. -/
def MD5Hash.compareTo (a b : Fin kMD5Len → UInt8) : Int32 := memcmp (List.ofFn a) (List.ofFn b)

/-- The classes that implement `WritableComparable`, but for `FloatWritable`. -/
inductive ComparableType where
  | intWritable
  | longWritable
  | booleanWritable
  | utf8
  | md5Hash
  deriving DecidableEq, Repr

namespace ComparableType

/-- What an object of the class stores. -/
def Value : ComparableType → Type
  | .intWritable => Int32
  | .longWritable => Int64
  | .booleanWritable => Bool
  | .utf8 => Bytes
  | .md5Hash => Fin kMD5Len → UInt8

/-- `CompareTo` of two objects of the class. -/
def compareTo : (t : ComparableType) → t.Value → t.Value → Int32
  | .intWritable => IntWritable.compareTo
  | .longWritable => LongWritable.compareTo
  | .booleanWritable => BooleanWritable.compareTo
  | .utf8 => UTF8.compareTo
  | .md5Hash => MD5Hash.compareTo

end ComparableType

/-! ## Types that follow an order -/

theorem LongWritable.follows : Follows Int64.toInt LongWritable.compareTo := by
  have hsign : ∀ a b : Int64, ((compareTo a b).toInt < 0 ↔ a.toInt < b.toInt) ∧
      (0 < (compareTo a b).toInt ↔ b.toInt < a.toInt) := by
    intro a b
    have hlt : a < b ↔ a.toInt < b.toInt := Int64.lt_iff_toInt_lt
    have heq : a = b ↔ a.toInt = b.toInt := Int64.toInt_inj.symm
    rw [compareTo]
    rcases lt_trichotomy a.toInt b.toInt with h | h | h
    · rw [if_pos (hlt.2 h)]
      exact ⟨iff_of_true (by decide) h, iff_of_false (by decide) (lt_asymm h)⟩
    · rw [if_neg (mt hlt.1 (by omega)), if_pos (heq.2 h)]
      exact ⟨iff_of_false (by decide) (by omega), iff_of_false (by decide) (by omega)⟩
    · rw [if_neg (mt hlt.1 (by omega)), if_neg (mt heq.1 (by omega))]
      exact ⟨iff_of_false (by decide) (lt_asymm h), iff_of_true (by decide) h⟩
  exact ⟨fun a b => (hsign a b).1, fun a b => (hsign a b).2⟩

theorem BooleanWritable.follows : Follows id BooleanWritable.compareTo :=
  ⟨by decide, by decide⟩

theorem UTF8.follows : Follows (List.map UInt8.toNat) UTF8.compareTo := follows_stringCompare

/-- The bytes of a digest as numbers. -/
def MD5Hash.numbers (digest : Fin kMD5Len → UInt8) : List Nat := (List.ofFn digest).map UInt8.toNat

theorem MD5Hash.numbers_injective : Function.Injective MD5Hash.numbers :=
  toNat_injective.comp List.ofFn_injective

theorem MD5Hash.follows : Follows MD5Hash.numbers MD5Hash.compareTo := by
  have heq : ∀ a b, compareTo a b = stringCompare (List.ofFn a) (List.ofFn b) := fun a b =>
    memcmp_eq_stringCompare (by rw [List.length_ofFn, List.length_ofFn])
  constructor
  · intro a b
    rw [heq]
    exact follows_stringCompare.neg _ _
  · intro a b
    rw [heq]
    exact follows_stringCompare.pos _ _

/-! ## IntWritable -/

namespace IntWritable

/-- How far the second number is above the first one, going up round the 2^32 numbers of an `int32_t`. -/
def above (a b : Int32) : Int := (b.toInt - a.toInt) % 2 ^ 32

/-- The second number is not half a round above the first, and the third is not more than half a round above it
by two steps that are each at most that. -/
def InOrder (a b c : Int32) : Prop :=
  above a b ≠ 2 ^ 31 ∧ ¬ (above a b < 2 ^ 31 ∧ above b c ≤ 2 ^ 31 ∧ 2 ^ 31 < above a b + above b c)

/-- The result in terms of the round. -/
theorem toInt_compareTo (a b : Int32) :
    (compareTo a b).toInt = if above a b = 0 then 0 else if above a b ≤ 2 ^ 31 then -above a b
      else 2 ^ 32 - above a b := by
  rw [compareTo, Int32.toInt_sub, Int.bmod_def, above]
  split <;> split <;> try split
  all_goals omega

theorem above_eq_zero (a b : Int32) : above a b = 0 ↔ a = b := by
  have ha := a.toInt_lt
  have hb := b.toInt_lt
  have ha' := a.le_toInt
  have hb' := b.le_toInt
  rw [← Int32.toInt_inj, above]
  omega

theorem above_nonneg (a b : Int32) : 0 ≤ above a b ∧ above a b < 2 ^ 32 :=
  ⟨Int.emod_nonneg _ (by decide), Int.emod_lt_of_pos _ (by decide)⟩

/-- The way back is the rest of the round. -/
theorem above_swap (a b : Int32) : above b a = if above a b = 0 then 0 else 2 ^ 32 - above a b := by
  rw [above, above]
  split <;> omega

/-- Two steps up make one, less a whole round. -/
theorem above_add (a b c : Int32) : above a c = (above a b + above b c) % 2 ^ 32 := by
  rw [above, above, above]
  omega

theorem less_iff_above (a b : Int32) : less compareTo a b = true ↔ 0 < above a b ∧ above a b ≤ 2 ^ 31 := by
  have h := above_nonneg a b
  rw [less_iff, toInt_compareTo]
  split
  · omega
  · split <;> omega

/-- The signs are opposite but for two numbers half a round apart, where both are negative. -/
theorem sign_swap_iff (a b : Int32) : sign (compareTo a b) = -sign (compareTo b a) ↔ above a b ≠ 2 ^ 31 := by
  have h := above_nonneg a b
  have hswap := above_swap a b
  have hforth := toInt_compareTo a b
  have hback := toInt_compareTo b a
  rw [sign, sign]
  rcases lt_trichotomy (above a b) (2 ^ 31) with hlt | heq | hgt
  · by_cases hzero : above a b = 0
    · rw [show (compareTo a b).toInt = 0 by omega, show (compareTo b a).toInt = 0 by omega]
      simp [hzero]
    · rw [Int.sign_eq_neg_one_of_neg (show (compareTo a b).toInt < 0 by omega),
        Int.sign_eq_one_of_pos (show 0 < (compareTo b a).toInt by omega)]
      exact ⟨fun _ => ne_of_lt hlt, fun _ => rfl⟩
  · rw [Int.sign_eq_neg_one_of_neg (show (compareTo a b).toInt < 0 by omega),
      Int.sign_eq_neg_one_of_neg (show (compareTo b a).toInt < 0 by omega)]
    exact ⟨fun h => absurd h (by decide), fun h => absurd heq h⟩
  · rw [Int.sign_eq_one_of_pos (show 0 < (compareTo a b).toInt by omega),
      Int.sign_eq_neg_one_of_neg (show (compareTo b a).toInt < 0 by omega)]
    exact ⟨fun _ => ne_of_gt hgt, fun _ => rfl⟩

/-- The laws hold of exactly the numbers that are in order. -/
theorem laws_iff (a b c : Int32) : OrderLaws compareTo a b c ↔ InOrder a b c := by
  have hab := above_nonneg a b
  have hbc := above_nonneg b c
  have hadd := above_add a b c
  constructor
  · intro h
    have htrans := h.trans
    rw [less_iff_above, less_iff_above, less_iff_above] at htrans
    refine ⟨(sign_swap_iff a b).1 h.opposite, fun hsteps => ?_⟩
    have := htrans (by omega) (by omega)
    omega
  · rintro ⟨hhalf, hsteps⟩
    refine ⟨(sign_swap_iff a b).2 hhalf, ?_, ?_⟩
    · rw [less_iff_above, less_iff_above, less_iff_above]
      omega
    · rw [eq_zero_iff, toInt_compareTo, ← above_eq_zero]
      split
      · omega
      · split <;> omega

/-- Numbers no two of which are too far apart for their difference to be an `int32_t` are in order. -/
theorem inOrder_of_near {a b c : Int32} (hab : |b.toInt - a.toInt| < 2 ^ 31) (hbc : |c.toInt - b.toInt| < 2 ^ 31)
    (hac : |c.toInt - a.toInt| < 2 ^ 31) : InOrder a b c := by
  rw [abs_lt] at hab hbc hac
  rw [InOrder, above, above]
  omega

end IntWritable

/-! ## All types -/

namespace ComparableType

/-- When three values of a type are ones that sorting may rely on. -/
def InOrder : (t : ComparableType) → t.Value → t.Value → t.Value → Prop
  | .intWritable => IntWritable.InOrder
  | _ => fun _ _ _ => True

/-- `CompareTo` obeys the laws on exactly these values. -/
theorem compareTo_laws_iff (t : ComparableType) (a b c : t.Value) :
    OrderLaws t.compareTo a b c ↔ t.InOrder a b c := by
  cases t with
  | intWritable => exact IntWritable.laws_iff a b c
  | longWritable => exact iff_of_true (LongWritable.follows.laws (fun _ _ => Int64.toInt_inj.1) a b c) trivial
  | booleanWritable => exact iff_of_true (BooleanWritable.follows.laws Function.injective_id a b c) trivial
  | utf8 => exact iff_of_true (UTF8.follows.laws toNat_injective a b c) trivial
  | md5Hash => exact iff_of_true (MD5Hash.follows.laws MD5Hash.numbers_injective a b c) trivial

/-- Of 0 and the least `int32_t`, each comes before the other. -/
theorem compareTo_not_lawful : ¬ ∀ (t : ComparableType) (a b c : t.Value), OrderLaws t.compareTo a b c := by
  intro h
  have hopposite := (h .intWritable (0 : Int32) (-0x80000000 : Int32) (0 : Int32)).opposite
  exact absurd hopposite (by decide)

end ComparableType

end MiniHadoop

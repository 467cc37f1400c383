/-
Bytes in memory and on a connection: buffers no larger than an object can be, fixed-width integers in
network order, and a read that succeeds only when all the bytes it asks for arrive.
-/
import Mathlib.Algebra.Order.Ring.Int
import Mathlib.Data.List.OfFn
import Mathlib.Data.Nat.ModEq
import MiniHadoop.Base.Text

namespace Wire

open Text

/-- The size that no object reaches: sizes and pointer differences stay below it. -/
def maxSize : Nat := 2 ^ 63

theorem maxSize_le : maxSize ≤ 256 ^ 8 := by decide

theorem lt_maxSize {n : Nat} (h : n < 2 ^ 63) : n < maxSize := h

theorem lt_of_lt_maxSize {n : Nat} (h : n < maxSize) : n < 2 ^ 63 := h

attribute [irreducible] maxSize

/-- A vector of bytes or a range of memory. -/
abbrev Buffer := { b : Bytes // b.length < maxSize }

/-- The first `n` bytes of a buffer. -/
def Buffer.take (n : Nat) (b : Buffer) : Buffer := ⟨b.1.take n, by have := b.2; rw [List.length_take]; omega⟩

def Buffer.drop (n : Nat) (b : Buffer) : Buffer := ⟨b.1.drop n, by have := b.2; rw [List.length_drop]; omega⟩

/-! ## Integers in network order -/

/-- The low `w` bytes of a number, most significant first. -/
def beBytes : Nat → Nat → Bytes
  | 0, _ => []
  | w + 1, n => UInt8.ofNat (n / 256 ^ w % 256) :: beBytes w n

/-- The number that bytes in network order spell. -/
def beValue : Bytes → Nat
  | [] => 0
  | b :: bs => b.toNat * 256 ^ bs.length + beValue bs

@[simp] theorem length_beBytes : ∀ w n : Nat, (beBytes w n).length = w
  | 0, _ => rfl
  | w + 1, n => by rw [beBytes, List.length_cons, length_beBytes w n]

/-- A wide integer is its high bytes and then its low bytes. -/
theorem beBytes_add (v n : Nat) : ∀ w : Nat, beBytes (w + v) n = beBytes w (n / 256 ^ v) ++ beBytes v n
  | 0 => by rw [Nat.zero_add, beBytes, List.nil_append]
  | w + 1 => by
    rw [Nat.succ_add, beBytes, beBytes, beBytes_add v n w, Nat.div_div_eq_div_mul, ← pow_add, Nat.add_comm v w,
      List.cons_append]

/-- Reading back what was written gives the number modulo what the width holds. -/
theorem beValue_beBytes : ∀ w n : Nat, beValue (beBytes w n) = n % 256 ^ w
  | 0, n => by rw [beBytes, beValue, pow_zero, Nat.mod_one]
  | w + 1, n => by
    have hb : (UInt8.ofNat (n / 256 ^ w % 256)).toNat = n / 256 ^ w % 256 :=
      UInt8.toNat_ofNat_of_lt (Nat.mod_lt _ (by decide))
    rw [beBytes, beValue, hb, length_beBytes, beValue_beBytes w n, Nat.mod_pow_succ,
      Nat.mul_comm, Nat.add_comm]

/-- A number that fits its width is read back. -/
theorem beValue_of_fits {w n : Nat} (h : n < 256 ^ w) : beValue (beBytes w n) = n := by
  rw [beValue_beBytes, Nat.mod_eq_of_lt h]

theorem beValue_lt : ∀ b : Bytes, beValue b < 256 ^ b.length
  | [] => Nat.zero_lt_one
  | b :: bs => by
    have hb := b.toNat_lt
    have hbs := beValue_lt bs
    calc b.toNat * 256 ^ bs.length + beValue bs
        < b.toNat * 256 ^ bs.length + 256 ^ bs.length := by omega
      _ = (b.toNat + 1) * 256 ^ bs.length := by rw [Nat.add_mul, Nat.one_mul]
      _ ≤ 256 * 256 ^ bs.length := Nat.mul_le_mul_right _ hb
      _ = 256 ^ (bs.length + 1) := by rw [pow_succ, Nat.mul_comm]

/-- A size fits into eight bytes. -/
theorem beValue_length {b : Bytes} (h : b.length < maxSize) : beValue (beBytes 8 b.length) = b.length :=
  beValue_of_fits (lt_of_lt_of_le h maxSize_le)

/-- The two's complement of a number in `w` bytes: byte `i` is digit `w - 1 - i` of the number to the base 256. -/
def intBytes (w : Nat) (x : Int) : Bytes := List.ofFn fun i : Fin w => UInt8.ofNat (x / 256 ^ (w - 1 - i) % 256).toNat

theorem intBytes_succ (w : Nat) (x : Int) :
    intBytes (w + 1) x = UInt8.ofNat (x / 256 ^ w % 256).toNat :: intBytes w x := by
  rw [intBytes, List.ofFn_succ, intBytes]
  congr 1
  refine congrArg List.ofFn (funext fun i => ?_)
  rw [Fin.val_succ, show w + 1 - 1 - (i.1 + 1) = w - 1 - i.1 by omega]

/-- The digits of a number are those of any number that differs from it by a multiple of what the width holds. -/
theorem beBytes_eq_intBytes : ∀ (w n : Nat) (x k : Int), (n : Int) = x + 256 ^ w * k → beBytes w n = intBytes w x
  | 0, _, _, _, _ => rfl
  | w + 1, n, x, k, h => by
    have hw : (256 : Int) ^ w ≠ 0 := pow_ne_zero w (by decide)
    have hsum : (n : Int) = x + 256 ^ w * (256 * k) := by rw [h, pow_succ, mul_assoc]
    have hdigit : (n : Int) / 256 ^ w % 256 = x / 256 ^ w % 256 := by
      rw [hsum, Int.add_mul_ediv_left _ _ hw, Int.add_mul_emod_self_left]
    have hcast : (((n / 256 ^ w % 256 : Nat) : Int)).toNat = n / 256 ^ w % 256 := Int.toNat_natCast _
    rw [beBytes, intBytes_succ, beBytes_eq_intBytes w n x _ hsum, ← hdigit, ← hcast]
    norm_cast

theorem beBytes_mod (w n : Nat) : beBytes w (n % 256 ^ w) = beBytes w n := by
  have hdiv : ((n % 256 ^ w : Nat) : Int) = n + 256 ^ w * -((n / 256 ^ w : Nat) : Int) := by
    have hn : ((n % 256 ^ w : Nat) : Int) + 256 ^ w * ((n / 256 ^ w : Nat) : Int) = n := by
      exact_mod_cast Nat.mod_add_div n (256 ^ w)
    rw [mul_neg, ← hn, add_neg_cancel_right]
  rw [beBytes_eq_intBytes w _ n _ hdiv, beBytes_eq_intBytes w n n 0 (by rw [Int.mul_zero, Int.add_zero])]

/-- Bytes are those of the number they spell. -/
theorem beBytes_beValue : ∀ b : Bytes, beBytes b.length (beValue b) = b
  | [] => rfl
  | b :: bs => by
    have hlt := beValue_lt bs
    have hdigit : (b.toNat * 256 ^ bs.length + beValue bs) / 256 ^ bs.length % 256 = b.toNat := by
      rw [Nat.add_comm, Nat.add_mul_div_right _ _ (Nat.pow_pos (by decide)), Nat.div_eq_of_lt hlt, Nat.zero_add,
        Nat.mod_eq_of_lt b.toNat_lt]
    have hrest : beBytes bs.length (b.toNat * 256 ^ bs.length + beValue bs) = bs := by
      rw [← beBytes_mod, Nat.add_comm, Nat.add_mul_mod_self_right, Nat.mod_eq_of_lt hlt, beBytes_beValue bs]
    rw [List.length_cons, beBytes, beValue, hdigit, hrest, UInt8.ofNat_toNat]

/-! ## Writing to a stream -/

/-- What becomes of a `WriteFull(fd, buf, len)`: all bytes are sent; an error of `send` ends it after the first `n`
bytes; or the peer has closed its end, and `send` raises the signal `SIGPIPE`. -/
inductive SendOutcome where
  | sent
  | failed (n : Nat)
  | sigpipe
  deriving DecidableEq, Repr

/-! ## Reading a stream -/

/-- `ReadFull(fd, buf, len)` on what the peer sends before it closes: the bytes and the rest, or failure
when the stream ends early. -/
def readFull (len : Nat) (input : Bytes) : Option (Bytes × Bytes) :=
  if len ≤ input.length then some (input.take len, input.drop len) else none

theorem readFull_append {x : Bytes} {len : Nat} (h : x.length = len) (y : Bytes) :
    readFull len (x ++ y) = some (x, y) := by
  subst h
  rw [readFull, if_pos (by simp), List.take_left, List.drop_left]

theorem readFull_short {len : Nat} {input : Bytes} (h : input.length < len) : readFull len input = none := by
  rw [readFull, if_neg (by omega)]

/-- What was read and what is left are the stream. -/
theorem eq_append_of_readFull {len : Nat} {input x y : Bytes} (h : readFull len input = some (x, y)) :
    input = x ++ y ∧ x.length = len := by
  unfold readFull at h
  split at h
  · rename_i hlen
    cases h
    exact ⟨(List.take_append_drop len input).symm, List.length_take_of_le hlen⟩
  · cases h

/-- A field cut short, or read whole from a cut stream. -/
theorem readFull_take {x : Bytes} {len : Nat} (h : x.length = len) (y : Bytes) (n : Nat) :
    readFull len ((x ++ y).take n) = if len ≤ n then some (x, y.take (n - len)) else none := by
  subst h
  by_cases hn : x.length ≤ n
  · rw [if_pos hn, List.take_append, List.take_of_length_le hn]
    exact readFull_append rfl _
  · rw [if_neg hn]
    refine readFull_short ?_
    rw [List.length_take]; omega

/-- `readFull` into a vector of the size asked for, which must not be too large for one. -/
def readVector (len : Nat) (input : Bytes) : Option Buffer :=
  if h : len < maxSize ∧ len ≤ input.length then
    some ⟨input.take len, lt_of_le_of_lt (List.length_take_le len input) h.1⟩
  else none

theorem readVector_append (x : Buffer) (y : Bytes) : readVector x.1.length (x.1 ++ y) = some x := by
  have hlen : x.1.length < maxSize ∧ x.1.length ≤ (x.1 ++ y).length := ⟨x.2, by simp⟩
  rw [readVector, dif_pos hlen, Option.some.injEq]
  exact Subtype.ext List.take_left

theorem length_readVector {len : Nat} {input : Bytes} {b : Buffer} (h : readVector len input = some b) :
    b.1.length = len := by
  unfold readVector at h
  split at h
  · rename_i hlen
    cases h
    rw [List.length_take]
    omega
  · cases h

theorem readVector_short {len : Nat} {input : Bytes} (h : input.length < len) : readVector len input = none := by
  rw [readVector, dif_neg]
  omega

end Wire

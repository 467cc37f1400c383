/-
Values of different types in one buffer: what is written in order is read back in order, each value from the
place where the sizes before it add up to.
-/
import MiniHadoop.Io.Buffer

namespace MiniHadoop

open Text Wire Reading InputBuffer OutputBuffer

/-! ## The values -/

/-- The types that have a `Write` and a `Read`. An `unsignedShort` is written by `WriteShort`. -/
inductive ValueType where
  | byte
  | bool
  | short
  | unsignedShort
  | int
  | long
  | float
  | double
  | bytes
  | string
  deriving DecidableEq, Repr

/-- A value of one of these types. A float or a double is its bit pattern. -/
inductive TypedValue where
  | byte (v : UInt8)
  | bool (v : Bool)
  | short (v : Int16)
  | unsignedShort (v : UInt16)
  | int (v : Int32)
  | long (v : Int64)
  | float (bits : UInt32)
  | double (bits : UInt64)
  | bytes (data : Bytes)
  | string (s : Bytes)

namespace TypedValue

def type : TypedValue → ValueType
  | .byte _ => .byte
  | .bool _ => .bool
  | .short _ => .short
  | .unsignedShort _ => .unsignedShort
  | .int _ => .int
  | .long _ => .long
  | .float _ => .float
  | .double _ => .double
  | .bytes _ => .bytes
  | .string _ => .string

/-- The matching `Write`. -/
def write : TypedValue → Bytes
  | .byte v => writeByte v
  | .bool v => writeBool v
  | .short v => writeShort v
  | .unsignedShort v => writeShort v.toInt16
  | .int v => writeInt v
  | .long v => writeLong v
  | .float bits => writeFloat bits
  | .double bits => writeDouble bits
  | .bytes data => writeBytes data
  | .string s => writeString s

/-- The matching `Read`. -/
def read : ValueType → Reader TypedValue
  | .byte => do return .byte (← readByte)
  | .bool => do return .bool (← readBool)
  | .short => do return .short (← readShort)
  | .unsignedShort => do return .unsignedShort (← readUnsignedShort)
  | .int => do return .int (← readInt)
  | .long => do return .long (← readLong)
  | .float => do return .float (← readFloat)
  | .double => do return .double (← readDouble)
  | .bytes => do return .bytes (← readBytes)
  | .string => do return .string (← readString)

/-- One value after the other. -/
def writeAll (vs : List TypedValue) : Bytes := vs.flatMap write

/-- Values of the types read one after the other. -/
def readAll : List ValueType → Reader (List TypedValue)
  | [] => return []
  | t :: ts => do
    let v ← read t
    let vs ← readAll ts
    return v :: vs

/-- The number of bytes of a value in the buffer. -/
def size : TypedValue → Nat
  | .byte _ => 1
  | .bool _ => 1
  | .short _ => 2
  | .unsignedShort _ => 2
  | .int _ => 4
  | .long _ => 8
  | .float _ => 4
  | .double _ => 8
  | .bytes data => 4 + data.length
  | .string s => 4 + s.length

/-- The width and the value of an integer. -/
def integer : TypedValue → Option (Nat × Int)
  | .byte v => some (1, v.toNat)
  | .short v => some (2, v.toInt)
  | .unsignedShort v => some (2, v.toNat)
  | .int v => some (4, v.toInt)
  | .long v => some (8, v.toInt)
  | _ => none

/-- A length that an `int32_t` holds. -/
def Fits : TypedValue → Prop
  | .bytes data => data.length < 2 ^ 31
  | .string s => s.length < 2 ^ 31
  | _ => True

/-! ## Layout -/

theorem length_write (v : TypedValue) : v.write.length = v.size := by
  cases v <;>
    simp [write, size, writeByte, writeBool, writeShort, writeLong, writeFloat, writeDouble, writeBytes, writeString]

theorem length_writeAll (vs : List TypedValue) : (writeAll vs).length = (vs.map size).sum := by
  rw [writeAll, List.length_flatMap]
  exact congrArg List.sum (List.map_congr_left fun v _ => length_write v)

/-- An unsigned integer and the signed one of the same bits differ by a multiple of what the width holds. -/
theorem exists_toNat_eq {n : Nat} (x : BitVec n) : ∃ k : Int, (x.toNat : Int) = x.toInt + 2 ^ n * k := by
  rw [BitVec.toInt_eq_toNat_cond]
  split
  · exact ⟨0, by rw [Int.mul_zero, Int.add_zero]⟩
  · exact ⟨1, by push_cast; omega⟩

theorem high_half (x : BitVec 64) : (x.sshiftRight 32).setWidth 32 = x.extractLsb' 32 32 := by
  apply BitVec.eq_of_getLsbD_eq
  intro i hi
  simp only [BitVec.getLsbD_setWidth, BitVec.getLsbD_sshiftRight, BitVec.getLsbD_extractLsb']
  simp [hi, show ¬ 64 ≤ i by omega, show 32 + i < 64 by omega]

theorem low_half (x : BitVec 64) : (x &&& (BitVec.allOnes 32).setWidth 64).setWidth 32 = x.extractLsb' 0 32 := by
  apply BitVec.eq_of_getLsbD_eq
  intro i hi
  simp only [BitVec.getLsbD_setWidth, BitVec.getLsbD_and, BitVec.getLsbD_allOnes, BitVec.getLsbD_extractLsb']
  simp [hi, show i < 64 by omega]

/-- The two halves of a long are its eight bytes. -/
theorem writeLong_eq (v : Int64) : writeLong v = beBytes 8 v.toUInt64.toNat := by
  have hi : (v >>> 32).toUInt64.toUInt32.toNat = v.toUInt64.toNat / 256 ^ 4 := by
    show ((v.toBitVec.sshiftRight 32).setWidth 32).toNat = v.toBitVec.toNat / 256 ^ 4
    have hlt := v.toBitVec.isLt
    rw [high_half, BitVec.extractLsb'_toNat, Nat.shiftRight_eq_div_pow]
    omega
  have lo : (v &&& 0xFFFFFFFF).toUInt64.toUInt32.toNat = v.toUInt64.toNat % 256 ^ 4 := by
    show ((v.toBitVec &&& (BitVec.allOnes 32).setWidth 64).setWidth 32).toNat = v.toBitVec.toNat % 256 ^ 4
    rw [low_half, BitVec.extractLsb'_toNat, Nat.shiftRight_zero]
    rfl
  rw [beBytes_add 4 _ 4, writeLong, hi, lo, beBytes_mod]

theorem write_integer {v : TypedValue} {w : Nat} {x : Int} (h : v.integer = some (w, x)) : v.write = intBytes w x := by
  cases v with
  | byte v =>
    cases h
    have hbyte : beBytes 1 v.toNat = [v] := by simp [beBytes, Nat.mod_eq_of_lt v.toNat_lt]
    rw [write, writeByte, ← hbyte]
    exact beBytes_eq_intBytes 1 _ _ 0 (by simp)
  | short v =>
    cases h
    obtain ⟨k, hk⟩ := exists_toNat_eq v.toBitVec
    exact beBytes_eq_intBytes 2 _ _ k hk
  | unsignedShort v =>
    cases h
    exact beBytes_eq_intBytes 2 _ _ 0 (by simp)
  | int v =>
    cases h
    obtain ⟨k, hk⟩ := exists_toNat_eq v.toBitVec
    exact beBytes_eq_intBytes 4 _ _ k hk
  | long v =>
    cases h
    obtain ⟨k, hk⟩ := exists_toNat_eq v.toBitVec
    rw [write, writeLong_eq]
    exact beBytes_eq_intBytes 8 _ _ k hk
  | _ => cases h

/-! ## Round trip -/

theorem reads_typed : ∀ {v : TypedValue}, v.Fits → Reads rest (read v.type) v.write v
  | .byte v, _ => (reads_byte v).last TypedValue.byte
  | .bool v, _ => (reads_bool v).last TypedValue.bool
  | .short v, _ => (reads_short v).last TypedValue.short
  | .unsignedShort v, _ => (reads_unsignedShort v).last TypedValue.unsignedShort
  | .int v, _ => (reads_int v).last TypedValue.int
  | .long v, _ => (reads_long v).last TypedValue.long
  | .float bits, _ => (reads_float bits).last TypedValue.float
  | .double bits, _ => (reads_double bits).last TypedValue.double
  | .bytes _, h => (reads_bytes h).last TypedValue.bytes
  | .string _, h => (reads_string h).last TypedValue.string

theorem reads_typedAll : ∀ {vs : List TypedValue}, (∀ v ∈ vs, v.Fits) →
    Reads rest (readAll (vs.map type)) (writeAll vs) vs
  | [], _ => Reads.pure []
  | v :: vs, h =>
    (reads_typed (h v (by simp))).bind ((reads_typedAll fun u hu => h u (List.mem_cons_of_mem _ hu)).last (v :: ·))

theorem keeps_readRawBytes (len : Nat) : Keeps InputBuffer.data (readRawBytes len) := by
  intro b x b' hx
  unfold readRawBytes at hx
  split at hx
  · cases hx
    rfl
  · cases hx

theorem keeps_readSized : Keeps InputBuffer.data readSized := by
  refine Keeps.bind ((keeps_readRawBytes 4).bind fun b => Keeps.pure _) fun len => ?_
  split
  · intro b x b' hx
    cases hx
  · exact keeps_readRawBytes _

theorem keeps_read : ∀ t, Keeps InputBuffer.data (read t)
  | .byte => ((keeps_readRawBytes 1).bind fun _ => Keeps.pure _).bind fun _ => Keeps.pure _
  | .bool => (((keeps_readRawBytes 1).bind fun _ => Keeps.pure _).bind fun _ => Keeps.pure _).bind fun _ => Keeps.pure _
  | .short => ((keeps_readRawBytes 2).bind fun _ => Keeps.pure _).bind fun _ => Keeps.pure _
  | .unsignedShort => ((keeps_readRawBytes 2).bind fun _ => Keeps.pure _).bind fun _ => Keeps.pure _
  | .int => ((keeps_readRawBytes 4).bind fun _ => Keeps.pure _).bind fun _ => Keeps.pure _
  | .long => ((keeps_readRawBytes 8).bind fun _ => Keeps.pure _).bind fun _ => Keeps.pure _
  | .float => (((keeps_readRawBytes 4).bind fun _ => Keeps.pure _).bind fun _ => Keeps.pure _).bind fun _ => Keeps.pure _
  | .double => (((keeps_readRawBytes 8).bind fun _ => Keeps.pure _).bind fun _ => Keeps.pure _).bind fun _ => Keeps.pure _
  | .bytes => keeps_readSized.bind fun _ => Keeps.pure _
  | .string => keeps_readSized.bind fun _ => Keeps.pure _

theorem keeps_readAll : ∀ ts, Keeps InputBuffer.data (readAll ts)
  | [] => Keeps.pure []
  | t :: ts => (keeps_read t).bind fun _ => (keeps_readAll ts).bind fun _ => Keeps.pure _

/-- Values read from the start of a buffer that begins with them leave the position behind them. -/
theorem readAll_prefix {vs : List TypedValue} (hfits : ∀ v ∈ vs, v.Fits) {out : Buffer} {y : Bytes}
    (hout : out.1 = writeAll vs ++ y) :
    ∃ b, readAll (vs.map type) (reset out) = .ok (vs, b) ∧ b.position = (vs.map size).sum ∧ b.rest = y := by
  obtain ⟨b, hread, hrest⟩ := reads_typedAll hfits (reset out) y hout
  refine ⟨b, hread, ?_, hrest⟩
  have hdata : b.data = out := keeps_readAll _ _ _ _ hread
  have hlen := b.length_rest
  have hpos := b.pos_le
  rw [hrest, remaining, hdata, hout, List.length_append] at hlen
  rw [hdata, hout, List.length_append] at hpos
  rw [position, ← length_writeAll]
  omega

/-- What was written is read back, the position after any number of reads is the total size of the values read,
and the integers stand in the buffer most significant byte first. -/
theorem readAll_typed {vs : List TypedValue} (hfits : ∀ v ∈ vs, v.Fits) {out : Buffer} (hout : out.1 = writeAll vs) :
    (∃ b, readAll (vs.map type) (reset out) = .ok (vs, b) ∧ b.remaining = 0) ∧
      (∀ n, ∃ b, readAll ((vs.take n).map type) (reset out) = .ok (vs.take n, b) ∧
        b.position = ((vs.take n).map size).sum) ∧
      ∀ (before : List TypedValue) (v : TypedValue) (after : List TypedValue), vs = before ++ v :: after →
        ∀ w x, v.integer = some (w, x) → (out.1.drop (before.map size).sum).take w = intBytes w x := by
  refine ⟨?_, fun n => ?_, fun before v after hvs w x hint => ?_⟩
  · obtain ⟨b, hread, -, hrest⟩ := readAll_prefix hfits (hout.trans (List.append_nil _).symm)
    exact ⟨b, hread, by rw [← length_rest, hrest]; rfl⟩
  · have hsplit : out.1 = writeAll (vs.take n) ++ writeAll (vs.drop n) := by
      rw [hout, writeAll, writeAll, writeAll, ← List.flatMap_append, List.take_append_drop]
    obtain ⟨b, hread, hpos, -⟩ := readAll_prefix (fun v hv => hfits v (List.mem_of_mem_take hv)) hsplit
    exact ⟨b, hread, hpos⟩
  · have hsplit : out.1 = writeAll before ++ (v.write ++ writeAll after) := by
      rw [hout, hvs, writeAll, List.flatMap_append, List.flatMap_cons, writeAll, writeAll]
    have hw : (intBytes w x).length = w := List.length_ofFn
    rw [hsplit, ← length_writeAll, List.drop_left, write_integer hint, List.take_left' hw]

/-- Negative numbers and a string. -/
def mixedValues : List TypedValue := [.short (-2), .string (Text.bytes "ab"), .long (-9223372036854775808)]

def mixed : Buffer := ⟨writeAll mixedValues, lt_maxSize (by decide)⟩

theorem readAll_mixed :
    (∃ b, readAll (mixedValues.map type) (reset mixed) = .ok (mixedValues, b) ∧ b.remaining = 0) ∧
      (∀ n, ∃ b, readAll ((mixedValues.take n).map type) (reset mixed) = .ok (mixedValues.take n, b) ∧
        b.position = ((mixedValues.take n).map size).sum) ∧
      ∀ (before : List TypedValue) (v : TypedValue) (after : List TypedValue), mixedValues = before ++ v :: after →
        ∀ w x, v.integer = some (w, x) → (mixed.1.drop (before.map size).sum).take w = intBytes w x :=
  readAll_typed (by simp [mixedValues, Fits, Text.bytes]) rfl

end TypedValue

end MiniHadoop

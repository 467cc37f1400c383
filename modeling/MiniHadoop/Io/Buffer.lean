/-
The typed buffers of `io/buffer.h`. A write appends bytes, so each is the bytes it appends; a read moves a
position in a vector, or throws. A position never passes the end: what `CheckBounds` lets through is the sum
that the position becomes.
-/
import MiniHadoop.Base.Reading
import MiniHadoop.Base.Wire

namespace MiniHadoop

open Text Wire Reading

/-! ## OutputBuffer -/

namespace OutputBuffer

def writeByte (v : UInt8) : Bytes := [v]

def writeBool (v : Bool) : Bytes := writeByte (if v then 1 else 0)

/-- `WriteShort(v)`. -/
def writeShort (v : Int16) : Bytes := beBytes 2 v.toUInt16.toNat

/-- `WriteInt(v)`. -/
def writeInt (v : Int32) : Bytes := beBytes 4 v.toUInt32.toNat

/-- `WriteLong(v)`: the high half, then the low half. -/
def writeLong (v : Int64) : Bytes :=
  beBytes 4 (v >>> 32).toUInt64.toUInt32.toNat ++ beBytes 4 (v &&& 0xFFFFFFFF).toUInt64.toUInt32.toNat

/-- `WriteFloat(v)` of a bit pattern. -/
def writeFloat (bits : UInt32) : Bytes := writeInt bits.toInt32

/-- `WriteDouble(v)` of a bit pattern. -/
def writeDouble (bits : UInt64) : Bytes := writeLong bits.toInt64

/-- `WriteBytes(data)`: the size as an `int32_t`, and all the bytes. -/
def writeBytes (data : Bytes) : Bytes := writeInt (Int32.ofNat data.length) ++ data

/-- `WriteString(s)`. -/
def writeString (s : Bytes) : Bytes := writeInt (Int32.ofNat s.length) ++ s

@[simp] theorem length_writeInt (v : Int32) : (writeInt v).length = 4 := length_beBytes _ _

end OutputBuffer

/-! ## InputBuffer -/

/-- What a read throws: the `std::runtime_error` of `CheckBounds`, or the `std::length_error` of a string or a
vector that is given a negative size. -/
inductive Throw where
  | readPastEnd
  | lengthError
  deriving DecidableEq, Repr

/-- `class InputBuffer`. -/
structure InputBuffer where
  data : Buffer
  pos : Nat
  pos_le : pos ≤ data.1.length

namespace InputBuffer

/-- `InputBuffer(data)`, or `Reset`. -/
def reset (data : Buffer) : InputBuffer := ⟨data, 0, Nat.zero_le _⟩

def position (b : InputBuffer) : Nat := b.pos

def remaining (b : InputBuffer) : Nat := b.data.1.length - b.pos

/-- The bytes still to be read. -/
def rest (b : InputBuffer) : Bytes := b.data.1.drop b.pos

@[simp] theorem rest_reset (data : Buffer) : (reset data).rest = data.1 := rfl

theorem length_rest (b : InputBuffer) : b.rest.length = b.remaining := by
  rw [rest, List.length_drop, remaining]

/-- A read of an `InputBuffer`. -/
abbrev Reader (α : Type) := StateT InputBuffer (Except Throw) α

/-- `ReadRawBytes(dst, len)`: `CheckBounds(len)`, the bytes, and the step of the position. The sum is one of
`size_t`. -/
def readRawBytes (len : Nat) : Reader Bytes := fun b =>
  if h : (b.pos + len) % 2 ^ 64 ≤ b.data.1.length then
    .ok (b.rest.take len, { b with pos := (b.pos + len) % 2 ^ 64, pos_le := h })
  else .error .readPastEnd

def readByte : Reader UInt8 := do
  let b ← readRawBytes 1
  return UInt8.ofNat (beValue b)

def readBool : Reader Bool := do
  let b ← readByte
  return b ≠ 0

/-- `ReadShort()`. -/
def readShort : Reader Int16 := do
  let b ← readRawBytes 2
  return (UInt16.ofNat (beValue b)).toInt16

/-- `ReadUnsignedShort()`. -/
def readUnsignedShort : Reader UInt16 := do
  let b ← readRawBytes 2
  return UInt16.ofNat (beValue b)

/-- `ReadInt()`. -/
def readInt : Reader Int32 := do
  let b ← readRawBytes 4
  return (UInt32.ofNat (beValue b)).toInt32

/-- `ReadLong()`: one check for both halves. -/
def readLong : Reader Int64 := do
  let b ← readRawBytes 8
  let hi := UInt32.ofNat (beValue (b.take 4))
  let lo := UInt32.ofNat (beValue (b.drop 4))
  return (hi.toUInt64 <<< 32 ||| lo.toUInt64).toInt64

/-- `ReadFloat()`, as a bit pattern. -/
def readFloat : Reader UInt32 := do
  let bits ← readInt
  return bits.toUInt32

/-- `ReadDouble()`, as a bit pattern. -/
def readDouble : Reader UInt64 := do
  let bits ← readLong
  return bits.toUInt64

/-- The body of `ReadBytes` and of `ReadString`: the size is converted to `size_t`, in which a negative one is
larger than any string or vector. -/
def readSized : Reader Bytes := do
  let len ← readInt
  if len < 0 then throw .lengthError
  else readRawBytes len.toNatClampNeg

def readBytes : Reader Bytes := readSized

def readString : Reader Bytes := readSized

/-! ## Reading what was written -/

/-- A read of bytes that are there. -/
theorem readRawBytes_eq (b : InputBuffer) {len : Nat} (h : len ≤ b.remaining) :
    ∃ hpos, readRawBytes len b = .ok (b.rest.take len, ⟨b.data, b.pos + len, hpos⟩) := by
  have hpos := b.pos_le
  have hdata := lt_of_lt_maxSize b.data.2
  rw [remaining] at h
  have hsum : (b.pos + len) % 2 ^ 64 = b.pos + len := Nat.mod_eq_of_lt (by omega)
  have hle : b.pos + len ≤ b.data.1.length := by omega
  exact ⟨hle, by simp only [readRawBytes, hsum, hle, dite_true]⟩

theorem reads_raw (x : Bytes) : Reads rest (readRawBytes x.length) x x := by
  intro b y hb
  have hlen : b.remaining = x.length + y.length := by rw [← length_rest, hb, List.length_append]
  obtain ⟨hpos, hread⟩ := readRawBytes_eq b (show x.length ≤ b.remaining by omega)
  refine ⟨_, by rw [hread, hb, List.take_left], ?_⟩
  show b.data.1.drop (b.pos + x.length) = y
  rw [← List.drop_drop]
  show b.rest.drop x.length = y
  rw [hb, List.drop_left]

/-- A field of fixed width, and what is made of it. -/
theorem reads_field {α : Type} {w : Nat} {x : Bytes} {a : α} {g : Bytes → α} (hx : x.length = w) (hg : g x = a) :
    Reads rest (readRawBytes w >>= fun b => pure (g b)) x a := by
  subst hx hg
  exact (reads_raw x).last g

theorem reads_byte (v : UInt8) : Reads rest readByte (OutputBuffer.writeByte v) v := by
  refine reads_field rfl ?_
  rw [OutputBuffer.writeByte, beValue, beValue, List.length_nil, pow_zero, Nat.mul_one, Nat.add_zero]
  exact UInt8.ofNat_toNat

theorem reads_bool (v : Bool) : Reads rest readBool (OutputBuffer.writeBool v) v := by
  have h := (reads_byte (if v then 1 else 0)).last fun b => decide (b ≠ 0)
  cases v <;> exact h

theorem uint16_beBytes (n : UInt16) : UInt16.ofNat (beValue (beBytes 2 n.toNat)) = n := by
  rw [beValue_of_fits (by exact n.toNat_lt), UInt16.ofNat_toNat]

theorem reads_short (v : Int16) : Reads rest readShort (OutputBuffer.writeShort v) v := by
  refine reads_field (length_beBytes _ _) ?_
  rw [OutputBuffer.writeShort, uint16_beBytes, Int16.toInt16_toUInt16]

/-- What `WriteShort` writes of a bit pattern is read back as that pattern. -/
theorem reads_unsignedShort (v : UInt16) : Reads rest readUnsignedShort (OutputBuffer.writeShort v.toInt16) v := by
  refine reads_field (length_beBytes _ _) ?_
  rw [OutputBuffer.writeShort, UInt16.toUInt16_toInt16, uint16_beBytes]

theorem uint32_beBytes (n : UInt32) : UInt32.ofNat (beValue (beBytes 4 n.toNat)) = n := by
  rw [beValue_of_fits (by exact n.toNat_lt), UInt32.ofNat_toNat]

theorem reads_int (v : Int32) : Reads rest readInt (OutputBuffer.writeInt v) v := by
  refine reads_field (length_beBytes _ _) ?_
  rw [OutputBuffer.writeInt, uint32_beBytes, Int32.toInt32_toUInt32]

/-- The two halves of a number make the number. -/
theorem halves_or (x : BitVec 64) :
    ((x.sshiftRight 32).setWidth 32).setWidth 64 <<< 32 |||
      ((x &&& (BitVec.allOnes 32).setWidth 64).setWidth 32).setWidth 64 = x := by
  apply BitVec.eq_of_getLsbD_eq
  intro i hi
  simp only [BitVec.getLsbD_or, BitVec.getLsbD_shiftLeft, BitVec.getLsbD_setWidth, BitVec.getLsbD_sshiftRight,
    BitVec.getLsbD_and, BitVec.getLsbD_allOnes]
  rcases Nat.lt_or_ge i 32 with h | h
  · simp [h, hi]
  · simp [hi, Nat.not_lt.2 h, show i - 32 < 32 by omega, show i - 32 < 64 by omega, show ¬ 64 ≤ i - 32 by omega,
      show 32 + (i - 32) = i by omega]

theorem reads_long (v : Int64) : Reads rest readLong (OutputBuffer.writeLong v) v := by
  refine reads_field (by simp [OutputBuffer.writeLong]) ?_
  rw [OutputBuffer.writeLong, List.take_left' (length_beBytes _ _), List.drop_left' (length_beBytes _ _),
    uint32_beBytes, uint32_beBytes]
  exact Int64.toBitVec_inj.1 (halves_or v.toBitVec)

theorem reads_float (bits : UInt32) : Reads rest readFloat (OutputBuffer.writeFloat bits) bits := by
  have h := (reads_int bits.toInt32).last fun v => v.toUInt32
  rwa [UInt32.toUInt32_toInt32] at h

theorem reads_double (bits : UInt64) : Reads rest readDouble (OutputBuffer.writeDouble bits) bits := by
  have h := (reads_long bits.toInt64).last fun v => v.toUInt64
  rwa [UInt64.toUInt64_toInt64] at h

/-- A size that an `int32_t` holds. -/
theorem int32_ofNat_size {n : Nat} (h : n < 2 ^ 31) : ¬ Int32.ofNat n < 0 ∧ (Int32.ofNat n).toNatClampNeg = n := by
  refine ⟨?_, Int32.toNatClampNeg_ofNat_of_lt h⟩
  rw [Int32.lt_iff_toInt_lt, Int32.toInt_ofNat_of_lt h]
  simp

theorem reads_sized {x : Bytes} (h : x.length < 2 ^ 31) :
    Reads rest readSized (OutputBuffer.writeInt (Int32.ofNat x.length) ++ x) x := by
  refine (reads_int _).bind ?_
  obtain ⟨hneg, hlen⟩ := int32_ofNat_size h
  rw [if_neg hneg, hlen]
  exact reads_raw x

theorem reads_bytes {x : Bytes} (h : x.length < 2 ^ 31) : Reads rest readBytes (OutputBuffer.writeBytes x) x :=
  reads_sized h

theorem reads_string {x : Bytes} (h : x.length < 2 ^ 31) : Reads rest readString (OutputBuffer.writeString x) x :=
  reads_sized h

end InputBuffer

end MiniHadoop

/-
The Writable types (`io/writable_types.h`, `io/md5.h`) and a sequence of them in one buffer. A string is written
with all its bytes, but its length goes into sixteen bits: from 65536 bytes on it is not read back, and what was
written after it is read from the wrong place.
-/
import Mathlib.Data.List.OfFn
import MiniHadoop.Io.Buffer

namespace MiniHadoop

open Text Wire Reading InputBuffer OutputBuffer

/-! ## The types -/

/-- The classes that implement `Writable`. -/
inductive WritableType where
  | intWritable
  | longWritable
  | floatWritable
  | booleanWritable
  | utf8
  | bytesWritable
  | md5Hash
  | nullWritable
  deriving DecidableEq, Repr

def kMD5Len : Nat := 16

/-- An object of one of these classes. A float is its bit pattern. -/
inductive Writable where
  | intWritable (value : Int32)
  | longWritable (value : Int64)
  | floatWritable (bits : UInt32)
  | booleanWritable (value : Bool)
  | utf8 (value : Bytes)
  | bytesWritable (value : Bytes)
  | md5Hash (digest : Fin kMD5Len → UInt8)
  | nullWritable

namespace Writable

def type : Writable → WritableType
  | .intWritable _ => .intWritable
  | .longWritable _ => .longWritable
  | .floatWritable _ => .floatWritable
  | .booleanWritable _ => .booleanWritable
  | .utf8 _ => .utf8
  | .bytesWritable _ => .bytesWritable
  | .md5Hash _ => .md5Hash
  | .nullWritable => .nullWritable

/-- `Write(out)`. The length of a string is cast to `uint16_t`. -/
def write : Writable → Bytes
  | .intWritable value => writeInt value
  | .longWritable value => writeLong value
  | .floatWritable bits => writeFloat bits
  | .booleanWritable value => writeBool value
  | .utf8 value => writeShort (UInt16.ofNat value.length).toInt16 ++ value
  | .bytesWritable value => writeBytes value
  | .md5Hash digest => List.ofFn digest
  | .nullWritable => []

/-- `ReadFields(in)` of an object of the type. -/
def readFields : WritableType → Reader Writable
  | .intWritable => do return .intWritable (← readInt)
  | .longWritable => do return .longWritable (← readLong)
  | .floatWritable => do return .floatWritable (← readFloat)
  | .booleanWritable => do return .booleanWritable (← readBool)
  | .utf8 => do
    let len ← readUnsignedShort
    return .utf8 (← readRawBytes len.toNat)
  | .bytesWritable => do return .bytesWritable (← readBytes)
  | .md5Hash => do
    let digest ← readRawBytes kMD5Len
    return .md5Hash fun i => digest.getD i 0
  | .nullWritable => return .nullWritable

/-- One object after the other. -/
def writeAll (vs : List Writable) : Bytes := vs.flatMap write

/-- Objects of the types read one after the other. -/
def readAll : List WritableType → Reader (List Writable)
  | [] => return []
  | t :: ts => do
    let v ← readFields t
    let vs ← readAll ts
    return v :: vs

/-! ## Round trips -/

/-- The length of a string or of a byte string is one that is written in full. -/
def Fits : Writable → Prop
  | .utf8 value => value.length < 2 ^ 16
  | .bytesWritable value => value.length < 2 ^ 31
  | _ => True

theorem getD_ofFn {n : Nat} (d : Fin n → UInt8) : (fun i : Fin n => (List.ofFn d).getD i 0) = d := by
  funext i
  simp

theorem reads_writable : ∀ {v : Writable}, v.Fits → Reads rest (readFields v.type) v.write v
  | .intWritable value, _ => (reads_int value).last Writable.intWritable
  | .longWritable value, _ => (reads_long value).last Writable.longWritable
  | .floatWritable bits, _ => (reads_float bits).last Writable.floatWritable
  | .booleanWritable value, _ => (reads_bool value).last Writable.booleanWritable
  | .utf8 value, h => by
    refine (reads_unsignedShort _).bind ?_
    have hlen : (UInt16.ofNat value.length).toNat = value.length := UInt16.toNat_ofNat_of_lt h
    rw [hlen]
    exact (reads_raw value).last Writable.utf8
  | .bytesWritable value, h => (reads_bytes h).last Writable.bytesWritable
  | .md5Hash digest, _ => reads_field List.length_ofFn (congrArg Writable.md5Hash (getD_ofFn digest))
  | .nullWritable, _ => Reads.pure _

theorem reads_all : ∀ {vs : List Writable}, (∀ v ∈ vs, v.Fits) → Reads rest (readAll (vs.map type)) (writeAll vs) vs
  | [], _ => Reads.pure []
  | v :: vs, h =>
    (reads_writable (h v (by simp))).bind ((reads_all fun u hu => h u (List.mem_cons_of_mem _ hu)).last (v :: ·))

/-- A string that is read has a length of sixteen bits. -/
theorem returns_readFields : ∀ t, Returns (readFields t) fun v => ∀ s, v = .utf8 s → s.length < 2 ^ 16
  | .utf8 => by
    refine (Returns.trivial _).bind fun len _ => Returns.bind (p := fun b => b.length ≤ len.toNat) ?_ fun b hb => ?_
    · intro b x b' hx
      unfold readRawBytes at hx
      split at hx
      · cases hx
        exact List.length_take_le _ _
      · cases hx
    · refine Returns.pure fun s hs => ?_
      cases hs
      exact hb.trans_lt len.toNat_lt
  | .intWritable => (Returns.trivial _).bind fun _ _ => Returns.pure fun _ h => nomatch h
  | .longWritable => (Returns.trivial _).bind fun _ _ => Returns.pure fun _ h => nomatch h
  | .floatWritable => (Returns.trivial _).bind fun _ _ => Returns.pure fun _ h => nomatch h
  | .booleanWritable => (Returns.trivial _).bind fun _ _ => Returns.pure fun _ h => nomatch h
  | .bytesWritable => (Returns.trivial _).bind fun _ _ => Returns.pure fun _ h => nomatch h
  | .md5Hash => (Returns.trivial _).bind fun _ _ => Returns.pure fun _ h => nomatch h
  | .nullWritable => Returns.pure fun _ h => nomatch h

theorem returns_readAll : ∀ ts, Returns (readAll ts) fun vs => ∀ s, .utf8 s ∈ vs → s.length < 2 ^ 16
  | [] => Returns.pure fun _ h => nomatch h
  | t :: ts => (returns_readFields t).bind fun v hv => (returns_readAll ts).bind fun vs hvs => by
    refine Returns.pure fun s hs => ?_
    rcases List.mem_cons.1 hs with rfl | hs
    · exact hv s rfl
    · exact hvs s hs

/-- What was written to a buffer is read back, to its end, exactly when every string has fewer than 65536
bytes. -/
theorem readAll_writeAll_iff (vs : List Writable) (hbytes : ∀ b, .bytesWritable b ∈ vs → b.length < 2 ^ 31)
    (out : Buffer) (hout : out.1 = writeAll vs) :
    (∃ b, readAll (vs.map type) (reset out) = .ok (vs, b) ∧ b.remaining = 0) ↔
      ∀ s, .utf8 s ∈ vs → s.length < 2 ^ 16 := by
  constructor
  · rintro ⟨b, hread, -⟩
    exact returns_readAll _ _ _ _ hread
  · intro hutf8
    have hfits : ∀ v ∈ vs, v.Fits := by
      intro v hv
      cases v with
      | utf8 s => exact hutf8 s hv
      | bytesWritable b => exact hbytes b hv
      | _ => trivial
    obtain ⟨b, hread, hrest⟩ := reads_all hfits (reset out) [] (by rw [rest_reset, hout, List.append_nil])
    exact ⟨b, hread, by rw [← length_rest, hrest]; rfl⟩

/-- A string and a number in a buffer. -/
def wordCount : Buffer := ⟨writeAll [.utf8 (bytes "word"), .intWritable 7], lt_maxSize (by decide)⟩

theorem readAll_wordCount :
    (∃ b, readAll [.utf8, .intWritable] (reset wordCount) = .ok ([.utf8 (bytes "word"), .intWritable 7], b) ∧
        b.remaining = 0) ↔
      ∀ s, .utf8 s ∈ [Writable.utf8 (bytes "word"), .intWritable 7] → s.length < 2 ^ 16 :=
  readAll_writeAll_iff [.utf8 (bytes "word"), .intWritable 7] (by simp) wordCount rfl

/-- A string of `n` bytes. With `n = 65536` it is written with the length 0. -/
def zeros (n : Nat) : Bytes := List.replicate n 0

theorem length_writeAll_zeros (n : Nat) : (writeAll [.utf8 (zeros n)]).length = 2 + n := by
  simp only [writeAll, List.flatMap_singleton, write, List.length_append, zeros, List.length_replicate, writeShort,
    length_beBytes]

/-- A string of more bytes than its length field counts is not read back. -/
theorem not_reads_zeros {n : Nat} (hn : 2 ^ 16 ≤ n) {b b' : InputBuffer} {ts : List WritableType} :
    readAll ts b ≠ .ok ([.utf8 (zeros n)], b') := by
  intro hread
  have hshort := returns_readAll _ _ _ _ hread (zeros n) (by simp)
  rw [zeros, List.length_replicate] at hshort
  omega

theorem longString_not_read_back : ¬ ∀ vs : List Writable, (∀ b, .bytesWritable b ∈ vs → b.length < 2 ^ 31) →
    ∀ out : Buffer, out.1 = writeAll vs →
      ∃ b, readAll (vs.map type) (reset out) = .ok (vs, b) ∧ b.remaining = 0 := by
  intro h
  have hlen : (writeAll [.utf8 (zeros (2 ^ 16))]).length < maxSize := by
    rw [length_writeAll_zeros]
    exact lt_maxSize (by decide)
  obtain ⟨b, hread, -⟩ := h [.utf8 (zeros (2 ^ 16))] (by simp) ⟨_, hlen⟩ rfl
  exact not_reads_zeros le_rfl hread

end Writable

end MiniHadoop

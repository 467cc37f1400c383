/-
Sequences of reads of an `InputBuffer`. `CheckBounds(need)` compares `pos_ + need`, a sum of `size_t`, with
the size. A sum that fits is the end of the bytes the call takes, so the call takes them or throws. A sum that
wraps is less than the position, so it passes the check, and the position moves back: exactly `Skip` and
`ReadRawBytes` of a count that reaches 2^64 from the position.
-/
import MiniHadoop.Io.Buffer
import MiniHadoop.Base.Runs

namespace MiniHadoop

open Text Wire Reading Runs

namespace InputBuffer

/-- `Skip(n)`: `CheckBounds(n)`, and the step of the position. -/
def skip (n : Nat) : Reader Unit := fun b =>
  if h : (b.pos + n) % 2 ^ 64 ≤ b.data.1.length then
    .ok ((), { b with pos := (b.pos + n) % 2 ^ 64, pos_le := h })
  else .error .readPastEnd

/-! ## Calls -/

/-- A call of a method that reads. -/
inductive Call where
  | readByte
  | readRawBytes (len : UInt64)
  | readBool
  | readShort
  | readInt
  | readLong
  | readFloat
  | readDouble
  | readBytes
  | readString
  | readUnsignedShort
  | skip (n : UInt64)
  deriving DecidableEq, Repr

/-- The type a call returns. -/
def Call.Value : Call → Type
  | .readByte => UInt8
  | .readRawBytes _ | .readBytes | .readString => Bytes
  | .readBool => Bool
  | .readShort => Int16
  | .readInt => Int32
  | .readLong => Int64
  | .readFloat => UInt32
  | .readDouble => UInt64
  | .readUnsignedShort => UInt16
  | .skip _ => Unit

def Call.reader : (c : Call) → Reader c.Value
  | .readByte => InputBuffer.readByte
  | .readRawBytes len => InputBuffer.readRawBytes len.toNat
  | .readBool => InputBuffer.readBool
  | .readShort => InputBuffer.readShort
  | .readInt => InputBuffer.readInt
  | .readLong => InputBuffer.readLong
  | .readFloat => InputBuffer.readFloat
  | .readDouble => InputBuffer.readDouble
  | .readBytes => InputBuffer.readBytes
  | .readString => InputBuffer.readString
  | .readUnsignedShort => InputBuffer.readUnsignedShort
  | .skip n => InputBuffer.skip n.toNat

/-- The buffer after a call that threw: `ReadBytes` and `ReadString` have read the size by then, when it is
there. -/
def Call.thrown (c : Call) (b : InputBuffer) : InputBuffer :=
  match c with
  | .readBytes | .readString =>
    match InputBuffer.readInt b with
    | .ok (_, b') => b'
    | .error _ => b
  | _ => b

/-- The buffer after a call whose exception, if it throws one, is caught. -/
def perform (b : InputBuffer) (c : Call) : InputBuffer :=
  match c.reader b with
  | .ok (_, b') => b'
  | .error _ => c.thrown b

/-- The size that is read at the position of a buffer, and that `ReadBytes` and `ReadString` go on to take. -/
def sizeHere (b : InputBuffer) : Nat := (UInt32.ofNat (beValue (b.rest.take 4))).toInt32.toNatClampNeg

/-- How many bytes a call is to take. -/
def Call.takes (b : InputBuffer) : Call → Nat
  | .readByte | .readBool => 1
  | .readShort | .readUnsignedShort => 2
  | .readInt | .readFloat => 4
  | .readLong | .readDouble => 8
  | .readRawBytes n | .skip n => n.toNat
  | .readBytes | .readString => 4 + b.sizeHere

/-! ## What a read takes -/

section Taking

variable {α γ : Type} {r : Reader α} {b : InputBuffer} {n : Nat}

/-- The read returns from exactly the next `n` bytes, which are there, and moves the position over them. -/
def Taken (r : Reader α) (b : InputBuffer) (n : Nat) : Prop :=
  b.pos + n ≤ b.data.1.length ∧
    ∃ v b', r b = .ok (v, b') ∧ b'.data = b.data ∧ b'.pos = b.pos + n ∧ Reads rest r (b.rest.take n) v

/-- A read that takes its `n` bytes or throws. -/
def TakenOrThrown (r : Reader α) (b : InputBuffer) (n : Nat) : Prop := Taken r b n ∨ ∃ e, r b = .error e

/-- What is made of a value that was read. -/
theorem TakenOrThrown.last (h : TakenOrThrown r b n) (g : α → γ) :
    TakenOrThrown (r >>= fun a => pure (g a)) b n := by
  rcases h with ⟨hle, v, b', hr, hdata, hpos, hreads⟩ | ⟨e, he⟩
  · exact .inl ⟨hle, g v, b', by rw [bind_ok hr]; rfl, hdata, hpos, hreads.last g⟩
  · exact .inr ⟨e, bind_error he⟩

/-- The bytes that are left when some have been taken. -/
theorem rest_of_taken {b' : InputBuffer} (hdata : b'.data = b.data) (hpos : b'.pos = b.pos + n) :
    b'.rest = b.rest.drop n := by
  rw [rest, rest, hdata, hpos, List.drop_drop]

/-- A read after another one: where the first takes its bytes, the second follows. -/
theorem TakenOrThrown.bind {f : α → Reader γ} {m : Nat} (h : TakenOrThrown r b n)
    (hf : ∀ v b', r b = .ok (v, b') → b'.pos = b.pos + n → TakenOrThrown (f v) b' m) :
    TakenOrThrown (r >>= f) b (n + m) := by
  rcases h with ⟨hle, v, b', hr, hdata, hpos, hreads⟩ | ⟨e, he⟩
  · rcases hf v b' hr hpos with ⟨hle', w, b'', hr', hdata', hpos', hreads'⟩ | ⟨e, he⟩
    · rw [hdata, hpos] at hle'
      refine .inl ⟨by omega, w, b'', by rw [bind_ok hr, hr'], hdata'.trans hdata, by omega, ?_⟩
      rw [List.take_add, ← rest_of_taken hdata hpos]
      exact hreads.bind hreads'
    · exact .inr ⟨e, by rw [bind_ok hr, he]⟩
  · exact .inr ⟨e, bind_error he⟩

/-- A raw read whose sum does not wrap. -/
theorem taken_readRawBytes (h : b.pos + n < 2 ^ 64) : TakenOrThrown (readRawBytes n) b n := by
  rcases Nat.lt_or_ge b.data.1.length (b.pos + n) with hle | hle
  · have hmod : ¬ (b.pos + n) % 2 ^ 64 ≤ b.data.1.length := by rw [Nat.mod_eq_of_lt h]; omega
    exact .inr ⟨_, by rw [readRawBytes, dif_neg hmod]⟩
  · have hrem : n ≤ b.remaining := by rw [remaining]; omega
    obtain ⟨hpos, hread⟩ := readRawBytes_eq b hrem
    have hlen : (b.rest.take n).length = n := by rw [List.length_take, length_rest]; omega
    have hreads := reads_raw (b.rest.take n)
    rw [hlen] at hreads
    exact .inl ⟨hle, _, _, hread, rfl, rfl, hreads⟩

/-- A read of a fixed width, which is small. -/
theorem taken_width (hn : n ≤ 2 ^ 63) : TakenOrThrown (readRawBytes n) b n := by
  have hpos := b.pos_le
  have hdata := lt_of_lt_maxSize b.data.2
  exact taken_readRawBytes (by omega)

/-- `Skip` is a raw read of which nothing is kept. -/
theorem skip_eq (n : Nat) : skip n = readRawBytes n >>= fun _ => pure () := by
  funext b
  show skip n b = (readRawBytes n b >>= fun p => Except.ok ((), p.2))
  by_cases h : (b.pos + n) % 2 ^ 64 ≤ b.data.1.length
  · rw [skip, readRawBytes, dif_pos h, dif_pos h]; rfl
  · rw [skip, readRawBytes, dif_neg h, dif_neg h]; rfl

theorem taken_readInt : TakenOrThrown readInt b 4 := (taken_width (by decide)).last _

theorem readInt_value {v : Int32} {b' : InputBuffer} (h : readInt b = .ok (v, b')) :
    v = (UInt32.ofNat (beValue (b.rest.take 4))).toInt32 := by
  obtain ⟨raw, b'', hr, h⟩ := bind_eq_ok h
  unfold readRawBytes at hr
  split at hr
  · cases hr
    cases h
    rfl
  · cases hr

theorem taken_readSized : TakenOrThrown readSized b (4 + b.sizeHere) := by
  refine taken_readInt.bind fun v b' hr _ => ?_
  have hsize : v.toNatClampNeg = b.sizeHere := by rw [readInt_value hr, sizeHere]
  by_cases hneg : v < 0
  · rw [if_pos hneg]
    exact .inr ⟨_, rfl⟩
  · rw [if_neg hneg, hsize]
    have hlt : b.sizeHere < 2 ^ 31 := by rw [← hsize]; exact Int32.toNatClampNeg_lt v
    exact taken_width (by omega)

/-! ## A sum that wraps -/

/-- A sum that wraps is less than the position. -/
theorem wraps_lt {p n : Nat} (hn : n < 2 ^ 64) (hp : p < 2 ^ 64) (h : 2 ^ 64 ≤ p + n) : (p + n) % 2 ^ 64 < p := by
  rw [Nat.mod_eq_sub_mod h, Nat.mod_eq_of_lt (by omega)]
  omega

/-- `CheckBounds` lets such a sum pass. -/
theorem readRawBytes_wraps (hn : n < 2 ^ 64) (h : 2 ^ 64 ≤ b.pos + n) :
    ∃ v b', readRawBytes n b = .ok (v, b') ∧ b'.pos < b.pos := by
  have hpos := b.pos_le
  have hdata := lt_of_lt_maxSize b.data.2
  have hlt := wraps_lt hn (by omega) h
  have hle : (b.pos + n) % 2 ^ 64 ≤ b.data.1.length := by omega
  exact ⟨_, _, by rw [readRawBytes, dif_pos hle], hlt⟩

theorem skip_wraps (hn : n < 2 ^ 64) (h : 2 ^ 64 ≤ b.pos + n) :
    ∃ v b', skip n b = .ok (v, b') ∧ b'.pos < b.pos := by
  obtain ⟨v, b', hr, hpos⟩ := readRawBytes_wraps hn h
  exact ⟨(), b', by rw [skip_eq, bind_ok hr]; rfl, hpos⟩

end Taking

/-! ## Calls in a row -/

/-- The call throws, or takes exactly its bytes; either way the data stay and the position moves forward, not
past the end. -/
structure Bounded (b : InputBuffer) (c : Call) : Prop where
  taken : TakenOrThrown c.reader b (c.takes b)
  data : (b.perform c).data = b.data
  forward : b.pos ≤ (b.perform c).pos
  inside : (b.perform c).pos ≤ b.data.1.length

/-- The sum that `CheckBounds` makes of the count a caller gives does not wrap. -/
def Call.Fits (b : InputBuffer) : Call → Prop
  | .readRawBytes n | .skip n => b.pos + n.toNat < 2 ^ 64
  | _ => True

/-- A call whose sum fits takes its bytes or throws. -/
theorem taken_of_fits (b : InputBuffer) (c : Call) (h : c.Fits b) : TakenOrThrown c.reader b (c.takes b) := by
  have hbyte : TakenOrThrown readByte b 1 := (taken_width (by decide)).last _
  have hlong : TakenOrThrown readLong b 8 := (taken_width (by decide)).last _
  cases c with
  | readByte => exact hbyte
  | readRawBytes len => exact taken_readRawBytes h
  | readBool => exact hbyte.last _
  | readShort => exact (taken_width (by decide)).last _
  | readInt => exact taken_readInt
  | readLong => exact hlong
  | readFloat => exact taken_readInt.last _
  | readDouble => exact hlong.last _
  | readBytes => exact taken_readSized
  | readString => exact taken_readSized
  | readUnsignedShort => exact (taken_width (by decide)).last _
  | skip n =>
    show TakenOrThrown (InputBuffer.skip n.toNat) b n.toNat
    rw [skip_eq]
    exact (taken_readRawBytes h).last _

/-- The buffer after a call that threw is the one before it, or the size of a string was taken from it. -/
theorem thrown_cases (b : InputBuffer) (c : Call) :
    c.thrown b = b ∨ ∃ v, InputBuffer.readInt b = .ok (v, c.thrown b) := by
  have hsized : ∀ b' : InputBuffer, (match InputBuffer.readInt b with | .ok (_, b') => b' | .error _ => b) = b' →
      b' = b ∨ ∃ v, InputBuffer.readInt b = .ok (v, b') := by
    intro b' hb'
    cases hr : InputBuffer.readInt b with
    | error e => rw [hr] at hb'; exact .inl hb'.symm
    | ok out => rw [hr] at hb'; exact .inr ⟨out.1, by rw [← hb']⟩
  cases c with
  | readBytes => exact hsized _ rfl
  | readString => exact hsized _ rfl
  | _ => exact .inl rfl

/-- One call is within bounds exactly when its sum fits. -/
theorem bounded_iff_fits (b : InputBuffer) (c : Call) : Bounded b c ↔ c.Fits b := by
  constructor
  · -- a sum that wraps moves the position back
    intro hb
    by_contra hfits
    have hback : ∃ v b', c.reader b = .ok (v, b') ∧ b'.pos < b.pos := by
      cases c with
      | readRawBytes n => exact readRawBytes_wraps n.toNat_lt (Nat.not_lt.1 hfits)
      | skip n => exact skip_wraps n.toNat_lt (Nat.not_lt.1 hfits)
      | _ => exact absurd trivial hfits
    obtain ⟨v, b', hr, hlt⟩ := hback
    have hforward := hb.forward
    rw [perform, hr] at hforward
    exact absurd hforward (Nat.not_le.2 hlt)
  · intro hfits
    have htaken := taken_of_fits b c hfits
    have hpos := b.pos_le
    rcases htaken with ⟨hle, v, b', hr, hdata, hpos', _⟩ | ⟨e, he⟩
    · have hperform : b.perform c = b' := by rw [perform, hr]
      exact ⟨taken_of_fits b c hfits, by rw [hperform, hdata], by rw [hperform]; omega, by rw [hperform]; omega⟩
    · have hperform : b.perform c = c.thrown b := by rw [perform, he]
      rcases thrown_cases b c with hsame | ⟨v, hint⟩
      · rw [← hperform] at hsame
        exact ⟨taken_of_fits b c hfits, by rw [hsame], by rw [hsame], by rw [hsame]; exact hpos⟩
      · rw [← hperform] at hint
        rcases @taken_readInt b with ⟨hle, w, b', hr, hdata, hpos', _⟩ | ⟨e', he'⟩
        · rw [hr] at hint
          cases hint
          exact ⟨taken_of_fits b c hfits, hdata, by omega, by omega⟩
        · rw [he'] at hint
          cases hint

/-- Every call of a sequence is within bounds exactly when the sum that each call makes of its count fits. -/
theorem calls_bounded_iff (b : InputBuffer) (calls : List Call) :
    (∀ pre c, pre ++ [c] <+: calls → Bounded (after perform b pre) c) ↔
      ∀ pre c, pre ++ [c] <+: calls → c.Fits (after perform b pre) := by
  constructor
  · exact fun h pre c hpre => (bounded_iff_fits _ c).1 (h pre c hpre)
  · exact fun h pre c hpre => (bounded_iff_fits _ c).2 (h pre c hpre)

/-- A number has been read, and the caller skips back to the start. -/
theorem calls_not_bounded : ¬ ∀ (b : InputBuffer) (calls : List Call) (pre : List Call) (c : Call),
    pre ++ [c] <+: calls → Bounded (after perform b pre) c := by
  intro h
  have hb := h (reset ⟨[0, 0, 0, 7], lt_maxSize (by decide)⟩) [.readInt, .skip 0xFFFFFFFFFFFFFFFC] [.readInt]
    (.skip 0xFFFFFFFFFFFFFFFC) (List.prefix_refl _)
  exact absurd hb.forward (by decide)

end InputBuffer

end MiniHadoop

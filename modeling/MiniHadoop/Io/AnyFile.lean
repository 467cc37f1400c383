/-
A `SequenceFileReader` on any content. Its length fields are numbers of 32 bits that nothing checks: a negative
one reaches `resize` as a size that no vector has, which throws, and a difference that wraps can pass for the
length of a value. So `Next` is safe exactly when all headers it can reach are as a writer makes them, as far as
the file has the bytes behind them.
-/
import MiniHadoop.Io.SequenceFile

namespace MiniHadoop

open Text Wire

namespace SequenceFileReader

open SequenceFileWriter (kMagic kSyncEscape)

/-! ## What is asked of the reader -/

/-- The stored length of the record that `Next` goes on to read: the first one that is not the escape. -/
def recordLength (r : SequenceFileReader) : Option Int32 :=
  match _h : r.file.readBE with
  | (none, _) => none
  | (some len, file) => if len = kSyncEscape then recordLength { r with file := file.seekg kMD5Len } else some len
termination_by r.file.content.length - r.file.pos
decreasing_by
  obtain ⟨hcontent, hpos, hle⟩ := InputFile.readBE_some _h
  simp only [InputFile.seekg]
  split <;> simp only [hcontent] <;> omega

/-- The key and the value of a reader have the lengths of a record of this length. -/
def AddsUp (r : SequenceFileReader) (len : Int32) : Prop :=
  (r.keyBuf.length : Int) + r.valBuf.length = len.toInt

/-- So many calls of `Next` return, none with a record whose lengths do not add up. -/
def Tolerates : Nat → SequenceFileReader → Prop
  | 0, _ => True
  | m + 1, r => ∃ ok r', r.next = .ok (ok, r') ∧ (ok = true → ∃ len ∈ r.recordLength, r'.AddsUp len) ∧ Tolerates m r'

/-! ## Headers -/

/-- The length field at the front of some bytes. -/
def lengthAt (bs : Bytes) : Int32 := (UInt32.ofNat (beValue (bs.take 4))).toInt32

/-- The length of the key, which follows it. -/
def keyLengthAt (bs : Bytes) : Int32 := lengthAt (bs.drop 4)

/-- The two length fields are there. -/
def HasHeader (bs : Bytes) : Prop := 8 ≤ bs.length ∧ lengthAt bs ≠ kSyncEscape

/-- The key is there. -/
def HasKey (bs : Bytes) : Prop := 8 + (keyLengthAt bs).toInt ≤ bs.length

/-- The key, and a value as long as the difference of the two lengths, which wraps, are there. -/
def HasValue (bs : Bytes) : Prop := 8 + (keyLengthAt bs).toInt + (lengthAt bs - keyLengthAt bs).toInt ≤ bs.length

/-- A header that the reader can follow: no length is negative of a part whose turn comes, and where all of the
record is there, the key is not longer than the record. -/
def HeaderOk (bs : Bytes) : Prop :=
  HasHeader bs → 0 ≤ (keyLengthAt bs).toInt ∧
    (HasKey bs → 0 ≤ (lengthAt bs - keyLengthAt bs).toInt ∧
      (HasValue bs → (keyLengthAt bs).toInt ≤ (lengthAt bs).toInt))

/-- The places where a sync block or a record starts, as far as they follow one another. -/
inductive Boundary (body : Bytes) : Bytes → Prop
  | start : Boundary body body
  | sync {bs : Bytes} : Boundary body bs → 4 ≤ bs.length → lengthAt bs = kSyncEscape →
      Boundary body (bs.drop (4 + kMD5Len))
  | record {bs : Bytes} : Boundary body bs → HasHeader bs → 0 ≤ (keyLengthAt bs).toInt →
      (keyLengthAt bs).toInt ≤ (lengthAt bs).toInt → 8 + (lengthAt bs).toInt ≤ bs.length →
      Boundary body (bs.drop (8 + (lengthAt bs).toNatClampNeg))

/-- What is behind the header of a file, or behind four bytes that are not the magic. -/
def body (content : Bytes) : Bytes := content.drop (if content.take 4 = kMagic then 4 + kMD5Len else 4)

/-! ## Reads of a stream -/

theorem readBE_eq {f : InputFile} (hf : f.failed = false) (hlen : 4 ≤ f.rest.length) :
    f.readBE = (some (lengthAt f.rest), { f with pos := f.pos + 4 }) := by
  rw [InputFile.readBE, InputFile.readRaw_eq hf (by simpa using hlen)]
  rfl

theorem readBE_short {f : InputFile} (h : f.rest.length < 4) : ∃ f', f.readBE = (none, f') ∧ f'.failed = true := by
  obtain ⟨got, f', hread, hfail, -⟩ := @InputFile.readRaw_short f (List.replicate 4 0) (by simp) (.inr (by simpa))
  exact ⟨f', by simp only [InputFile.readBE, hread], hfail⟩

/-- The bytes that are left when a stream has moved on. -/
theorem rest_move (f : InputFile) (n : Nat) : ({ f with pos := f.pos + n } : InputFile).rest = f.rest.drop n := by
  rw [InputFile.rest, InputFile.rest, List.drop_drop]

/-- A buffer is filled, or the stream has failed. -/
theorem readRaw_cases {f : InputFile} (hf : f.failed = false) (buf : Bytes) :
    (buf.length ≤ f.rest.length ∧ ∃ got, f.readRaw buf = (true, got, { f with pos := f.pos + buf.length }) ∧
      got.length = buf.length) ∨
      (f.rest.length < buf.length ∧ ∃ got f', f.readRaw buf = (false, got, f') ∧ f'.failed = true) := by
  rcases Nat.lt_or_ge f.rest.length buf.length with hlt | hle
  · obtain ⟨got, f', hread, hfail, -⟩ := InputFile.readRaw_short (by omega) (Or.inr hlt)
    exact .inr ⟨hlt, got, f', hread, hfail⟩
  · exact .inl ⟨hle, _, InputFile.readRaw_eq hf hle, List.length_take_of_le hle⟩

theorem length_resize {buf buf' : Bytes} {len : Int32} (h : resize buf len = .ok buf') :
    0 ≤ len.toInt ∧ (buf'.length : Int) = len.toInt := by
  unfold resize at h
  split at h
  · cases h
  · rename_i hneg
    cases h
    have hnonneg : (0 : Int32) ≤ len := Int32.not_lt.1 hneg
    have hcast := Int32.cast_toNatClampNeg len hnonneg
    rw [List.length_append, List.length_take, List.length_replicate]
    omega

theorem resize_cases (buf : Bytes) (len : Int32) :
    (len.toInt < 0 ∧ resize buf len = .error .lengthError) ∨
      (0 ≤ len.toInt ∧ ∃ buf', resize buf len = .ok buf' ∧ (buf'.length : Int) = len.toInt) := by
  cases hr : resize buf len with
  | ok buf' =>
    obtain ⟨hnonneg, hlen⟩ := length_resize hr
    exact .inr ⟨hnonneg, buf', rfl, hlen⟩
  | error e =>
    unfold resize at hr
    split at hr
    · rename_i hneg
      cases hr
      exact .inl ⟨Int32.lt_iff_toInt_lt.1 hneg, rfl⟩
    · cases hr

/-- A buffer that is resized and then filled: the length is negative, or the stream has too few bytes, or it moves over
them. -/
theorem fill_cases {f : InputFile} (hf : f.failed = false) (buf : Bytes) (len : Int32) :
    (len.toInt < 0 ∧ resize buf len = .error .lengthError) ∨
      ∃ sized, resize buf len = .ok sized ∧ 0 ≤ len.toInt ∧
        ((f.rest.length < len.toInt ∧ ∃ got f', f.readRaw sized = (false, got, f') ∧ f'.failed = true) ∨
          (len.toInt ≤ f.rest.length ∧ ∃ got, f.readRaw sized = (true, got, { f with pos := f.pos + got.length }) ∧
            (got.length : Int) = len.toInt)) := by
  rcases resize_cases buf len with ⟨hneg, hresize⟩ | ⟨hnonneg, sized, hresize, hsized⟩
  · exact .inl ⟨hneg, hresize⟩
  refine .inr ⟨sized, hresize, hnonneg, ?_⟩
  rcases readRaw_cases hf sized with ⟨hle, got, hread, hgot⟩ | ⟨hlt, got, f', hread, hf'⟩
  · exact .inr ⟨by omega, got, by rw [hread, hgot], by omega⟩
  · exact .inl ⟨by omega, got, f', hread, hf'⟩

/-! ## One call -/

/-- What `Next` does at a boundary. -/
inductive Step (r : SequenceFileReader) : Prop
  /-- A sync block is skipped. -/
  | sync (r' : SequenceFileReader) (hlen : 4 ≤ r.file.rest.length) (hescape : lengthAt r.file.rest = kSyncEscape)
      (hnext : r.next = r'.next) (hlength : r.recordLength = r'.recordLength) (hf : r'.file.failed = false)
      (hrest : r'.file.rest = r.file.rest.drop (4 + kMD5Len))
  /-- A record is returned. -/
  | record (r' : SequenceFileReader) (hheader : HasHeader r.file.rest) (hkey : 0 ≤ (keyLengthAt r.file.rest).toInt)
      (hval : 0 ≤ (lengthAt r.file.rest - keyLengthAt r.file.rest).toInt) (hvalue : HasValue r.file.rest)
      (hnext : r.next = .ok (true, r')) (hlength : r.recordLength = some (lengthAt r.file.rest))
      (hkeyBuf : (r'.keyBuf.length : Int) = (keyLengthAt r.file.rest).toInt)
      (hvalBuf : (r'.valBuf.length : Int) = (lengthAt r.file.rest - keyLengthAt r.file.rest).toInt)
      (hf : r'.file.failed = false)
      (hrest : r'.file.rest = r.file.rest.drop (8 + r'.keyBuf.length + r'.valBuf.length))
  /-- A length is negative. -/
  | throws (hheader : HasHeader r.file.rest)
      (hneg : (keyLengthAt r.file.rest).toInt < 0 ∨
        HasKey r.file.rest ∧ (lengthAt r.file.rest - keyLengthAt r.file.rest).toInt < 0)
      (hnext : r.next = .error .lengthError)
  /-- The file ends. -/
  | ends (r' : SequenceFileReader) (hlen : 4 ≤ r.file.rest.length → lengthAt r.file.rest ≠ kSyncEscape)
      (hshort : HasHeader r.file.rest → 0 ≤ (keyLengthAt r.file.rest).toInt ∧
        (HasKey r.file.rest → 0 ≤ (lengthAt r.file.rest - keyLengthAt r.file.rest).toInt ∧ ¬ HasValue r.file.rest))
      (hnext : r.next = .ok (false, r')) (hf : r'.file.failed = true)

theorem recordLength_some {r : SequenceFileReader} {len : Int32} {file : InputFile}
    (h : r.file.readBE = (some len, file)) :
    r.recordLength = if len = kSyncEscape then recordLength { r with file := file.seekg kMD5Len } else some len := by
  conv_lhs => rw [recordLength]
  split
  · rename_i h'
    cases h.symm.trans h'
  · rename_i h'
    cases h.symm.trans h'
    rfl

/-- A record, behind its length. -/
theorem step_record {r : SequenceFileReader} (hf : r.file.failed = false) (hlen : 4 ≤ r.file.rest.length)
    (hescape : lengthAt r.file.rest ≠ kSyncEscape) : Step r := by
  have hread := readBE_eq hf hlen
  have hnext := next_some hread
  have hlength := recordLength_some hread
  rw [if_neg hescape] at hnext hlength
  have hrest := rest_move r.file 4
  rw [readRecord] at hnext
  -- the length of the key
  rcases Nat.lt_or_ge r.file.rest.length 8 with hshort | hheader
  · obtain ⟨f', hread', hf'⟩ := @readBE_short { r.file with pos := r.file.pos + 4 } (by
      rw [hrest, List.length_drop]; omega)
    simp only [hread'] at hnext
    exact .ends _ (fun _ => hescape) (fun h => absurd h.1 (by omega)) hnext hf'
  have hread' := @readBE_eq { r.file with pos := r.file.pos + 4 } hf (by rw [hrest, List.length_drop]; omega)
  rw [hrest] at hread'
  simp only [hread'] at hnext
  -- the key
  have hrest' : ({ r.file with pos := r.file.pos + 4 + 4 } : InputFile).rest = r.file.rest.drop 8 := by
    rw [show r.file.pos + 4 + 4 = r.file.pos + 8 by omega, rest_move]
  rw [← keyLengthAt] at hnext
  rcases @fill_cases { r.file with pos := r.file.pos + 4 + 4 } hf r.keyBuf (keyLengthAt r.file.rest) with
    ⟨hneg, hresize⟩ | ⟨keyBuf, hresize, hkey, ⟨hlt, key, f', hreadKey, hf'⟩ | ⟨hkeyLe, key, hreadKey, hkeyLen⟩⟩
  · simp only [hresize] at hnext
    exact .throws ⟨hheader, hescape⟩ (.inl hneg) hnext
  · simp only [hresize, hreadKey] at hnext
    rw [hrest', List.length_drop] at hlt
    exact .ends _ (fun _ => hescape) (fun _ => ⟨hkey, fun h => absurd h (by rw [HasKey]; omega)⟩) hnext hf'
  simp only [hresize, hreadKey] at hnext
  rw [hrest', List.length_drop] at hkeyLe
  have hasKey : HasKey r.file.rest := by rw [HasKey]; omega
  -- the value
  have hrest'' : ({ r.file with pos := r.file.pos + 4 + 4 + key.length } : InputFile).rest =
      r.file.rest.drop (8 + key.length) := by
    rw [show r.file.pos + 4 + 4 + key.length = r.file.pos + (8 + key.length) by omega, rest_move]
  rcases @fill_cases { r.file with pos := r.file.pos + 4 + 4 + key.length } hf r.valBuf
      (lengthAt r.file.rest - keyLengthAt r.file.rest) with
    ⟨hneg, hresize'⟩ | ⟨valBuf, hresize', hval, ⟨hlt, val, f', hreadVal, hf'⟩ | ⟨hvalLe, val, hreadVal, hvalLen⟩⟩
  · simp only [hresize'] at hnext
    exact .throws ⟨hheader, hescape⟩ (.inr ⟨hasKey, hneg⟩) hnext
  · simp only [hresize', hreadVal] at hnext
    rw [hrest'', List.length_drop] at hlt
    exact .ends _ (fun _ => hescape) (fun _ => ⟨hkey, fun _ => ⟨hval, by rw [HasValue]; omega⟩⟩) hnext hf'
  · simp only [hresize', hreadVal] at hnext
    rw [hrest'', List.length_drop] at hvalLe
    refine .record _ ⟨hheader, hescape⟩ hkey hval (by rw [HasValue]; omega) hnext hlength hkeyLen hvalLen hf ?_
    show ({ r.file with pos := r.file.pos + 4 + 4 + key.length + val.length } : InputFile).rest = _
    rw [show r.file.pos + 4 + 4 + key.length + val.length = r.file.pos + (8 + key.length + val.length) by omega, rest_move]

/-- Where the stream has not failed, `Next` takes one of the steps. -/
theorem step_cases {r : SequenceFileReader} (hf : r.file.failed = false) : Step r := by
  rcases Nat.lt_or_ge r.file.rest.length 4 with hshort | hlen
  · obtain ⟨f', hread, hf'⟩ := readBE_short hshort
    exact .ends _ (fun hlen => absurd hlen (by omega)) (fun h => absurd h.1 (by omega)) (next_none hread) hf'
  by_cases hescape : lengthAt r.file.rest = kSyncEscape
  · have hread := readBE_eq hf hlen
    have hnext := next_some hread
    have hlength := recordLength_some hread
    rw [if_pos hescape] at hnext hlength
    refine .sync _ hlen hescape hnext hlength ?_ ?_
    · simp only [InputFile.seekg, hf]
      rfl
    · have hseek : ({ r.file with pos := r.file.pos + 4 } : InputFile).seekg kMD5Len =
          { r.file with pos := r.file.pos + (4 + kMD5Len) } := by
        simp only [InputFile.seekg, hf, Nat.add_assoc]
        rfl
      show (({ r.file with pos := r.file.pos + 4 } : InputFile).seekg kMD5Len).rest = _
      rw [hseek, rest_move]
  · exact step_record hf hlen hescape

/-! ## Calls in a row -/

/-- The bytes after a boundary are fewer. -/
theorem Boundary.length_le {start bs : Bytes} (h : Boundary start bs) : bs.length ≤ start.length := by
  induction h with
  | start => exact Nat.le_refl _
  | sync _ _ _ ih => rw [List.length_drop]; omega
  | record _ _ _ _ _ ih => rw [List.length_drop]; omega

theorem Boundary.trans {start mid bs : Bytes} (h : Boundary start mid) (h' : Boundary mid bs) : Boundary start bs := by
  induction h' with
  | start => exact h
  | sync _ hlen hescape ih => exact ih.sync hlen hescape
  | record _ hheader hkey hle hlen ih => exact ih.record hheader hkey hle hlen

/-- The difference of two lengths, which wraps, and the smaller one make the larger one when it is larger. -/
theorem sub_add_iff {len keyLen : Int32} (hkey : 0 ≤ keyLen.toInt) (hval : 0 ≤ (len - keyLen).toInt) :
    keyLen.toInt + (len - keyLen).toInt = len.toInt ↔ keyLen.toInt ≤ len.toInt := by
  constructor
  · omega
  · intro hle
    have hlen := len.toInt_lt
    rw [Int32.toInt_sub, Int.bmod_eq_of_le (by omega) (by omega)]
    omega

theorem sub_nonneg_of_le {len keyLen : Int32} (hkey : 0 ≤ keyLen.toInt) (hle : keyLen.toInt ≤ len.toInt) :
    (len - keyLen).toInt = len.toInt - keyLen.toInt := by
  have hlen := len.toInt_lt
  rw [Int32.toInt_sub, Int.bmod_eq_of_le (by omega) (by omega)]

theorem tolerates_failed {r : SequenceFileReader} (hf : r.file.failed = true) : ∀ m, Tolerates m r
  | 0 => trivial
  | m + 1 => ⟨false, r, next_failed hf, by rintro ⟨⟩, tolerates_failed hf m⟩

/-- A call that only skips a sync block first is the call behind the block. -/
theorem tolerates_congr {r r' : SequenceFileReader} (hnext : r.next = r'.next)
    (hlength : r.recordLength = r'.recordLength) (m : Nat) : Tolerates m r ↔ Tolerates m r' := by
  cases m with
  | zero => exact Iff.rfl
  | succ m => rw [Tolerates, Tolerates, hnext, hlength]

/-- Calls that are tolerated return. -/
theorem Tolerates.nexts : ∀ {m : Nat} {r : SequenceFileReader}, Tolerates m r →
    ∃ records, SequenceFileReader.nexts m r = .ok records
  | 0, _, _ => ⟨[], rfl⟩
  | m + 1, r, ⟨ok, r', hnext, _, hrest⟩ => by
    obtain ⟨records, hrecords⟩ := hrest.nexts
    exact ⟨_, nexts_succ hnext hrecords⟩

/-- When all headers that can be reached are good, so are all calls. -/
theorem tolerates_of_headers (n : Nat) : ∀ r : SequenceFileReader, r.file.failed = false → r.file.rest.length = n →
    (∀ bs, Boundary r.file.rest bs → HeaderOk bs) → ∀ m, Tolerates m r := by
  induction n using Nat.strong_induction_on with
  | _ n ih =>
    intro r hf hn hok m
    cases m with
    | zero => trivial
    | succ m =>
      cases step_cases hf with
      | sync r' hlen hescape hnext hlength hf' hrest =>
        have hboundary : Boundary r.file.rest r'.file.rest := by
          rw [hrest]; exact Boundary.start.sync hlen hescape
        have hless : r'.file.rest.length < n := by rw [hrest, List.length_drop]; omega
        rw [tolerates_congr hnext hlength]
        exact ih _ hless r' hf' rfl (fun bs hbs => hok bs (hboundary.trans hbs)) (m + 1)
      | record r' hheader hkey hval hvalue hnext hlength hkeyBuf hvalBuf hf' hrest =>
        have hhasKey : HasKey r.file.rest := by rw [HasKey]; rw [HasValue] at hvalue; omega
        have hle := ((hok _ .start hheader).2 hhasKey).2 hvalue
        have hsum := (sub_add_iff hkey hval).2 hle
        have hnat := Int32.cast_toNatClampNeg _ (Int32.le_iff_toInt_le.2 (le_trans hkey hle))
        have hboundary : Boundary r.file.rest r'.file.rest := by
          rw [hrest, show 8 + r'.keyBuf.length + r'.valBuf.length = 8 + (lengthAt r.file.rest).toNatClampNeg by omega]
          exact Boundary.start.record hheader hkey hle (by rw [HasValue] at hvalue; omega)
        have hless : r'.file.rest.length < n := by
          have := hheader.1
          rw [hrest, List.length_drop]
          omega
        exact ⟨true, r', hnext, fun _ => ⟨_, hlength, by rw [AddsUp]; omega⟩,
          ih _ hless r' hf' rfl (fun bs hbs => hok bs (hboundary.trans hbs)) m⟩
      | throws hheader hneg hnext =>
        have hgood := hok _ .start hheader
        rcases hneg with hneg | ⟨hhasKey, hneg⟩
        · exact absurd hgood.1 (by omega)
        · exact absurd (hgood.2 hhasKey).1 (by omega)
      | ends r' _ hshort hnext hf' => exact ⟨false, r', hnext, by rintro ⟨⟩, tolerates_failed hf' m⟩

/-- A reader that tolerates what it has been given gets to every boundary. -/
theorem reaches_boundary {r : SequenceFileReader} (hf : r.file.failed = false) (h : ∀ m, Tolerates m r) {bs : Bytes}
    (hbs : Boundary r.file.rest bs) :
    ∃ r' : SequenceFileReader, r'.file.failed = false ∧ r'.file.rest = bs ∧ ∀ m, Tolerates m r' := by
  induction hbs with
  | start => exact ⟨r, hf, rfl, h⟩
  | sync _ hlen hescape ih =>
    obtain ⟨r', hf', rfl, htol⟩ := ih
    cases step_cases hf' with
    | sync r'' _ _ hnext hlength hf'' hrest =>
      exact ⟨r'', hf'', hrest, fun m => (tolerates_congr hnext hlength m).1 (htol m)⟩
    | record r'' hheader => exact absurd hescape hheader.2
    | throws hheader => exact absurd hescape hheader.2
    | ends r'' hnot => exact absurd hescape (hnot hlen)
  | record _ hheader hkey hle hlen ih =>
    obtain ⟨r', hf', rfl, htol⟩ := ih
    have hsub := sub_nonneg_of_le hkey hle
    have hhasKey : HasKey r'.file.rest := by rw [HasKey]; omega
    have hhasValue : HasValue r'.file.rest := by rw [HasValue]; omega
    have hnat := Int32.cast_toNatClampNeg _ (Int32.le_iff_toInt_le.2 (le_trans hkey hle))
    cases step_cases hf' with
    | sync r'' _ hescape => exact absurd hescape hheader.2
    | record r'' _ _ _ _ hnext hlength hkeyBuf hvalBuf hf'' hrest =>
      refine ⟨r'', hf'', ?_, fun m => ?_⟩
      · rw [hrest]
        congr 1
        omega
      · obtain ⟨ok, out, hout, -, hrec⟩ := htol (m + 1)
        rw [hnext] at hout
        cases hout
        exact hrec
    | throws _ _ hnext =>
      obtain ⟨ok, out, hout, -⟩ := htol 1
      rw [hnext] at hout
      cases hout
    | ends r'' _ hshort => exact absurd hhasValue ((hshort hheader).2 hhasKey).2

/-- A reader that tolerates a header is at a good one. -/
theorem headerOk_of_tolerates {r : SequenceFileReader} (hf : r.file.failed = false) (h : Tolerates 1 r) :
    HeaderOk r.file.rest := by
  intro hheader
  obtain ⟨ok, out, hout, hadds, -⟩ := h
  cases step_cases hf with
  | sync r' _ hescape => exact absurd hescape hheader.2
  | record r' _ hkey hval _ hnext hlength hkeyBuf hvalBuf =>
    rw [hnext] at hout
    cases hout
    obtain ⟨len, hlen, hsum⟩ := hadds rfl
    rw [hlength] at hlen
    cases hlen
    rw [AddsUp] at hsum
    exact ⟨hkey, fun _ => ⟨hval, fun _ => (sub_add_iff hkey hval).1 (by omega)⟩⟩
  | throws _ _ hnext =>
    rw [hnext] at hout
    cases hout
  | ends r' _ hshort =>
    obtain ⟨hkey, hvalue⟩ := hshort hheader
    exact ⟨hkey, fun hhasKey => ⟨(hvalue hhasKey).1, fun hhas => absurd hhas (hvalue hhasKey).2⟩⟩

/-! ## Any content -/

/-- The stream behind `Open`: at the body, or failed because there is none. -/
theorem openFile_cases (content : Bytes) :
    ((openFile content).2.file.failed = true ∧ body content = []) ∨
      ((openFile content).2.file.failed = false ∧ (openFile content).2.file.rest = body content) := by
  rcases Nat.lt_or_ge content.length 4 with hshort | hlen
  · obtain ⟨magic, f, hread, hf, -⟩ :=
      @InputFile.readRaw_short ⟨content, 0, false⟩ (List.replicate 4 0) (by simp) (.inr hshort)
    refine .inl ⟨by simp only [openFile, hread, hf], List.drop_eq_nil_of_le ?_⟩
    split <;> omega
  have hread : (⟨content, 0, false⟩ : InputFile).readRaw (List.replicate 4 0) =
      (true, content.take 4, ⟨content, 4, false⟩) := InputFile.readRaw_eq rfl hlen
  by_cases hm : content.take 4 = kMagic
  · rw [body, if_pos hm]
    obtain ⟨-, sync, hread', -⟩ | ⟨hlt, sync, f, hread', hf⟩ :=
      @readRaw_cases ⟨content, 4, false⟩ rfl (List.replicate kMD5Len 0)
    · have hopen : openFile content = (.OK, { file := ⟨content, 4 + kMD5Len, false⟩, sync }) := by
        simp only [openFile, hread, hread', hm, ne_eq, not_true_eq_false, if_false]
        rfl
      rw [hopen]
      exact .inr ⟨rfl, rfl⟩
    · have hopen : openFile content = (.corrupt (bytes "truncated header"), { file := f, sync }) := by
        simp only [openFile, hread, hread', hm, ne_eq, not_true_eq_false, if_false]
      have hshort : (content.drop 4).length < kMD5Len := hlt
      rw [List.length_drop] at hshort
      rw [hopen]
      exact .inl ⟨hf, List.drop_eq_nil_of_le (by omega)⟩
  · rw [body, if_neg hm]
    have hopen : openFile content = (.corrupt (bytes "not a SequenceFile"), { file := ⟨content, 4, false⟩ }) := by
      simp only [openFile, hread, hm, ne_eq, not_false_eq_true, if_true]
    rw [hopen]
    exact .inr ⟨rfl, rfl⟩

/-- Calls of `Next` after `Open` all return, and return no record whose lengths do not add up, exactly when every
header at a boundary of the file is good. -/
theorem tolerates_iff (content : Bytes) :
    (∀ m, Tolerates m (openFile content).2) ↔ ∀ bs, Boundary (body content) bs → HeaderOk bs := by
  rcases openFile_cases content with ⟨hf, hbody⟩ | ⟨hf, hbody⟩
  · refine iff_of_true (tolerates_failed hf) fun bs hbs hheader => ?_
    have hle := hbs.length_le
    have hlen := hheader.1
    rw [hbody, List.length_nil] at hle
    omega
  · rw [← hbody]
    constructor
    · intro h bs hbs
      obtain ⟨r', hf', rfl, htol⟩ := reaches_boundary hf h hbs
      exact headerOk_of_tolerates hf' (htol 1)
    · exact tolerates_of_headers _ _ hf rfl

/-- A file whose only record has a key length of -1. -/
def negativeKey : Bytes := kMagic ++ List.replicate kMD5Len 0 ++ OutputBuffer.writeInt 5 ++ OutputBuffer.writeInt (-1)

theorem not_tolerates_all : ¬ ∀ (content : Bytes) (m : Nat), Tolerates m (openFile content).2 := by
  intro h
  rcases openFile_cases negativeKey with ⟨-, hbody⟩ | ⟨hf, hbody⟩
  · exact absurd hbody (by decide)
  · have hok := headerOk_of_tolerates hf (h negativeKey 1)
    rw [hbody] at hok
    exact absurd (hok ⟨by decide, by decide⟩).1 (by decide)

end SequenceFileReader

end MiniHadoop

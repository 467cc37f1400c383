/-
The sequence file of `io/sequence_file.h`: a header, and records with a sync block before every hundredth. A file
is the bytes written to it; a file that is read is its content and a position.
-/
import MiniHadoop.Common.Error
import MiniHadoop.Io.Writable

namespace MiniHadoop

open Text Wire

/-! ## Writing -/

/-- `class SequenceFileWriter`, with the bytes of the file that is open. -/
structure SequenceFileWriter where
  file : Bytes
  sync : Fin kMD5Len → UInt8
  count : UInt64

namespace SequenceFileWriter

open OutputBuffer

def kMagic : Bytes := bytes "SEQ" ++ [2]

@[simp] theorem length_kMagic : kMagic.length = 4 := by decide

def kSyncEscape : Int32 := -1

def kSyncInterval : UInt64 := 100

/-- `Open(path)` of a writer that was constructed with the sync marker. -/
def openFile (sync : Fin kMD5Len → UInt8) : SequenceFileWriter where
  file := kMagic ++ List.ofFn sync
  sync := sync
  count := 0

/-- The sync block before a record, if one is due. -/
def escape (sync : Fin kMD5Len → UInt8) (count : UInt64) : Bytes :=
  if count > 0 ∧ count % kSyncInterval = 0 then writeInt kSyncEscape ++ List.ofFn sync else []

/-- The two lengths, and the bytes of the key and of the value. -/
def record (keyData valData : Bytes) : Bytes :=
  writeInt (Int32.ofNat (keyData.length + valData.length)) ++
    (writeInt (Int32.ofNat keyData.length) ++ (keyData ++ valData))

/-- `AppendRaw(key_data, val_data)`. -/
def appendRaw (w : SequenceFileWriter) (keyData valData : Bytes) : Status × SequenceFileWriter :=
  if keyData = [] then (.invalidArg (bytes "zero-length key"), w)
  else
    (.OK, { w with
      file := w.file ++ (escape w.sync w.count ++ record keyData valData)
      count := w.count + 1 })

/-- A call of `AppendRaw` for each pair. -/
def appendAll (w : SequenceFileWriter) (calls : List (Bytes × Bytes)) : SequenceFileWriter :=
  calls.foldl (fun w c => (w.appendRaw c.1 c.2).2) w

end SequenceFileWriter

/-! ## Reading -/

/-- A `std::ifstream`. A read that gets too few bytes sets `eofbit` and `failbit`, and nothing clears both. -/
structure InputFile where
  content : Bytes
  pos : Nat
  failed : Bool

namespace InputFile

/-- The bytes still to be read. -/
def rest (f : InputFile) : Bytes := f.content.drop f.pos

/-- `read(buf, n)`, with the bytes that `gcount` counts. -/
def read (f : InputFile) (n : Nat) : Bytes × InputFile :=
  if f.failed then ([], f)
  else
    let got := f.rest.take n
    (got, { f with pos := f.pos + got.length, failed := got.length < n })

/-- `seekg(off, std::ios::cur)`. A position behind the end is no error. -/
def seekg (f : InputFile) (off : Nat) : InputFile := if f.failed then f else { f with pos := f.pos + off }

/-- `ReadRaw(buf, n)` of all of a buffer. -/
def readRaw (f : InputFile) (buf : Bytes) : Bool × Bytes × InputFile :=
  let (got, f) := f.read buf.length
  (got.length = buf.length, got ++ buf.drop got.length, f)

/-- `ReadBE(v)`. -/
def readBE (f : InputFile) : Option Int32 × InputFile :=
  match f.readRaw (List.replicate 4 0) with
  | (true, n, f) => (some (UInt32.ofNat (beValue n)).toInt32, f)
  | (false, _, f) => (none, f)

/-- A read of bytes that are there. -/
theorem readRaw_eq {f : InputFile} {buf : Bytes} (hf : f.failed = false) (hlen : buf.length ≤ f.rest.length) :
    f.readRaw buf = (true, f.rest.take buf.length, { f with pos := f.pos + buf.length }) := by
  have hgot : (f.rest.take buf.length).length = buf.length := by rw [List.length_take, Nat.min_eq_left hlen]
  have hread : f.read buf.length = (f.rest.take buf.length, { f with pos := f.pos + buf.length }) := by
    simp [read, hf, hlen]
  simp [readRaw, hread, hgot]

/-- A read of more bytes than are there, or after one that failed. -/
theorem readRaw_short {f : InputFile} {buf : Bytes} (hbuf : 0 < buf.length)
    (hshort : f.failed = true ∨ f.rest.length < buf.length) :
    ∃ got f', f.readRaw buf = (false, got, f') ∧ f'.failed = true ∧ (f.failed = true → f' = f) := by
  cases hf : f.failed with
  | true => exact ⟨buf, f, by simp [readRaw, read, hf, Nat.ne_of_lt hbuf], hf, fun _ => rfl⟩
  | false =>
    have hlt : f.rest.length < buf.length := hshort.resolve_left (by simp [hf])
    have hread : f.read buf.length = (f.rest, { f with pos := f.pos + f.rest.length, failed := true }) := by
      simp [read, hf, List.take_of_length_le hlt.le, hlt]
    exact ⟨f.rest ++ buf.drop f.rest.length, { f with pos := f.pos + f.rest.length, failed := true },
      by simp [readRaw, hread, Nat.ne_of_lt hlt], rfl, nofun⟩

/-- A value is read where four bytes are left. -/
theorem readBE_some {f f' : InputFile} {v : Int32} (h : f.readBE = (some v, f')) :
    f'.content = f.content ∧ f'.pos = f.pos + 4 ∧ f.pos + 4 ≤ f.content.length := by
  by_cases hshort : f.failed = true ∨ f.rest.length < 4
  · obtain ⟨got, f'', hread, -⟩ := @readRaw_short f (List.replicate 4 0) (by simp) (by simpa using hshort)
    rw [readBE, hread] at h
    cases h
  · obtain ⟨hf, hlen⟩ := not_or.1 hshort
    rw [readBE, readRaw_eq (by simpa using hf) (by simpa using hlen)] at h
    cases h
    have hrest : f.rest.length = f.content.length - f.pos := List.length_drop
    exact ⟨rfl, rfl, by omega⟩

/-- A field of a stream that is cut after `m` bytes: it is read when it ends before the cut. -/
theorem readRaw_take {f : InputFile} {x y buf : Bytes} {m : Nat} (hf : f.failed = false)
    (hrest : f.rest = (x ++ y).take m) (hx : buf.length = x.length) :
    (x.length ≤ m ∧ ∃ f', f.readRaw buf = (true, x, f') ∧ f'.failed = false ∧ f'.rest = y.take (m - x.length)) ∨
      (m < x.length ∧ ∃ got f', f.readRaw buf = (false, got, f') ∧ f'.failed = true) := by
  rcases Nat.lt_or_ge m x.length with hm | hm
  · have hshort : f.rest.length < buf.length := by
      rw [hrest, hx, List.length_take]
      omega
    obtain ⟨got, f', hread, hfail, -⟩ := readRaw_short (by omega) (Or.inr hshort)
    exact Or.inr ⟨hm, got, f', hread, hfail⟩
  · have hx' : f.rest = x ++ y.take (m - x.length) := by rw [hrest, List.take_append, List.take_of_length_le hm]
    refine Or.inl ⟨hm, { f with pos := f.pos + x.length }, ?_, hf, ?_⟩
    · rw [readRaw_eq hf (by rw [hx', List.length_append]; omega), hx, hx', List.take_left]
    · show f.content.drop (f.pos + x.length) = y.take (m - x.length)
      rw [← List.drop_drop]
      show f.rest.drop x.length = y.take (m - x.length)
      rw [hx', List.drop_left]

/-- A number of a stream that is cut. -/
theorem readBE_take {f : InputFile} {v : Int32} {y : Bytes} {m : Nat} (hf : f.failed = false)
    (hrest : f.rest = (OutputBuffer.writeInt v ++ y).take m) :
    (4 ≤ m ∧ ∃ f', f.readBE = (some v, f') ∧ f'.failed = false ∧ f'.rest = y.take (m - 4)) ∨
      (m < 4 ∧ ∃ f', f.readBE = (none, f') ∧ f'.failed = true) := by
  have hv : (UInt32.ofNat (beValue (OutputBuffer.writeInt v))).toInt32 = v := by
    rw [OutputBuffer.writeInt, InputBuffer.uint32_beBytes, Int32.toInt32_toUInt32]
  rcases @readRaw_take f _ y (List.replicate 4 0) m hf hrest (by simp) with
    ⟨hm, f', hread, hf', hrest'⟩ | ⟨hm, got, f', hread, hf'⟩
  · rw [OutputBuffer.length_writeInt] at hm hrest'
    exact Or.inl ⟨hm, f', by simp only [readBE, hread, hv], hf', hrest'⟩
  · rw [OutputBuffer.length_writeInt] at hm
    exact Or.inr ⟨hm, f', by simp only [readBE, hread], hf'⟩

end InputFile

/-- `class SequenceFileReader`. -/
structure SequenceFileReader where
  file : InputFile
  sync : Bytes := List.replicate kMD5Len 0
  keyBuf : Bytes := []
  valBuf : Bytes := []

namespace SequenceFileReader

open SequenceFileWriter (kMagic kSyncEscape)

/-- `Open(path)` of a file with this content. -/
def openFile (content : Bytes) : Status × SequenceFileReader :=
  let r : SequenceFileReader := { file := ⟨content, 0, false⟩ }
  match r.file.readRaw (List.replicate 4 0) with
  | (false, _, file) => (.corrupt (bytes "not a SequenceFile"), { r with file })
  | (true, magic, file) =>
    if magic ≠ kMagic then (.corrupt (bytes "not a SequenceFile"), { r with file })
    else
      match file.readRaw r.sync with
      | (false, sync, file) => (.corrupt (bytes "truncated header"), { r with file, sync })
      | (true, sync, file) => (.OK, { r with file, sync })

/-- `buf.resize(static_cast<size_t>(len))`: a negative length is larger than any vector. -/
def resize (buf : Bytes) (len : Int32) : Except Throw Bytes :=
  if len < 0 then .error .lengthError
  else .ok (buf.take len.toNatClampNeg ++ List.replicate (len.toNatClampNeg - buf.length) 0)

/-- What `Next` does behind a length that is not the escape. -/
def readRecord (r : SequenceFileReader) (len : Int32) : Except Throw (Bool × SequenceFileReader) :=
  match r.file.readBE with
  | (none, file) => .ok (false, { r with file })
  | (some keyLen, file) =>
    match resize r.keyBuf keyLen with
    | .error e => .error e
    | .ok keyBuf =>
      match file.readRaw keyBuf with
      | (false, keyBuf, file) => .ok (false, { r with file, keyBuf })
      | (true, keyBuf, file) =>
        match resize r.valBuf (len - keyLen) with
        | .error e => .error e
        | .ok valBuf =>
          let (ok, valBuf, file) := file.readRaw valBuf
          .ok (ok, { r with file, keyBuf, valBuf })

/-- `Next()`. -/
def next (r : SequenceFileReader) : Except Throw (Bool × SequenceFileReader) :=
  match _h : r.file.readBE with
  | (none, file) => .ok (false, { r with file })
  | (some len, file) =>
    if len = kSyncEscape then next { r with file := file.seekg kMD5Len }
    else readRecord { r with file } len
termination_by r.file.content.length - r.file.pos
decreasing_by
  obtain ⟨hcontent, hpos, hle⟩ := InputFile.readBE_some _h
  simp only [InputFile.seekg]
  split <;> simp only [hcontent] <;> omega

/-- `Key()` and `Value()`. -/
def current (r : SequenceFileReader) : Bytes × Bytes := (r.keyBuf, r.valBuf)

/-- Successive calls of `Next`: for each the record when it returns true. -/
def nexts : Nat → SequenceFileReader → Except Throw (List (Option (Bytes × Bytes)))
  | 0, _ => return []
  | n + 1, r => do
    let (ok, r) ← r.next
    let records ← nexts n r
    return (if ok then some r.current else none) :: records

/-! ## Reading what was written -/

open SequenceFileWriter (escape record kSyncInterval)

theorem next_none {r : SequenceFileReader} {file : InputFile} (h : r.file.readBE = (none, file)) :
    r.next = .ok (false, { r with file }) := by
  rw [next]
  split
  · rename_i file' h'
    cases h.symm.trans h'
    rfl
  · rename_i h'
    cases h.symm.trans h'

theorem next_some {r : SequenceFileReader} {len : Int32} {file : InputFile} (h : r.file.readBE = (some len, file)) :
    r.next = if len = kSyncEscape then next { r with file := file.seekg kMD5Len } else readRecord { r with file } len := by
  conv_lhs => rw [next]
  split
  · rename_i h'
    cases h.symm.trans h'
  · rename_i h'
    cases h.symm.trans h'
    rfl

/-- `Next` after a read that failed. -/
theorem next_failed {r : SequenceFileReader} (hf : r.file.failed = true) : r.next = .ok (false, r) := by
  obtain ⟨got, f', hread, -, hsame⟩ := @InputFile.readRaw_short r.file (List.replicate 4 0) (by simp) (Or.inl hf)
  have hbe : r.file.readBE = (none, r.file) := by simp only [InputFile.readBE, hread, hsame hf]
  exact next_none hbe

theorem nexts_succ {r r' : SequenceFileReader} {ok : Bool} (h : r.next = .ok (ok, r')) {m : Nat}
    {records : List (Option (Bytes × Bytes))} (hrest : nexts m r' = .ok records) :
    nexts (m + 1) r = .ok ((if ok then some r'.current else none) :: records) := by
  show (r.next >>= fun p => _) = _
  rw [h]
  show (nexts m r' >>= fun records => _) = _
  rw [hrest]
  rfl

theorem nexts_failed {r : SequenceFileReader} (hf : r.file.failed = true) :
    ∀ m, nexts m r = .ok ((List.range m).map fun _ => none)
  | 0 => rfl
  | m + 1 => by
    rw [nexts_succ (next_failed hf) (nexts_failed hf m), List.range_succ_eq_map, List.map_cons, List.map_map]
    rfl

theorem nexts_stop {r r' : SequenceFileReader} (h : r.next = .ok (false, r')) (hf : r'.file.failed = true) :
    ∀ m, nexts m r = .ok ((List.range m).map fun _ => none)
  | 0 => rfl
  | m + 1 => by
    rw [nexts_succ h (nexts_failed hf m), List.range_succ_eq_map, List.map_cons, List.map_map]
    rfl

/-- A length of a buffer that an `int32_t` holds. -/
theorem resize_ofNat {n : Nat} (h : n < 2 ^ 31) (buf : Bytes) :
    ∃ buf', resize buf (Int32.ofNat n) = .ok buf' ∧ buf'.length = n := by
  obtain ⟨hneg, hn⟩ := InputBuffer.int32_ofNat_size h
  refine ⟨_, by rw [resize, if_neg hneg, hn], ?_⟩
  rw [List.length_append, List.length_take, List.length_replicate]
  omega

/-- What a call of `Next` returns where `block` is next in a stream that is cut after `m` bytes and `y` follows:
the record if the block ends before the cut, and otherwise nothing. -/
def NextBlock (c : Bytes × Bytes) (block y : Bytes) (m : Nat) (out : Except Throw (Bool × SequenceFileReader)) : Prop :=
  (block.length ≤ m ∧ ∃ r, out = .ok (true, r) ∧ r.current = c ∧ r.file.failed = false ∧
      r.file.rest = y.take (m - block.length)) ∨
    (m < block.length ∧ ∃ r, out = .ok (false, r) ∧ r.file.failed = true)

theorem sub_size (k v : Nat) : Int32.ofNat (k + v) - Int32.ofNat k = Int32.ofNat v := by
  rw [Nat.add_comm, Int32.ofNat_add, Int32.add_sub_cancel]

theorem length_record (c : Bytes × Bytes) : (record c.1 c.2).length = 8 + c.1.length + c.2.length := by
  simp only [record, List.length_append, OutputBuffer.length_writeInt]
  omega

theorem length_not_escape {n : Nat} (h : n < 2 ^ 31) : Int32.ofNat n ≠ kSyncEscape := by
  intro heq
  refine (InputBuffer.int32_ofNat_size h).1 ?_
  rw [heq]
  decide

theorem nextBlock_record {r : SequenceFileReader} {c : Bytes × Bytes} {y : Bytes} {m : Nat}
    (hlen : c.1.length + c.2.length < 2 ^ 31) (hf : r.file.failed = false)
    (hrest : r.file.rest = (record c.1 c.2 ++ y).take m) : NextBlock c (record c.1 c.2) y m r.next := by
  obtain ⟨key, val⟩ := c
  rw [NextBlock, length_record]
  simp only at hlen hrest ⊢
  rw [record, List.append_assoc, List.append_assoc, List.append_assoc] at hrest
  -- the length of the record
  rcases InputFile.readBE_take hf hrest with ⟨hm, f, hread, hf, hrest⟩ | ⟨hm, f, hread, hf⟩
  swap
  · exact Or.inr ⟨by omega, _, next_none hread, hf⟩
  rw [next_some hread, if_neg (length_not_escape hlen), readRecord]
  -- the length of the key
  rcases InputFile.readBE_take hf hrest with ⟨hm', f', hread', hf', hrest'⟩ | ⟨hm', f', hread', hf'⟩
  swap
  · exact Or.inr ⟨by omega, { r with file := f' }, by simp only [hread'], hf'⟩
  obtain ⟨keyBuf, hkey, hkeyLen⟩ := resize_ofNat (show key.length < 2 ^ 31 by omega) r.keyBuf
  simp only [hread', hkey, sub_size]
  -- the key
  rcases InputFile.readRaw_take hf' hrest' hkeyLen with ⟨hm'', f'', hread'', hf'', hrest''⟩ | ⟨hm'', got, f'', hread'', hf''⟩
  swap
  · exact Or.inr ⟨by omega, { r with file := f'', keyBuf := got }, by simp only [hread''], hf''⟩
  obtain ⟨valBuf, hval, hvalLen⟩ := resize_ofNat (show val.length < 2 ^ 31 by omega) r.valBuf
  -- the value
  rcases InputFile.readRaw_take hf'' hrest'' hvalLen with ⟨hm₃, f₃, hread₃, hf₃, hrest₃⟩ | ⟨hm₃, got, f₃, hread₃, hf₃⟩
  · refine Or.inl ⟨by omega, { r with file := f₃, keyBuf := key, valBuf := val }, ?_, rfl, hf₃, ?_⟩
    · simp only [hread'', hval, hread₃]
    · rw [hrest₃]
      congr 1
      omega
  · exact Or.inr ⟨by omega, { r with file := f₃, keyBuf := key, valBuf := got },
      by simp only [hread'', hval, hread₃], hf₃⟩

theorem nextBlock_escape {r : SequenceFileReader} {s : Fin kMD5Len → UInt8} {c : Bytes × Bytes} {y : Bytes} {m : Nat}
    (hlen : c.1.length + c.2.length < 2 ^ 31) (hf : r.file.failed = false) {count : UInt64}
    (hrest : r.file.rest = ((escape s count ++ record c.1 c.2) ++ y).take m) :
    NextBlock c (escape s count ++ record c.1 c.2) y m r.next := by
  unfold escape at hrest ⊢
  split
  swap
  · rename_i hdue
    rw [if_neg hdue, List.nil_append] at hrest
    exact nextBlock_record hlen hf hrest
  rename_i hdue
  rw [if_pos hdue, List.append_assoc, List.append_assoc] at hrest
  rw [NextBlock, List.length_append, List.length_append, OutputBuffer.length_writeInt, List.length_ofFn]
  rcases InputFile.readBE_take hf hrest with ⟨hm, f, hread, hf, hrest⟩ | ⟨hm, f, hread, hf⟩
  swap
  · exact Or.inr ⟨by omega, _, next_none hread, hf⟩
  rw [next_some hread, if_pos rfl]
  -- behind the sync marker, or behind the cut
  have hskip : (f.seekg kMD5Len).rest = (record c.1 c.2 ++ y).take (m - 4 - kMD5Len) := by
    have hdrop : (f.seekg kMD5Len).rest = f.rest.drop kMD5Len := by
      rw [InputFile.seekg, hf]
      exact List.drop_drop.symm
    rw [hdrop, hrest, List.drop_take, List.drop_left' List.length_ofFn]
  have hgood : (f.seekg kMD5Len).failed = false := by
    rw [InputFile.seekg, hf]
    rfl
  rcases @nextBlock_record { r with file := f.seekg kMD5Len } c y _ hlen hgood hskip with
    ⟨hm', r', hnext, hc, hf', hrest'⟩ | ⟨hm', r', hnext, hf'⟩
  · have hpos := length_record c
    refine Or.inl ⟨by omega, r', hnext, hc, hf', ?_⟩
    rw [hrest']
    congr 1
    omega
  · exact Or.inr ⟨by omega, r', hnext, hf'⟩

end SequenceFileReader

/-! ## The whole file -/

namespace SequenceFileWriter

/-- What the accepted calls append, from a count on. -/
def blocks (sync : Fin kMD5Len → UInt8) : UInt64 → List (Bytes × Bytes) → Bytes
  | _, [] => []
  | count, c :: cs => (escape sync count ++ record c.1 c.2) ++ blocks sync (count + 1) cs

theorem appendRaw_ok_iff (w : SequenceFileWriter) (keyData valData : Bytes) :
    (w.appendRaw keyData valData).1 = .OK ↔ keyData ≠ [] := by
  unfold appendRaw
  split <;> rename_i h <;> simp [h, Status.OK, Status.invalidArg]

/-- The calls that are not rejected. -/
def accepted (calls : List (Bytes × Bytes)) : List (Bytes × Bytes) := calls.filter fun c => c.1 ≠ []

/-- Calls with an empty key leave no trace. -/
theorem appendAll_accepted : ∀ (calls : List (Bytes × Bytes)) (w : SequenceFileWriter),
    w.appendAll calls = w.appendAll (accepted calls)
  | [], _ => rfl
  | c :: calls, w => by
    by_cases hc : c.1 = []
    · have hsame : (w.appendRaw c.1 c.2).2 = w := by rw [appendRaw, if_pos hc]
      rw [accepted, List.filter_cons_of_neg (by simpa using hc), appendAll, List.foldl_cons, hsame]
      exact appendAll_accepted calls w
    · rw [accepted, List.filter_cons_of_pos (by simpa using hc), appendAll, List.foldl_cons, appendAll, List.foldl_cons]
      exact appendAll_accepted calls _

theorem appendAll_file : ∀ {calls : List (Bytes × Bytes)}, (∀ c ∈ calls, c.1 ≠ []) → ∀ w : SequenceFileWriter,
    (w.appendAll calls).file = w.file ++ blocks w.sync w.count calls
  | [], _, w => (List.append_nil _).symm
  | c :: calls, hkeys, w => by
    have hc : c.1 ≠ [] := hkeys c (by simp)
    rw [appendAll, List.foldl_cons]
    refine (appendAll_file (fun d hd => hkeys d (List.mem_cons_of_mem _ hd)) (w.appendRaw c.1 c.2).2).trans ?_
    rw [appendRaw, if_neg hc, blocks]
    exact List.append_assoc _ _ _

end SequenceFileWriter

namespace SequenceFileReader

open SequenceFileWriter (accepted blocks kMagic length_kMagic)

/-- A reader in front of blocks that are cut after `n` bytes returns the records that end before the cut. -/
theorem nexts_blocks (sync : Fin kMD5Len → UInt8) : ∀ {cs : List (Bytes × Bytes)},
    (∀ c ∈ cs, c.1.length + c.2.length < 2 ^ 31) → ∀ {count : UInt64} {n : Nat} {r : SequenceFileReader},
      r.file.failed = false → r.file.rest = (blocks sync count cs).take n →
      ∃ k ≤ cs.length, (∀ i ≤ cs.length, i ≤ k ↔ (blocks sync count (cs.take i)).length ≤ n) ∧
        ∀ m, nexts m r = .ok ((List.range m).map fun i => (cs.take k)[i]?)
  | [], _, count, n, r, hf, hrest => by
    have hnil : r.file.rest = (OutputBuffer.writeInt 0 ++ []).take 0 := by
      rw [hrest, blocks, List.take_nil, List.take_zero]
    rcases InputFile.readBE_take hf hnil with ⟨hm, -⟩ | ⟨-, f, hread, hf⟩
    · omega
    · refine ⟨0, le_rfl, fun i hi => ?_, fun m => ?_⟩
      · simp [blocks, Nat.le_zero.1 hi]
      · rw [nexts_stop (next_none hread) hf]
        simp
  | c :: cs, hlen, count, n, r, hf, hrest => by
    rw [blocks] at hrest
    rcases nextBlock_escape (hlen c (by simp)) hf hrest with ⟨hfits, r', hnext, hc, hf', hrest'⟩ | ⟨hcut, r', hnext, hf'⟩
    · obtain ⟨k, hk, hends, hreads⟩ := nexts_blocks sync (fun d hd => hlen d (List.mem_cons_of_mem _ hd)) hf' hrest'
      refine ⟨k + 1, Nat.succ_le_succ hk, fun i hi => ?_, fun m => ?_⟩
      · cases i with
        | zero => simp [blocks]
        | succ i =>
          have hi' : i ≤ cs.length := Nat.le_of_succ_le_succ hi
          rw [List.take_succ_cons, blocks, List.length_append, Nat.add_le_add_iff_right, hends i hi']
          omega
      · cases m with
        | zero => rfl
        | succ m =>
          rw [nexts_succ hnext (hreads m), List.range_succ_eq_map, List.map_cons, List.map_map, hc]
          rfl
    · refine ⟨0, Nat.zero_le _, fun i hi => ?_, fun m => ?_⟩
      · cases i with
        | zero => simp [blocks]
        | succ i =>
          rw [List.take_succ_cons, blocks, List.length_append]
          omega
      · rw [nexts_stop hnext hf']
        simp

/-- A file whose header is there opens, and the reader stands behind the header. -/
theorem openFile_take (sync : Fin kMD5Len → UInt8) {y : Bytes} {n : Nat} (hn : 20 ≤ n) :
    ∃ r, openFile (((kMagic ++ List.ofFn sync) ++ y).take n) = (.OK, r) ∧ r.file.failed = false ∧
      r.file.rest = y.take (n - 20) := by
  have hsync : (List.ofFn sync).length = kMD5Len := List.length_ofFn
  rw [List.append_assoc]
  obtain ⟨-, f, hread, hf, hrest⟩ | ⟨hcut, -⟩ :=
    @InputFile.readRaw_take ⟨(kMagic ++ (List.ofFn sync ++ y)).take n, 0, false⟩ kMagic _ (List.replicate 4 0) n rfl rfl
      (by simp)
  swap
  · exact absurd hn (by rw [length_kMagic] at hcut; omega)
  obtain ⟨-, f', hread', hf', hrest'⟩ | ⟨hcut, -⟩ :=
    @InputFile.readRaw_take f _ _ (List.replicate kMD5Len 0) _ hf hrest (by rw [hsync, List.length_replicate])
  swap
  · exact absurd hn (by rw [hsync, length_kMagic, show kMD5Len = 16 from rfl] at hcut; omega)
  refine ⟨{ file := f', sync := List.ofFn sync }, ?_, hf', ?_⟩
  · simp only [openFile, hread, hread', ne_eq, not_true_eq_false, if_false]
  · rw [hrest', hsync, Nat.sub_sub]
    rfl

/-- Reading undoes writing, also after the file was cut: `Next` returns the records that end before the cut, in
order, and then fails. A rejected call changes nothing. -/
theorem nexts_openFile (sync : Fin kMD5Len → UInt8) {calls : List (Bytes × Bytes)}
    (hlen : ∀ c ∈ calls, c.1 ≠ [] → c.1.length + c.2.length < 2 ^ 31) :
    (∀ (w : SequenceFileWriter) (c : Bytes × Bytes), (w.appendRaw c.1 c.2).1 = .OK ↔ c.1 ≠ []) ∧
      (SequenceFileWriter.openFile sync).appendAll calls =
        (SequenceFileWriter.openFile sync).appendAll (accepted calls) ∧
      ∀ n, 20 ≤ n → ∃ r, openFile (((SequenceFileWriter.openFile sync).appendAll calls).file.take n) = (.OK, r) ∧
        ∃ k ≤ (accepted calls).length,
          (∀ i ≤ (accepted calls).length,
            i ≤ k ↔ ((SequenceFileWriter.openFile sync).appendAll ((accepted calls).take i)).file.length ≤ n) ∧
          ∀ m, nexts m r = .ok ((List.range m).map fun i => ((accepted calls).take k)[i]?) := by
  have hmem : ∀ c ∈ accepted calls, c.1 ≠ [] ∧ c.1.length + c.2.length < 2 ^ 31 := by
    intro c hc
    rw [accepted, List.mem_filter] at hc
    exact ⟨by simpa using hc.2, hlen c hc.1 (by simpa using hc.2)⟩
  have hsame := SequenceFileWriter.appendAll_accepted calls (SequenceFileWriter.openFile sync)
  have hfile : ∀ {cs : List (Bytes × Bytes)}, (∀ c ∈ cs, c.1 ≠ []) →
      ((SequenceFileWriter.openFile sync).appendAll cs).file = (kMagic ++ List.ofFn sync) ++ blocks sync 0 cs :=
    fun hkeys => SequenceFileWriter.appendAll_file hkeys _
  refine ⟨fun w c => SequenceFileWriter.appendRaw_ok_iff w c.1 c.2, hsame, fun n hn => ?_⟩
  rw [hsame, hfile fun c hc => (hmem c hc).1]
  obtain ⟨r, hopen, hf, hrest⟩ := openFile_take sync hn
  obtain ⟨k, hk, hends, hreads⟩ := nexts_blocks sync (fun c hc => (hmem c hc).2) hf hrest
  refine ⟨r, hopen, k, hk, fun i hi => ?_, hreads⟩
  rw [hfile fun c hc => (hmem c (List.mem_of_mem_take hc)).1, hends i hi, List.length_append, List.length_append,
    List.length_ofFn, length_kMagic, show kMD5Len = 16 from rfl]
  omega

/-- Two records, and a call that is rejected between them. -/
def twoRecords : List (Bytes × Bytes) := [(bytes "k1", bytes "v"), ([], bytes "lost"), (bytes "k2", [])]

theorem nexts_twoRecords :
    (∀ (w : SequenceFileWriter) (c : Bytes × Bytes), (w.appendRaw c.1 c.2).1 = .OK ↔ c.1 ≠ []) ∧
      (SequenceFileWriter.openFile fun _ => 255).appendAll twoRecords =
        (SequenceFileWriter.openFile fun _ => 255).appendAll (accepted twoRecords) ∧
      ∀ n, 20 ≤ n →
        ∃ r, openFile (((SequenceFileWriter.openFile fun _ => 255).appendAll twoRecords).file.take n) = (.OK, r) ∧
          ∃ k ≤ (accepted twoRecords).length,
            (∀ i ≤ (accepted twoRecords).length,
              i ≤ k ↔
                ((SequenceFileWriter.openFile fun _ => 255).appendAll ((accepted twoRecords).take i)).file.length ≤ n) ∧
            ∀ m, nexts m r = .ok ((List.range m).map fun i => ((accepted twoRecords).take k)[i]?) :=
  nexts_openFile (fun _ => 255) (by simp [twoRecords, bytes])

end SequenceFileReader

end MiniHadoop

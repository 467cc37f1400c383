/-
A DataNode's block files and the server in front of them (`ndfs/block_storage.h`,
`ndfs/data_xceive_server.h`). A connection is the bytes the client sends before it closes or breaks
off; the server answers with bytes. The file system behind a store may fail to open the file or write
only part of the data, and the code looks at neither result.
-/
import MiniHadoop.Base.HashMap
import MiniHadoop.Base.Wire
import MiniHadoop.Base.Decimal
import MiniHadoop.Common.Error

namespace MiniHadoop.Ndfs

open Text Wire

/-! ## Block files -/

/-- `class BlockStorage`: the files under the data directory, by path. -/
structure BlockStorage where
  dataDir : Bytes
  files : HashMap Bytes Buffer := ∅

/-- What the file system does with a file that is written: it cannot be opened, the write breaks off after
some bytes, or all is written. -/
inductive FileOutcome where
  | openFails
  | short (n : Nat)
  | written
  deriving DecidableEq, Repr

/-- What a store leaves in the file of its block: nothing new, a beginning of the data, or all of it. -/
def FileOutcome.content (data : Bytes) : FileOutcome → Option Bytes
  | .openFails => none
  | .short n => some (data.take n)
  | .written => some data

namespace BlockStorage

/-- `BlockPath(block_id)`. -/
def blockPath (st : BlockStorage) (blockId : Int64) : Bytes :=
  st.dataDir ++ bytes "/" ++ toStr blockId ++ bytes ".blk"

/-- `StoreBlock(block, data, len)`; only the id of the block is used. Opening truncates the file, and the
result of the write is not checked. -/
def storeBlock (st : BlockStorage) (blockId : Int64) (data : Buffer) : FileOutcome → BlockStorage × Status
  | .openFails => (st, .ioError (bytes "cannot create block file: " ++ st.blockPath blockId))
  | .short n => ({ st with files := st.files.insert (st.blockPath blockId) (Buffer.take n data) }, .OK)
  | .written => ({ st with files := st.files.insert (st.blockPath blockId) data }, .OK)

/-- `ReadBlock(block_id, data)`. -/
def readBlock (st : BlockStorage) (blockId : Int64) : Except Status Buffer :=
  match st.files.lookup (st.blockPath blockId) with
  | none => .error (.ioError (bytes "cannot open block: " ++ st.blockPath blockId))
  | some data => .ok data

/-- The bytes stored for a block id. -/
def held (st : BlockStorage) (blockId : Int64) : Option Bytes := (st.files.lookup (st.blockPath blockId)).map (·.1)

theorem blockPath_inj {st : BlockStorage} {a b : Int64} (h : st.blockPath a = st.blockPath b) : a = b := by
  unfold blockPath at h
  exact toStr_injective (List.append_cancel_left (List.append_cancel_right h))

/-- Storing a block changes that block only. -/
theorem held_storeBlock (st : BlockStorage) (id : Int64) (data : Buffer) (o : FileOutcome) (id' : Int64) :
    (st.storeBlock id data o).1.held id' =
      if id' = id then (o.content data.1).or (st.held id) else st.held id' := by
  have key : ∀ content : Buffer,
      ({ st with files := st.files.insert (st.blockPath id) content } : BlockStorage).held id' =
        if id' = id then some content.1 else st.held id' := by
    intro content
    show ((st.files.insert (st.blockPath id) content).lookup (st.blockPath id')).map (·.1) = _
    rw [HashMap.lookup_insert_eq]
    by_cases h : id' = id
    · subst h; rw [if_pos rfl, if_pos rfl]; rfl
    · rw [if_neg h, if_neg fun hp => h (blockPath_inj hp)]; rfl
  cases o with
  | openFails =>
    show st.held id' = _
    split
    · rename_i h; rw [h]; rfl
    · rfl
  | short n => exact key _
  | written => exact key _

end BlockStorage

/-! ## Connections -/

def kOpWriteBlock : UInt8 := 80
def kOpReadBlock : UInt8 := 81

/-- A 64-bit id in network order, and back. -/
def idBytes (id : Int64) : Bytes := beBytes 8 id.toUInt64.toNat

@[simp] theorem length_idBytes (id : Int64) : (idBytes id).length = 8 := length_beBytes 8 _

def idOfBytes (b : Bytes) : Int64 := (UInt64.ofNat (beValue b)).toInt64

theorem idOfBytes_idBytes (id : Int64) : idOfBytes (idBytes id) = id := by
  unfold idOfBytes idBytes
  rw [beValue_of_fits (by have := id.toUInt64.toNat_lt; omega), UInt64.ofNat_toNat]
  rfl

theorem idBytes_idOfBytes {b : Bytes} (h : b.length = 8) : idBytes (idOfBytes b) = b := by
  have hlt := beValue_lt b
  rw [h] at hlt
  unfold idBytes idOfBytes
  rw [UInt64.toUInt64_toInt64, UInt64.toNat_ofNat_of_lt' hlt, ← h, beBytes_beValue]

/-- How a connection ends for the server: closed after sending some bytes, with an exception that leaves the
thread, or with the signal `SIGPIPE`; both end the process. -/
inductive Served where
  | closed (out : Bytes)
  | terminated
  | killed
  deriving DecidableEq, Repr

/-- The bytes `x` were sent before. -/
def Served.after (x : Bytes) : Served → Served
  | .closed out => .closed (x ++ out)
  | .terminated => .terminated
  | .killed => .killed

/-- The calls of `WriteFull` from the `i`-th one of a connection on, with what becomes of each. Their results are not
looked at, and one for no bytes calls no `send`. -/
def writeFulls (send : Nat → SendOutcome) (i : Nat) : List Bytes → Served
  | [] => .closed []
  | buf :: rest =>
    if buf = [] then writeFulls send (i + 1) rest
    else match send i with
      | .sent => (writeFulls send (i + 1) rest).after buf
      | .failed n => (writeFulls send (i + 1) rest).after (buf.take n)
      | .sigpipe => .killed

/-- The buffers that are sent to answer a read: the size and the bytes of the block; nothing when the block is not
there. -/
def readAnswer (st : BlockStorage) (id : Int64) : List Bytes :=
  match st.readBlock id with
  | .error _ => []
  | .ok data => [beBytes 8 data.1.length, data.1]

/-- `HandleConnection(fd)` on the bytes that arrive, with what becomes of the bytes it sends. A length with the sign bit
set is more than a vector can hold. -/
def handleConnection (send : Nat → SendOutcome) (st : BlockStorage) (input : Bytes) (o : FileOutcome) :
    BlockStorage × Served :=
  match readFull 1 input with
  | none => (st, .closed [])
  | some (op, rest) =>
    if op = [kOpWriteBlock] then
      match readFull 8 rest with
      | none => (st, .closed [])
      | some (blockId, rest) =>
        match readFull 8 rest with
        | none => (st, .closed [])
        | some (blockLen, rest) =>
          if maxSize ≤ beValue blockLen then (st, .terminated)
          else
            match readVector (beValue blockLen) rest with
            | none => (st, .closed [])
            | some data => ((st.storeBlock (idOfBytes blockId) data o).1, writeFulls send 0 [[1]])
    else if op = [kOpReadBlock] then
      match readFull 8 rest with
      | none => (st, .closed [])
      | some (blockId, _) => (st, writeFulls send 0 (readAnswer st (idOfBytes blockId)))
    else (st, .closed [])

/-- A peer that takes all that is sent. -/
def allSent : Nat → SendOutcome := fun _ => .sent

theorem writeFulls_allSent : ∀ (i : Nat) (bufs : List Bytes), writeFulls allSent i bufs = .closed bufs.flatten
  | _, [] => rfl
  | i, buf :: rest => by
    rw [writeFulls, writeFulls_allSent (i + 1) rest, List.flatten_cons]
    split
    · rename_i hnil
      rw [hnil, List.nil_append]
    · rfl

/-- One of these buffers is not empty, and meets a peer that has closed; the first is sent by the `i`-th `WriteFull`. -/
def Breaks (send : Nat → SendOutcome) (i : Nat) (bufs : List Bytes) : Prop :=
  ∃ k buf, bufs[k]? = some buf ∧ buf ≠ [] ∧ send (i + k) = .sigpipe

theorem breaks_cons {send : Nat → SendOutcome} {i : Nat} {buf : Bytes} {rest : List Bytes} :
    Breaks send i (buf :: rest) ↔ (buf ≠ [] ∧ send i = .sigpipe) ∨ Breaks send (i + 1) rest := by
  constructor
  · rintro ⟨k, x, hx, hne, hsend⟩
    cases k with
    | zero =>
      cases hx
      exact .inl ⟨hne, hsend⟩
    | succ k => exact .inr ⟨k, x, hx, hne, by rw [Nat.add_right_comm]; exact hsend⟩
  · rintro (⟨hne, hsend⟩ | ⟨k, x, hx, hne, hsend⟩)
    · exact ⟨0, buf, rfl, hne, hsend⟩
    · exact ⟨k + 1, x, hx, hne, by rw [Nat.add_right_comm] at hsend; exact hsend⟩

/-- The connection is closed after the answer exactly when the peer is there for all of it. -/
theorem writeFulls_closed_iff {send : Nat → SendOutcome} : ∀ {i : Nat} {bufs : List Bytes},
    (∃ out, writeFulls send i bufs = .closed out) ↔ ¬ Breaks send i bufs
  | _, [] => by simp [writeFulls, Breaks]
  | i, buf :: rest => by
    have ih := @writeFulls_closed_iff send (i + 1) rest
    have hafter : ∀ x, (∃ out, (writeFulls send (i + 1) rest).after x = .closed out) ↔
        ∃ out, writeFulls send (i + 1) rest = .closed out := by
      intro x
      cases writeFulls send (i + 1) rest <;> simp [Served.after]
    rw [breaks_cons, writeFulls]
    split
    · rename_i hnil
      simp [hnil, ih]
    · rename_i hne
      cases hsend : send i with
      | sent => simp [hafter, ih]
      | failed n => simp [hafter, ih]
      | sigpipe => simp [hne]

/-- What a client sends to write a block. -/
def writeRequest (id : Int64) (chunk : Bytes) : Bytes :=
  [kOpWriteBlock] ++ (idBytes id ++ (beBytes 8 chunk.length ++ chunk))

/-- What a client sends to read a block. -/
def readRequest (id : Int64) : Bytes := [kOpReadBlock] ++ idBytes id

/-- A write request that arrives whole stores the block and is acknowledged, whatever the file system
did. -/
theorem handleConnection_write (st : BlockStorage) (id : Int64) (chunk : Buffer) (o : FileOutcome) :
    handleConnection allSent st (writeRequest id chunk.1) o = ((st.storeBlock id chunk o).1, .closed [1]) := by
  have hdata : readVector chunk.1.length chunk.1 = some chunk := by
    have := readVector_append chunk []
    rwa [List.append_nil] at this
  unfold handleConnection writeRequest
  rw [readFull_append (show [kOpWriteBlock].length = 1 from rfl)]
  simp only [if_true]
  rw [readFull_append (length_idBytes id)]
  simp only
  rw [readFull_append (length_beBytes 8 _)]
  simp only [beValue_length chunk.2, if_neg (Nat.not_le.2 chunk.2), hdata, idOfBytes_idBytes,
    writeFulls_allSent, List.flatten_singleton]

/-- A write request that breaks off stores nothing, and nothing is sent. -/
theorem handleConnection_cut {send : Nat → SendOutcome} (st : BlockStorage) (id : Int64) (chunk : Buffer)
    (o : FileOutcome) {n : Nat} (hn : n < (writeRequest id chunk.1).length) :
    handleConnection send st ((writeRequest id chunk.1).take n) o = (st, .closed []) := by
  have hreq : (writeRequest id chunk.1).length = 17 + chunk.1.length := by
    simp [writeRequest]; omega
  unfold handleConnection writeRequest
  rw [readFull_take (show [kOpWriteBlock].length = 1 from rfl)]
  by_cases h1 : 1 ≤ n
  · rw [if_pos h1]
    simp only [if_true]
    rw [readFull_take (length_idBytes id)]
    by_cases h2 : 8 ≤ n - 1
    · rw [if_pos h2]
      simp only
      rw [readFull_take (length_beBytes 8 _)]
      by_cases h3 : 8 ≤ n - 1 - 8
      · rw [if_pos h3]
        simp only [beValue_length chunk.2, if_neg (Nat.not_le.2 chunk.2)]
        rw [readVector_short]
        rw [List.length_take]
        omega
      · rw [if_neg h3]
    · rw [if_neg h2]
  · rw [if_neg h1]

theorem handleConnection_read (st : BlockStorage) (id : Int64) (o : FileOutcome) :
    handleConnection allSent st (readRequest id) o = (st, .closed (readAnswer st id).flatten) := by
  have hid : readFull 8 (idBytes id) = some (idBytes id, []) := by
    have := readFull_append (length_idBytes id) []
    rwa [List.append_nil] at this
  have hne : ¬ [kOpReadBlock] = [kOpWriteBlock] := by decide
  unfold handleConnection readRequest
  rw [readFull_append (show [kOpReadBlock].length = 1 from rfl)]
  simp only [hne, if_false, if_true, hid, idOfBytes_idBytes, writeFulls_allSent]

theorem readAnswer_eq (st : BlockStorage) (id : Int64) :
    readAnswer st id = match st.held id with
      | none => []
      | some data => [beBytes 8 data.length, data] := by
  unfold readAnswer BlockStorage.readBlock BlockStorage.held
  cases st.files.lookup (st.blockPath id) <;> rfl

/-- What the client gets of it. -/
theorem flatten_readAnswer (st : BlockStorage) (id : Int64) :
    (readAnswer st id).flatten = match st.held id with
      | none => []
      | some data => beBytes 8 data.length ++ data := by
  rw [readAnswer_eq]
  cases st.held id with
  | none => rfl
  | some data => simp

theorem length_held {st : BlockStorage} {id : Int64} {data : Bytes} (h : st.held id = some data) :
    data.length < maxSize := by
  obtain ⟨b, -, rfl⟩ := Option.map_eq_some_iff.1 h
  exact b.2

end MiniHadoop.Ndfs

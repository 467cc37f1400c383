/-
What the bytes of one connection can do to a DataNode (`ndfs/data_xceive_server.h`), on a machine whose memory is
limited: the vectors of `HandleConnection` are made before their bytes are there, the first one for a length that the
peer has chosen. And what the acknowledgement of a write says about the block.
-/
import MiniHadoop.Ndfs.BlockStore

namespace MiniHadoop.Ndfs

open Text Wire

/-! ## Limited memory -/

/-- `HandleConnection(fd)` with `alloc` saying which sizes `operator new` can serve; where it cannot, it throws
`std::bad_alloc`. -/
def handleConnectionWithin (alloc : Nat → Bool) (send : Nat → SendOutcome) (st : BlockStorage) (input : Bytes)
    (o : FileOutcome) : BlockStorage × Served :=
  match readFull 1 input with
  | none => (st, .closed [])
  | some (op, rest) =>
    if op = [kOpWriteBlock] then
      match readFull 8 rest with
      | none => (st, .closed [])
      | some (blockId, rest) =>
        match readFull 8 rest with
        | none => (st, .closed [])
        | some (blockLen, rest) =>
          if maxSize ≤ beValue blockLen then (st, .terminated)
          else if alloc (beValue blockLen) = false then (st, .terminated)
          else
            match readVector (beValue blockLen) rest with
            | none => (st, .closed [])
            | some data => ((st.storeBlock (idOfBytes blockId) data o).1, writeFulls send 0 [[1]])
    else if op = [kOpReadBlock] then
      match readFull 8 rest with
      | none => (st, .closed [])
      | some (blockId, _) =>
        match st.readBlock (idOfBytes blockId) with
        | .error _ => (st, .closed [])
        | .ok data =>
          -- `ReadBlock` resizes the vector to the size of the file
          if alloc data.1.length = false then (st, .terminated)
          else (st, writeFulls send 0 [beBytes 8 data.1.length, data.1])
    else (st, .closed [])

/-- Where memory does not run out, this is the server without the limit. -/
theorem handleConnectionWithin_unlimited (send : Nat → SendOutcome) (st : BlockStorage) (input : Bytes)
    (o : FileOutcome) :
    handleConnectionWithin (fun _ => true) send st input o = handleConnection send st input o := by
  unfold handleConnectionWithin handleConnection
  cases readFull 1 input with
  | none => rfl
  | some opRest =>
    obtain ⟨op, rest⟩ := opRest
    dsimp only
    by_cases hw : op = [kOpWriteBlock]
    · rw [if_pos hw, if_pos hw]
      rfl
    · rw [if_neg hw, if_neg hw]
      by_cases hr : op = [kOpReadBlock]
      · rw [if_pos hr, if_pos hr]
        cases readFull 8 rest with
        | none => rfl
        | some idRest =>
          dsimp only
          unfold readAnswer
          cases st.readBlock (idOfBytes idRest.1) <;> rfl
      · rw [if_neg hr, if_neg hr]

/-! ## What a stream asks for -/

/-- The head of a stream: nothing the server acts on, a write with its length and what follows, or a read. -/
inductive StreamHead where
  | nothing
  | write (id : Int64) (len : Nat) (rest : Bytes)
  | read (id : Int64)
  deriving DecidableEq, Repr

/-- The head of the bytes that arrive. -/
def streamHead (input : Bytes) : StreamHead :=
  match readFull 1 input with
  | none => .nothing
  | some (op, rest) =>
    if op = [kOpWriteBlock] then
      match readFull 8 rest with
      | none => .nothing
      | some (blockId, rest) =>
        match readFull 8 rest with
        | none => .nothing
        | some (blockLen, rest) => .write (idOfBytes blockId) (beValue blockLen) rest
    else if op = [kOpReadBlock] then
      match readFull 8 rest with
      | none => .nothing
      | some (blockId, _) => .read (idOfBytes blockId)
    else .nothing

theorem handleConnectionWithin_eq (alloc : Nat → Bool) (send : Nat → SendOutcome) (st : BlockStorage) (input : Bytes)
    (o : FileOutcome) : handleConnectionWithin alloc send st input o =
      match streamHead input with
      | .nothing => (st, .closed [])
      | .write id len rest =>
        if maxSize ≤ len then (st, .terminated)
        else if alloc len = false then (st, .terminated)
        else
          match readVector len rest with
          | none => (st, .closed [])
          | some data => ((st.storeBlock id data o).1, writeFulls send 0 [[1]])
      | .read id =>
        match st.held id with
        | none => (st, .closed [])
        | some data =>
          if alloc data.length = false then (st, .terminated)
          else (st, writeFulls send 0 [beBytes 8 data.length, data]) := by
  unfold handleConnectionWithin streamHead
  cases readFull 1 input with
  | none => rfl
  | some opRest =>
    obtain ⟨op, rest⟩ := opRest
    simp only
    by_cases hw : op = [kOpWriteBlock]
    · rw [if_pos hw, if_pos hw]
      cases readFull 8 rest with
      | none => rfl
      | some idRest =>
        simp only
        cases readFull 8 idRest.2 <;> rfl
    · rw [if_neg hw, if_neg hw]
      by_cases hr : op = [kOpReadBlock]
      · rw [if_pos hr, if_pos hr]
        cases readFull 8 rest with
        | none => rfl
        | some idRest =>
          simp only [BlockStorage.held, BlockStorage.readBlock]
          cases st.files.lookup (st.blockPath (idOfBytes idRest.1)) <;> rfl
      · rw [if_neg hr, if_neg hr]

/-- What precedes the payload of a write. -/
theorem eq_of_streamHead_write {input : Bytes} {id : Int64} {len : Nat} {rest : Bytes}
    (h : streamHead input = .write id len rest) :
    input = [kOpWriteBlock] ++ (idBytes id ++ (beBytes 8 len ++ rest)) := by
  unfold streamHead at h
  split at h
  · cases h
  · rename_i op rest1 hop
    obtain ⟨hinput, -⟩ := eq_append_of_readFull hop
    split at h
    · rename_i hw
      split at h
      · cases h
      · rename_i blockId rest2 hid
        obtain ⟨hrest1, hidLen⟩ := eq_append_of_readFull hid
        split at h
        · cases h
        · rename_i blockLen rest3 hlen
          obtain ⟨hrest2, hlenLen⟩ := eq_append_of_readFull hlen
          cases h
          rw [hinput, hrest1, hrest2, hw, idBytes_idOfBytes hidLen, ← hlenLen, beBytes_beValue]
    · split at h
      · split at h <;> cases h
      · cases h

theorem streamHead_write (id : Int64) (payload : Buffer) (rest : Bytes) :
    streamHead (clientWrite id payload.1 ++ rest) = .write id payload.1.length (payload.1 ++ rest) := by
  rw [clientWrite_eq, writeRequest, List.append_assoc, List.append_assoc, List.append_assoc]
  unfold streamHead
  rw [readFull_append (show [kOpWriteBlock].length = 1 from rfl)]
  simp only [if_true]
  rw [readFull_append (length_idBytes id)]
  simp only
  rw [readFull_append (length_beBytes 8 _)]
  simp only [beValue_length payload.2, idOfBytes_idBytes]

/-- The stream starts with all bytes of a write request. -/
def CarriesWrite (input : Bytes) : Prop :=
  ∃ (id : Int64) (payload : Buffer) (rest : Bytes), input = clientWrite id payload.1 ++ rest

/-- That is when the server takes the stream for a write and all of the payload arrives. -/
theorem carriesWrite_iff {input : Bytes} : CarriesWrite input ↔
    ∃ id len rest data, streamHead input = .write id len rest ∧ readVector len rest = some data := by
  constructor
  · rintro ⟨id, payload, rest, rfl⟩
    exact ⟨id, payload.1.length, payload.1 ++ rest, payload, streamHead_write id payload rest,
      readVector_append payload rest⟩
  · rintro ⟨id, len, rest, data, hhead, hdata⟩
    have hlen := length_readVector hdata
    obtain ⟨-, hle⟩ : len < maxSize ∧ len ≤ rest.length := by
      by_contra hno
      rw [readVector, dif_neg hno] at hdata
      cases hdata
    have htake : data.1 = rest.take len := by
      rw [readVector, dif_pos ⟨hlen ▸ data.2, hle⟩, Option.some.injEq] at hdata
      exact (congrArg Subtype.val hdata).symm
    refine ⟨id, data, rest.drop len, ?_⟩
    rw [eq_of_streamHead_write hhead, clientWrite_eq, writeRequest, hlen]
    simp only [List.append_assoc]
    rw [htake, List.take_append_drop]

/-! ## What a DataNode survives -/

/-- The size of the vector that is made for a stream. -/
def vectorSize (st : BlockStorage) (input : Bytes) : Option Nat :=
  match streamHead input with
  | .nothing => none
  | .write _ len _ => some len
  | .read id => (st.held id).map List.length

/-- The buffers of the answer to a stream. -/
def answerTo (st : BlockStorage) (input : Bytes) : List Bytes :=
  match streamHead input with
  | .nothing => []
  | .write _ len rest => if (readVector len rest).isSome then [[1]] else []
  | .read id => readAnswer st id

/-- The connection is closed, and every block is as it was unless the stream starts with a whole write request. -/
def Survives (alloc : Nat → Bool) (send : Nat → SendOutcome) (st : BlockStorage) (input : Bytes) (o : FileOutcome) :
    Prop :=
  (∃ out, (handleConnectionWithin alloc send st input o).2 = .closed out) ∧
    (¬ CarriesWrite input → ∀ id, (handleConnectionWithin alloc send st input o).1.held id = st.held id)

variable {alloc : Nat → Bool} {send : Nat → SendOutcome}

/-- Nothing but a whole write request changes the files. -/
theorem handleConnectionWithin_files (st : BlockStorage) {input : Bytes} (o : FileOutcome) (h : ¬ CarriesWrite input) :
    (handleConnectionWithin alloc send st input o).1 = st := by
  rw [handleConnectionWithin_eq]
  cases hhead : streamHead input with
  | nothing => rfl
  | write id len rest =>
    simp only
    split
    · rfl
    · split
      · rfl
      · split
        · rfl
        · rename_i data hdata
          exact absurd (carriesWrite_iff.2 ⟨id, len, rest, data, hhead, hdata⟩) h
  | read id =>
    simp only
    split
    · rfl
    · split <;> rfl

/-- The connection is closed exactly when the vector that is made for it, if any, is not too large and gets its
memory, and the peer is there for the answer. -/
theorem handleConnectionWithin_closed_iff (st : BlockStorage) (input : Bytes) (o : FileOutcome) :
    (∃ out, (handleConnectionWithin alloc send st input o).2 = .closed out) ↔
      (∀ n, vectorSize st input = some n → n < maxSize ∧ alloc n = true) ∧ ¬ Breaks send 0 (answerTo st input) := by
  rw [handleConnectionWithin_eq, vectorSize, answerTo, ← writeFulls_closed_iff]
  cases streamHead input with
  | nothing => simp [writeFulls]
  | write id len rest =>
    by_cases hmax : maxSize ≤ len
    · simp [hmax]
    · by_cases hal : alloc len = false
      · simp [hmax, hal]
      · have hfits : len < maxSize ∧ alloc len = true := ⟨Nat.not_le.1 hmax, Bool.not_eq_false _ ▸ hal⟩
        simp only [hmax, hal, if_false, Option.some.injEq, forall_eq', hfits, true_and, and_self]
        cases readVector len rest with
        | none => simp [writeFulls]
        | some data => rfl
  | read id =>
    simp only [readAnswer_eq]
    cases hheld : st.held id with
    | none => simp [writeFulls]
    | some data =>
      have hlen := length_held hheld
      by_cases hal : alloc data.length = false
      · simp [hal]
      · simp only [hal, Option.map_some, Option.some.injEq, forall_eq', hlen, true_and]
        rfl

/-- A DataNode survives a stream exactly when it can make the vector that the stream asks for, and the peer does not
close its end before the answer. -/
theorem survives_iff (alloc : Nat → Bool) (send : Nat → SendOutcome) (st : BlockStorage) (input : Bytes)
    (o : FileOutcome) : Survives alloc send st input o ↔
      (∀ n, vectorSize st input = some n → n < maxSize ∧ alloc n = true) ∧ ¬ Breaks send 0 (answerTo st input) := by
  rw [← handleConnectionWithin_closed_iff st input o]
  constructor
  · exact fun h => h.1
  · intro h
    refine ⟨h, fun hno id => ?_⟩
    rw [handleConnectionWithin_files st o hno]

/-- A write request with the length -1 ends the process, however much memory there is. -/
theorem negative_length_terminates : ¬ ∀ alloc send st input o, Survives alloc send st input o := by
  intro h
  obtain ⟨⟨out, hout⟩, -⟩ :=
    h (fun _ => true) allSent { dataDir := bytes "d" } (kOpWriteBlock :: List.replicate 16 255) .written
  have hterminated : (handleConnectionWithin (fun _ => true) allSent { dataDir := bytes "d" }
      (kOpWriteBlock :: List.replicate 16 255) .written).2 = .terminated := by decide +kernel
  rw [hterminated] at hout
  cases hout

/-! ## What an acknowledgement says -/

/-- When the acknowledgement was sent, a read of the block returns the payload. -/
def AckTruthful (r : BlockStorage × Served) (id : Int64) (payload : Buffer) : Prop :=
  r.2 = .closed [1] → r.1.readBlock id = .ok payload

/-- The file operations leave the payload in the file of the block: all of it is written, or the file cannot be
opened and has held the same bytes before. -/
def FileOutcome.Leaves (o : FileOutcome) (st : BlockStorage) (id : Int64) (payload : Bytes) : Prop :=
  match o with
  | .openFails => st.held id = some payload
  | .short n => payload.length ≤ n
  | .written => True

theorem leaves_iff {o : FileOutcome} {st : BlockStorage} {id : Int64} {payload : Bytes} :
    o.Leaves st id payload ↔ (o.content payload).or (st.held id) = some payload := by
  cases o with
  | openFails => rfl
  | short n =>
    show payload.length ≤ n ↔ some (payload.take n) = some payload
    rw [Option.some.injEq]
    constructor
    · exact List.take_of_length_le
    · intro htake
      have hlen := congrArg List.length htake
      rw [List.length_take] at hlen
      omega
  | written => exact ⟨fun _ => rfl, fun _ => True.intro⟩

theorem readBlock_eq_ok_iff {st : BlockStorage} {id : Int64} {data : Buffer} :
    st.readBlock id = .ok data ↔ st.held id = some data.1 := by
  unfold BlockStorage.readBlock BlockStorage.held
  cases st.files.lookup (st.blockPath id) with
  | none => simp
  | some held =>
    simp only [Except.ok.injEq, Option.map_some, Option.some.injEq]
    exact ⟨congrArg Subtype.val, Subtype.ext⟩

/-- The acknowledgement of a write may be believed exactly when the connection broke off before it, or the file
operations left the payload in the file. -/
theorem ackTruthful_iff (st : BlockStorage) (id : Int64) (payload : Buffer) (n : Nat) (o : FileOutcome) :
    AckTruthful (handleConnection allSent st ((clientWrite id payload.1).take n) o) id payload ↔
      n < 17 + payload.1.length ∨ o.Leaves st id payload.1 := by
  rw [clientWrite_eq]
  by_cases hn : n < 17 + payload.1.length
  · rw [handleConnection_cut st id payload o (by rw [length_writeRequest]; exact hn)]
    exact ⟨fun _ => .inl hn, fun _ hack => by cases hack⟩
  · have hall : (writeRequest id payload.1).take n = writeRequest id payload.1 :=
      List.take_of_length_le (by rw [length_writeRequest]; omega)
    rw [hall, handleConnection_write, or_iff_right hn, leaves_iff]
    have hheld := BlockStorage.held_storeBlock st id payload o id
    rw [if_pos rfl] at hheld
    rw [← hheld, ← readBlock_eq_ok_iff]
    exact ⟨fun h => h rfl, fun h _ => h⟩

/-- A file that cannot be opened: the block is acknowledged and not there. -/
theorem ack_without_block : ¬ ∀ st id payload n o,
    AckTruthful (handleConnection allSent st ((clientWrite id payload.1).take n) o) id payload := by
  intro h
  have hread := h { dataDir := bytes "d" } 7 ⟨[1], by decide +kernel⟩ 18 .openFails (by decide +kernel)
  rw [readBlock_eq_ok_iff] at hread
  revert hread
  decide +kernel

end MiniHadoop.Ndfs

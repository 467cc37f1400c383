/-
The client (`ndfs/dfs_client.h`) down to its bytes: what it sends is what the server of the NameNode reads and
dispatches, what a handler has written is what the client decodes. Call by call this is the client of the model that
carries values, as long as the messages keep within their limits; so the histories of the two are the same.
-/
import Mathlib.Algebra.Order.BigOperators.Group.List
import MiniHadoop.Ipc.RoundTrip
import MiniHadoop.Ndfs.FileMap
import MiniHadoop.Ndfs.Malformed
import MiniHadoop.Ndfs.Operations
import MiniHadoop.Ndfs.Protocol

namespace MiniHadoop.Ndfs

open Text Wire Chunks Runs Reading InputBuffer OutputBuffer Ipc

/-! ## One call -/

namespace DfsClient

/-- A call of the server of the NameNode: the namesystem after it, and the response. -/
def exchange (env : NameNode.RequestEnv) (ns : FsNamesystem) (op : NdfsOp) (req : Bytes) : FsNamesystem × Option Bytes :=
  ((Ipc.exchange (NameNode.handlers fun _ => env) (ns, 0) ⟨op.methodId, req⟩).1.1,
    (Ipc.exchange (NameNode.handlers fun _ => env) (ns, 0) ⟨op.methodId, req⟩).2)

/-- `nn_client_.CallRaw(op, req, resp)` with the bytes of the request and of the response. -/
def callRaw (o : RpcOutcome) (env : NameNode.RequestEnv) (ns : FsNamesystem) (op : NdfsOp) (req : Bytes) :
    FsNamesystem × Except Status Bytes :=
  match o with
  | .sendFails => (ns, .error (.ioError (bytes "send failed")))
  | .recvFails handled => (if handled then (exchange env ns op req).1 else ns, .error (.ioError (bytes "recv failed")))
  | .answered =>
    match exchange env ns op req with
    | (ns, none) => (ns, .error (.ioError (bytes "recv failed")))
    | (ns, some response) => (ns, .ok response)

/-! ## The client -/

/-- What the handlers take from outside in a call that generates no block. -/
def anyEnv (now : Int64) : NameNode.RequestEnv := { id := 0, now, order := .insertion }

/-- `Mkdirs(path)`. -/
def mkdirs (c : Cluster) (now : Int64) (rpc : RpcOutcome) (path : Bytes) : Except Throw (Cluster × Status) :=
  match callRaw rpc (anyEnv now) c.ns .kMkdirs (pathRequest path) with
  | (ns, .error st) => .ok ({ c with ns }, st)
  | (ns, .ok response) => do
    let done ← Ipc.decode readDone response
    return ({ c with ns }, if done then .OK else .ioError (bytes "mkdirs failed: " ++ path))

/-- `Delete(path)`. -/
def delete (c : Cluster) (now : Int64) (rpc : RpcOutcome) (path : Bytes) : Except Throw (Cluster × Status) :=
  match callRaw rpc (anyEnv now) c.ns .kDelete (pathRequest path) with
  | (ns, .error st) => .ok ({ c with ns }, st)
  | (ns, .ok response) => do
    let done ← Ipc.decode readDone response
    return ({ c with ns }, if done then .OK else .ioError (bytes "delete failed: " ++ path))

/-- `List(path)`; a call that fails lists nothing. -/
def list (c : Cluster) (now : Int64) (rpc : RpcOutcome) (path : Bytes) : Except Throw (Cluster × List Bytes) :=
  match callRaw rpc (anyEnv now) c.ns .kGetListing (pathRequest path) with
  | (ns, .error _) => .ok ({ c with ns }, [])
  | (ns, .ok response) => do
    let result ← Ipc.decode readListing response
    return ({ c with ns }, result)

/-- The confirmation of one target; its result is not looked at. -/
def confirmBlock (now : Int64) (c : Cluster) (a : Allocation) (chunkSize : Nat) (dn : DataNodeInfo)
    (rpc : RpcOutcome) : Cluster :=
  { c with ns := (callRaw rpc (anyEnv now) c.ns .kBlockReceived (confirmRequest dn a.block chunkSize)).1 }

/-- The rest of a turn of the loop: the transfer, then a confirmation for every target. -/
def deliver (now : Int64) (c : Cluster) (a : Allocation) (chunk : Bytes) (e : ChunkEnv) : Cluster :=
  a.targets.foldl (fun c dn => confirmBlock now c a chunk.length dn (e.confirm dn)) (c.sendBlock a chunk e.xfer)

/-- The loop of `WriteFile`; `none` when the fuel runs out before the loop ends. -/
def writeLoop (now : Int64) (blockSize : Int64) (path : Bytes) (overwrite : Bool) (env : Nat → ChunkEnv) :
    Nat → Cluster → Nat → Bytes → Option (Except Throw (Cluster × Status))
  | 0, _, _, _ => none
  | fuel + 1, c, n, rest =>
    if rest.length = 0 then some (.ok (c, .OK))
    else
      let chunkSize := min blockSize.toUInt64.toNat rest.length
      let e := env n
      let (op, req) := allocationRequest (n = 0) path overwrite
      match callRaw e.rpc { id := e.id, now, order := e.order } c.ns op req with
      | (ns, .error st) => some (.ok ({ c with ns }, st))
      | (ns, .ok response) =>
        match Ipc.decode readAllocation response with
        | .error e => some (.error e)
        | .ok a =>
          writeLoop now blockSize path overwrite env fuel (deliver now { c with ns } a (rest.take chunkSize) e) (n + 1)
            (rest.drop chunkSize)

/-- `WriteFile(path, data, total_len, overwrite)`. -/
def writeFile (now : Int64) (c : Cluster) (blockSize : Int64) (path : Bytes) (data : Buffer) (overwrite : Bool)
    (env : Nat → ChunkEnv) : Option (Except Throw (Cluster × Status)) :=
  writeLoop now blockSize path overwrite env (data.1.length + 1) c 0 data.1

/-- The loop of `ReadFile` over the blocks that are still to be decoded, with the bytes read so far. -/
def readLoop (c : Cluster) (attempt : Nat → Nat → ReadOutcome) :
    Nat → Nat → Bytes → InputBuffer → Except Throw (Status × Bytes)
  | 0, _, data, _ => .ok (.OK, data)
  | count + 1, i, data, buffer => do
    let (block, buffer) ← readBlock buffer
    let (targets, buffer) ← readDataNodeInfoList buffer
    match c.tryLocations block.blockId (attempt i) 0 targets with
    | none => return (.ioError (bytes "cannot read block " ++ toStr block.blockId), data)
    | some d => readLoop c attempt count (i + 1) (data ++ d) buffer

/-- `ReadFile(path, data)`: the status, and what `data` holds afterwards. -/
def readFile (c : Cluster) (now : Int64) (rpc : RpcOutcome) (attempt : Nat → Nat → ReadOutcome) (path data : Bytes) :
    Except Throw (Status × Bytes) :=
  match callRaw rpc (anyEnv now) c.ns .kGetBlocks (pathRequest path) with
  | (_, .error st) => .ok (st, data)
  | (_, .ok response) =>
    match readVector response.length response with
    | none => .error .lengthError
    | some buffer => do
      let (blockCount, buffer) ← readInt (reset buffer)
      readLoop c attempt blockCount.toNatClampNeg 0 [] buffer

end DfsClient

/-! ## Requests -/

/-- A path with which every request is within the limit of the server. -/
def PathFits (path : Bytes) : Prop := path.length + 9 ≤ 64 * 1024 * 1024

theorem PathFits.sized {path : Bytes} (h : PathFits path) : Sized path := by
  unfold PathFits at h
  unfold Sized
  omega

theorem NdfsOp.find_methodId (op : NdfsOp) : NdfsOp.find op.methodId = some op := by
  cases op <;> rfl

section Calls

variable {env : NameNode.RequestEnv} {ns : FsNamesystem} {op : NdfsOp} {req : Bytes} {request : Request}

/-- A request that the handler decodes is served as one call of the namesystem. -/
theorem exchange_eq (env : NameNode.RequestEnv) (ns : FsNamesystem)
    (hread : Reads rest (NameNode.readRequest op) req request) (hlen : 4 + req.length ≤ 64 * 1024 * 1024)
    (hresponse : (NameNode.respond env ns request).2.length < 2 ^ 31) :
    DfsClient.exchange env ns op req =
      ((NameNode.respond env ns request).1, some (NameNode.respond env ns request).2) := by
  have hhandler : NameNode.handlers (fun _ => env) op.methodId = some fun s req =>
      (NameNode.handle env op s.1 req).bind fun r => .ok ((r.1, s.2 + 1), r.2) := by
    rw [NameNode.handlers, NdfsOp.find_methodId]
    rfl
  have hcall := @Ipc.exchange_eq _ (NameNode.handlers fun _ => env) (ns, 0) ((NameNode.respond env ns request).1, 1)
    ⟨op.methodId, req⟩ (NameNode.respond env ns request).2 _ hlen hhandler ?_ hresponse
  · unfold DfsClient.exchange
    rw [hcall]
  · obtain ⟨b, hb, -⟩ := hread (Ipc.Call.req ⟨op.methodId, req⟩ (Ipc.Call.message_lt hlen)) []
      (by rw [Ipc.Call.rest_req, List.append_nil])
    dsimp only [NameNode.handle]
    rw [hb]
    rfl

/-- A call on the wire is the call of the handler with what it decodes. -/
theorem callRaw_eq (o : RpcOutcome) (env : NameNode.RequestEnv) (ns : FsNamesystem)
    (hread : Reads rest (NameNode.readRequest op) req request) (hlen : 4 + req.length ≤ 64 * 1024 * 1024)
    (hresponse : (NameNode.respond env ns request).2.length < 2 ^ 31) :
    DfsClient.callRaw o env ns op req = Ndfs.callRaw o ns fun ns => NameNode.respond env ns request := by
  unfold DfsClient.callRaw
  rw [exchange_eq env ns hread hlen hresponse]
  cases o with
  | sendFails => rfl
  | recvFails handled => rfl
  | answered => rfl

theorem decode_eq {α : Type} {r : InputBuffer.Reader α} {response : Bytes} {value : α} (h : Decodes r response value)
    (hlen : response.length < 2 ^ 31) : Ipc.decode r response = .ok value := by
  obtain ⟨b, hb, -⟩ := h ⟨response, lt_maxSize (by omega)⟩ rfl
  have hvector := readVector_append ⟨response, lt_maxSize (by omega)⟩ []
  rw [List.append_nil] at hvector
  unfold Ipc.decode
  rw [hvector]
  simp only [hb]
  rfl

end Calls

/-! ## Responses -/

theorem length_writeDataNodeInfo (dn : DataNodeInfo) :
    (NameNode.writeDataNodeInfo dn).length = dn.name.length + dn.host.length + 36 := by
  simp only [NameNode.writeDataNodeInfo, List.length_append, length_writeString, length_writeInt, length_writeLong]
  omega

/-- What fits into a response is read back from it. -/
theorem sizedList_of_length {dns : List DataNodeInfo} (h : (NameNode.writeDataNodeInfoList dns).length < 2 ^ 31) :
    SizedList dns := by
  obtain ⟨hlen, hmem⟩ := @counted_size _ NameNode.writeDataNodeInfo dns fun dn _ => by
    rw [length_writeDataNodeInfo]
    omega
  rw [NameNode.writeDataNodeInfoList, List.length_append, length_writeInt] at h
  refine ⟨by omega, fun dn hdn => ?_⟩
  have hone := hmem dn hdn
  rw [length_writeDataNodeInfo] at hone
  unfold DataNodeInfo.Sized Sized
  omega

theorem sized_of_listing {list : List Bytes} (h : (NameNode.writeListing list).length < 2 ^ 31) :
    list.length < 2 ^ 31 ∧ ∀ name ∈ list, Sized name := by
  obtain ⟨hlen, hmem⟩ := @counted_size _ writeString list fun name _ => by
    rw [length_writeString]
    omega
  rw [NameNode.writeListing, List.length_append, length_writeInt] at h
  refine ⟨by omega, fun name hname => ?_⟩
  have hone := hmem name hname
  rw [length_writeString] at hone
  unfold Sized
  omega

/-! ## The calls -/

section Client

variable {path : Bytes}

theorem PathFits.request (h : PathFits path) : 4 + (DfsClient.pathRequest path).length ≤ 64 * 1024 * 1024 := by
  unfold PathFits at h
  rw [DfsClient.pathRequest, length_writeString]
  omega

/-- `Mkdirs` on the wire. -/
theorem mkdirs_eq (c : Cluster) (now : Int64) (rpc : RpcOutcome) (hp : PathFits path) :
    DfsClient.mkdirs c now rpc path = .ok (c.mkdirs rpc path) := by
  have hread : Reads rest (NameNode.readRequest .kMkdirs) (DfsClient.pathRequest path) (.mkdirs path) :=
    (reads_string hp.sized).last Request.mkdirs
  have hresponse : (NameNode.respond (DfsClient.anyEnv now) c.ns (.mkdirs path)).2.length < 2 ^ 31 := by
    rw [NameNode.respond, length_writeBool]
    decide
  have hcall := callRaw_eq rpc (DfsClient.anyEnv now) c.ns hread hp.request hresponse
  unfold DfsClient.mkdirs
  rw [hcall]
  cases rpc with
  | sendFails => rfl
  | recvFails handled => cases handled <;> rfl
  | answered =>
    have hdecode := decode_eq (results_agree.done (c.ns.mkdirs path).2) (by rw [length_writeBool]; decide)
    simp only [Ndfs.callRaw, RpcOutcome.delivered, NameNode.respond, hdecode, if_true]
    rfl

/-- `Delete` on the wire. -/
theorem delete_eq (c : Cluster) (now : Int64) (rpc : RpcOutcome) (hp : PathFits path) :
    DfsClient.delete c now rpc path = .ok (c.delete rpc path) := by
  have hread : Reads rest (NameNode.readRequest .kDelete) (DfsClient.pathRequest path) (.delete path) :=
    (reads_string hp.sized).last Request.delete
  have hresponse : (NameNode.respond (DfsClient.anyEnv now) c.ns (.delete path)).2.length < 2 ^ 31 := by
    rw [NameNode.respond, length_writeBool]
    decide
  have hcall := callRaw_eq rpc (DfsClient.anyEnv now) c.ns hread hp.request hresponse
  unfold DfsClient.delete
  rw [hcall]
  cases rpc with
  | sendFails => rfl
  | recvFails handled => cases handled <;> rfl
  | answered =>
    have hdecode := decode_eq (results_agree.done (c.ns.delete path).2) (by rw [length_writeBool]; decide)
    simp only [Ndfs.callRaw, RpcOutcome.delivered, NameNode.respond, hdecode, if_true]
    rfl

/-- `List` on the wire. -/
theorem list_eq (c : Cluster) (now : Int64) (rpc : RpcOutcome) (hp : PathFits path)
    (hresponse : (NameNode.writeListing (c.ns.getListing path)).length < 2 ^ 31) :
    DfsClient.list c now rpc path = .ok (c, if rpc = .answered then c.ns.getListing path else []) := by
  have hread : Reads rest (NameNode.readRequest .kGetListing) (DfsClient.pathRequest path) (.getListing path) :=
    (reads_string hp.sized).last Request.getListing
  have hcall := callRaw_eq rpc (DfsClient.anyEnv now) c.ns hread hp.request hresponse
  unfold DfsClient.list
  rw [hcall]
  cases rpc with
  | sendFails => rfl
  | recvFails handled => cases handled <;> rfl
  | answered =>
    obtain ⟨hlen, hnames⟩ := sized_of_listing hresponse
    have hdecode := decode_eq (results_agree.listing _ hlen hnames) hresponse
    simp only [Ndfs.callRaw, RpcOutcome.delivered, NameNode.respond, hdecode, if_true]
    rfl

/-- The loop that decodes the blocks as it goes reads what the loop over decoded blocks reads. -/
theorem readLoop_eq (c : Cluster) (attempt : Nat → Nat → ReadOutcome) :
    ∀ (blocks : List (Block × List DataNodeInfo)) (i : Nat) (data : Bytes) (buffer : InputBuffer),
      (∀ b ∈ blocks, SizedList b.2) →
      buffer.rest = blocks.flatMap (fun b => NameNode.writeBlock b.1 ++ NameNode.writeDataNodeInfoList b.2) →
      DfsClient.readLoop c attempt blocks.length i data buffer = .ok (c.readLoop attempt i data blocks)
  | [], _, _, _, _, _ => rfl
  | (block, targets) :: blocks, i, data, buffer, hsized, hrest => by
    rw [List.flatMap_cons, List.append_assoc] at hrest
    obtain ⟨b1, h1, hrest1⟩ := reads_clientBlock block buffer _ hrest
    obtain ⟨b2, h2, hrest2⟩ := reads_dataNodeInfoList (hsized (block, targets) (List.mem_cons_self ..)) b1 _ hrest1
    have ih := fun data => readLoop_eq c attempt blocks (i + 1) data b2
      (fun b hb => hsized b (List.mem_cons_of_mem _ hb)) hrest2
    rw [List.length_cons, DfsClient.readLoop, Cluster.readLoop, h1]
    show (do let x ← DfsClient.readDataNodeInfoList b1; _) = _
    rw [h2]
    show (match c.tryLocations block.blockId (attempt i) 0 targets with | none => _ | some d => _) = _
    cases c.tryLocations block.blockId (attempt i) 0 targets with
    | none => rfl
    | some d => exact ih (data ++ d)

/-- `ReadFile` on the wire. -/
theorem readFile_eq (c : Cluster) (now : Int64) (rpc : RpcOutcome) (attempt : Nat → Nat → ReadOutcome) (data : Bytes)
    (hp : PathFits path) (hresponse : (NameNode.writeGetBlocks (c.ns.getBlocks path)).length < 2 ^ 31) :
    DfsClient.readFile c now rpc attempt path data = .ok (c.readFile rpc attempt path data) := by
  have hread : Reads rest (NameNode.readRequest .kGetBlocks) (DfsClient.pathRequest path) (.getBlocks path) :=
    (reads_string hp.sized).last Request.getBlocks
  have hcall := callRaw_eq rpc (DfsClient.anyEnv now) c.ns hread hp.request hresponse
  unfold DfsClient.readFile
  rw [hcall]
  cases rpc with
  | sendFails => rfl
  | recvFails handled => cases handled <;> rfl
  | answered =>
    have hlt := lt_maxSize (n := (NameNode.writeGetBlocks (c.ns.getBlocks path)).length) (by omega)
    have hvector : readVector (NameNode.writeGetBlocks (c.ns.getBlocks path)).length
        (NameNode.writeGetBlocks (c.ns.getBlocks path)) = some ⟨_, hlt⟩ := by
      have := readVector_append ⟨NameNode.writeGetBlocks (c.ns.getBlocks path), hlt⟩ []
      rwa [List.append_nil] at this
    have hzip : ((c.ns.getBlocks path).blocks.zip (c.ns.getBlocks path).locations).length =
        (c.ns.getBlocks path).blocks.length := by
      rw [List.length_zip, getBlocks_length, Nat.min_self]
    -- what fits into the response is decoded from it
    obtain ⟨hlen, hmem⟩ := @counted_size (Block × List DataNodeInfo)
      (fun b => NameNode.writeBlock b.1 ++ NameNode.writeDataNodeInfoList b.2)
      ((c.ns.getBlocks path).blocks.zip (c.ns.getBlocks path).locations) fun b _ => by
        rw [List.length_append, NameNode.writeDataNodeInfoList, List.length_append, length_writeInt]
        omega
    have hsplit := hresponse
    rw [NameNode.writeGetBlocks, List.length_append, length_writeInt] at hsplit
    have hsized : ∀ b ∈ (c.ns.getBlocks path).blocks.zip (c.ns.getBlocks path).locations, SizedList b.2 := by
      intro b hb
      have hone := hmem b hb
      rw [List.length_append] at hone
      exact sizedList_of_length (by omega)
    obtain ⟨b1, h1, hrest1⟩ := reads_int (Int32.ofNat (c.ns.getBlocks path).blocks.length) (reset ⟨_, hlt⟩) _
      (rest_reset _)
    have hloop := readLoop_eq c attempt _ 0 [] b1 hsized hrest1
    rw [hzip] at hloop
    simp only [Ndfs.callRaw, RpcOutcome.delivered, NameNode.respond, hvector, h1, if_true, Cluster.readFile]
    show DfsClient.readLoop c attempt (Int32.ofNat _).toNatClampNeg 0 [] b1 = _
    rw [(int32_ofNat_size (show (c.ns.getBlocks path).blocks.length < 2 ^ 31 by omega)).2]
    exact hloop

/-! ## Writing -/

/-- The names and hosts of the DataNodes that the NameNode knows are within the limits. -/
def NamesFit (ns : FsNamesystem) : Prop :=
  ∀ name info, ns.datanodes.lookup name = some info →
    info.name.length + 40 ≤ 64 * 1024 * 1024 ∧ info.host.length ≤ 64 * 1024 * 1024

/-- The targets of an allocation are registered, and there are three of them at most. -/
theorem allocateBlock_targets (first : Bool) (id : Int64) (order : DataNodeOrder) (path : Bytes) (overwrite : Bool)
    (ns : FsNamesystem) :
    (allocateBlock first id order path overwrite ns).2.targets.length ≤ 3 ∧
      ∀ dn ∈ (allocateBlock first id order path overwrite ns).2.targets,
        ∃ name, ns.datanodes.lookup name = some dn := by
  have hnone : ([] : List DataNodeInfo).length ≤ 3 ∧ ∀ dn ∈ ([] : List DataNodeInfo),
      ∃ name, ns.datanodes.lookup name = some dn := ⟨by decide, fun dn hdn => by cases hdn⟩
  have hchosen : (ns.chooseTargets order kDefaultReplication).length ≤ 3 ∧
      ∀ dn ∈ ns.chooseTargets order kDefaultReplication, ∃ name, ns.datanodes.lookup name = some dn := by
    rw [FsNamesystem.chooseTargets_eq]
    refine ⟨List.length_take_le .., fun dn hdn => ?_⟩
    exact HashMap.Enumeration.mem_values.1 (List.mem_of_mem_take hdn)
  unfold allocateBlock
  cases first with
  | true =>
    simp only [if_true]
    rcases ns.locked_or_tries path overwrite with hlocked | ⟨hs, hf⟩
    · rw [FsNamesystem.startFile_locked hlocked]
      exact hnone
    · rw [FsNamesystem.startFile_eq id order hs hf]
      split
      · exact hnone
      · exact hchosen
  | false =>
    simp only [Bool.false_eq_true, if_false]
    by_cases hf : IsFile ns.tree (splitPath path)
    · rw [FsNamesystem.addBlock_file hf]
      exact hchosen
    · rw [FsNamesystem.addBlock_not_file hf]
      exact hnone

theorem allocateBlock_datanodes (first : Bool) (id : Int64) (order : DataNodeOrder) (path : Bytes) (overwrite : Bool)
    (ns : FsNamesystem) : (allocateBlock first id order path overwrite ns).1.datanodes = ns.datanodes := by
  unfold allocateBlock
  split
  · exact (FsNamesystem.startFile_tables id order path overwrite).1
  · exact (FsNamesystem.addBlock_tables id order path).1

/-- An allocation is a short message. -/
theorem length_writeAllocation {a : Allocation} (hlen : a.targets.length ≤ 3)
    (h : ∀ dn ∈ a.targets, dn.name.length ≤ 64 * 1024 * 1024 ∧ dn.host.length ≤ 64 * 1024 * 1024) :
    (NameNode.writeAllocation a).length < 2 ^ 31 := by
  have hsum : (a.targets.flatMap NameNode.writeDataNodeInfo).length ≤ a.targets.length * (128 * 1024 * 1024 + 36) := by
    have hbound := List.sum_le_card_nsmul (a.targets.map fun dn => (NameNode.writeDataNodeInfo dn).length)
      (128 * 1024 * 1024 + 36) fun n hn => by
        obtain ⟨dn, hdn, rfl⟩ := List.mem_map.1 hn
        have := h dn hdn
        rw [length_writeDataNodeInfo]
        omega
    rw [List.length_flatMap]
    rwa [List.length_map, nsmul_eq_mul, Nat.cast_id] at hbound
  rw [NameNode.writeAllocation, NameNode.writeBlock, NameNode.writeDataNodeInfoList]
  simp only [List.length_append, length_writeInt, length_writeLong]
  omega

/-- The confirmation of a target. -/
theorem confirmBlock_eq (now : Int64) (c : Cluster) (a : Allocation) (chunkSize : Nat) {dn : DataNodeInfo}
    (rpc : RpcOutcome) (h : dn.name.length + 40 ≤ 64 * 1024 * 1024) :
    DfsClient.confirmBlock now c a chunkSize dn rpc = c.confirmBlock a chunkSize dn rpc := by
  have hname : Sized dn.name := by
    unfold Sized
    omega
  have hmessage : DfsClient.confirmRequest dn a.block chunkSize = writeString dn.name ++
      (NameNode.writeBlock { a.block with numBytes := Int64.ofNat chunkSize } ++ writeString []) := by
    simp only [DfsClient.confirmRequest, NameNode.writeBlock, List.append_assoc]
  have hread : Reads rest (NameNode.readRequest .kBlockReceived) (DfsClient.confirmRequest dn a.block chunkSize)
      (.blockReceived dn.name { a.block with numBytes := Int64.ofNat chunkSize } []) := by
    have hhint : Reads rest readString (writeString []) [] := reads_string (by decide)
    rw [hmessage]
    exact (reads_string hname).bind ((reads_block _).bind (hhint.last (Request.blockReceived dn.name _)))
  have hlen : 4 + (DfsClient.confirmRequest dn a.block chunkSize).length ≤ 64 * 1024 * 1024 := by
    rw [hmessage]
    simp only [NameNode.writeBlock, List.length_append, length_writeString, length_writeLong, List.length_nil]
    omega
  have hcall := callRaw_eq rpc (DfsClient.anyEnv now) c.ns hread hlen
    (show (writeInt 1).length < _ by rw [length_writeInt]; decide)
  unfold DfsClient.confirmBlock Cluster.confirmBlock
  rw [hcall]
  rfl

theorem confirmBlock_datanodes (c : Cluster) (a : Allocation) (chunkSize : Nat) (dn : DataNodeInfo)
    (rpc : RpcOutcome) : (c.confirmBlock a chunkSize dn rpc).ns.datanodes = c.ns.datanodes := by
  unfold Cluster.confirmBlock Ndfs.callRaw
  cases rpc.delivered
  · rfl
  · exact FsNamesystem.blockReceived_datanodes c.ns dn.name _ []

/-- The rest of a turn on the wire. -/
theorem deliver_eq (now : Int64) (c : Cluster) (a : Allocation) (chunk : Bytes) (e : ChunkEnv)
    (h : ∀ dn ∈ a.targets, dn.name.length + 40 ≤ 64 * 1024 * 1024) :
    DfsClient.deliver now c a chunk e = c.deliver a chunk e := by
  unfold DfsClient.deliver Cluster.deliver
  refine List.foldl_ext _ _ _ fun c dn hdn => ?_
  exact confirmBlock_eq now c a chunk.length (e.confirm dn) (h dn hdn)

theorem deliver_datanodes (c : Cluster) (a : Allocation) (chunk : Bytes) (e : ChunkEnv) :
    (c.deliver a chunk e).ns.datanodes = c.ns.datanodes := by
  unfold Cluster.deliver
  rw [← show (c.sendBlock a chunk e.xfer).ns = c.ns from sendBlock_ns ..]
  generalize c.sendBlock a chunk e.xfer = c'
  induction a.targets generalizing c' with
  | nil => rfl
  | cons dn targets ih => rw [List.foldl_cons, ih, confirmBlock_datanodes]

/-- The request for a block, as the NameNode reads it. -/
theorem allocation_eq (rpc : RpcOutcome) (env : NameNode.RequestEnv) (ns : FsNamesystem) (first : Bool)
    (overwrite : Bool) (hp : PathFits path)
    (hresponse : (NameNode.writeAllocation
      (allocateBlock first env.id env.order path overwrite ns).2).length < 2 ^ 31) :
    DfsClient.callRaw rpc env ns (DfsClient.allocationRequest first path overwrite).1
        (DfsClient.allocationRequest first path overwrite).2 =
      Ndfs.callRaw rpc ns fun ns => ((allocateBlock first env.id env.order path overwrite ns).1,
        NameNode.writeAllocation (allocateBlock first env.id env.order path overwrite ns).2) := by
  cases first with
  | true =>
    have hread : Reads rest (NameNode.readRequest .kStartFile) (writeString path ++ writeBool overwrite)
        (.startFile path overwrite) :=
      (reads_string hp.sized).bind ((reads_bool overwrite).last (Request.startFile path))
    have hlen : 4 + (writeString path ++ writeBool overwrite).length ≤ 64 * 1024 * 1024 := by
      unfold PathFits at hp
      rw [List.length_append, length_writeString, length_writeBool]
      omega
    exact callRaw_eq rpc env ns hread hlen hresponse
  | false =>
    have hread : Reads rest (NameNode.readRequest .kAddBlock) (writeString path) (.addBlock path) :=
      (reads_string hp.sized).last Request.addBlock
    exact callRaw_eq rpc env ns hread hp.request hresponse

/-- The loop of `WriteFile` on the wire. -/
theorem writeLoop_eq {now blockSize : Int64} {overwrite : Bool} {env : Nat → ChunkEnv} (hp : PathFits path) :
    ∀ (fuel : Nat) (c : Cluster) (n : Nat) (rest : Bytes), NamesFit c.ns →
      DfsClient.writeLoop now blockSize path overwrite env fuel c n rest =
        (c.writeLoop blockSize path overwrite env fuel n rest).map .ok
  | 0, _, _, _, _ => rfl
  | fuel + 1, c, n, rest, hnames => by
    obtain ⟨hcount, hregistered⟩ := allocateBlock_targets (n = 0) (env n).id (env n).order path overwrite c.ns
    have hdatanodes := allocateBlock_datanodes (n = 0) (env n).id (env n).order path overwrite c.ns
    have htargets : ∀ dn ∈ (allocateBlock (n = 0) (env n).id (env n).order path overwrite c.ns).2.targets,
        dn.name.length + 40 ≤ 64 * 1024 * 1024 ∧ dn.host.length ≤ 64 * 1024 * 1024 := by
      intro dn hdn
      obtain ⟨name, hl⟩ := hregistered dn hdn
      exact hnames name dn hl
    have hresponse : (NameNode.writeAllocation
        (allocateBlock (n = 0) (env n).id (env n).order path overwrite c.ns).2).length < 2 ^ 31 :=
      length_writeAllocation hcount fun dn hdn => ⟨by have := (htargets dn hdn).1; omega, (htargets dn hdn).2⟩
    have hcall := allocation_eq (env n).rpc { id := (env n).id, now, order := (env n).order } c.ns (n = 0) overwrite hp
      hresponse
    unfold DfsClient.writeLoop Cluster.writeLoop
    by_cases hrest : rest.length = 0
    · rw [if_pos hrest, if_pos hrest]
      rfl
    rw [if_neg hrest, if_neg hrest]
    simp only [hcall]
    cases hrpc : (env n).rpc with
    | sendFails => rfl
    | recvFails handled => rfl
    | answered =>
      have hsized : SizedList (allocateBlock (n = 0) (env n).id (env n).order path overwrite c.ns).2.targets := by
        rw [NameNode.writeAllocation, List.length_append] at hresponse
        exact sizedList_of_length (by omega)
      have hdecode := decode_eq (results_agree.allocation _ hsized) hresponse
      simp only [Ndfs.callRaw, RpcOutcome.delivered, if_true, hdecode]
      rw [deliver_eq now _ _ _ (env n) fun dn hdn => (htargets dn hdn).1]
      refine writeLoop_eq hp fuel _ (n + 1) _ fun name info hl => ?_
      rw [deliver_datanodes] at hl
      exact hnames name info (by rw [← hdatanodes]; exact hl)

/-- `WriteFile` on the wire. -/
theorem writeFile_eq {c : Cluster} (now blockSize : Int64) (data : Buffer) (overwrite : Bool) (env : Nat → ChunkEnv)
    (hp : PathFits path) (hnames : NamesFit c.ns) :
    DfsClient.writeFile now c blockSize path data overwrite env =
      (c.writeFile blockSize path data overwrite env).map .ok :=
  writeLoop_eq hp _ c 0 data.1 hnames

theorem writeLoop_datanodes {blockSize : Int64} {overwrite : Bool} {env : Nat → ChunkEnv} :
    ∀ (fuel : Nat) (c : Cluster) (n : Nat) (rest : Bytes) {c' : Cluster} {st : Status},
      c.writeLoop blockSize path overwrite env fuel n rest = some (c', st) → c'.ns.datanodes = c.ns.datanodes
  | 0, _, _, _, _, _, h => by cases h
  | fuel + 1, c, n, rest, c', st, h => by
    have hdatanodes := allocateBlock_datanodes (n = 0) (env n).id (env n).order path overwrite c.ns
    unfold Cluster.writeLoop at h
    by_cases hrest : rest.length = 0
    · rw [if_pos hrest] at h
      cases h
      rfl
    rw [if_neg hrest] at h
    cases hrpc : (env n).rpc with
    | sendFails =>
      simp only [hrpc, Ndfs.callRaw] at h
      cases h
      rfl
    | recvFails handled =>
      simp only [hrpc, Ndfs.callRaw] at h
      cases h
      cases handled
      · rfl
      · exact hdatanodes
    | answered =>
      simp only [hrpc, Ndfs.callRaw] at h
      rw [writeLoop_datanodes fuel _ (n + 1) _ h, deliver_datanodes]
      exact hdatanodes

end Client

/-! ## Histories -/

/-- A call of the client with all that it meets. -/
inductive WireCall where
  | write (path : Bytes) (data : Buffer) (overwrite : Bool) (env : Nat → ChunkEnv)
  | mkdirs (rpc : RpcOutcome) (path : Bytes)
  | delete (rpc : RpcOutcome) (path : Bytes)

def WireCall.path : WireCall → Bytes
  | .write path _ _ _ => path
  | .mkdirs _ path => path
  | .delete _ path => path

/-- The call of the client that sends bytes. -/
def DfsClient.call (now blockSize : Int64) (c : Cluster) : WireCall → Option (Except Throw (Cluster × Status))
  | .write path data overwrite env => DfsClient.writeFile now c blockSize path data overwrite env
  | .mkdirs rpc path => some (DfsClient.mkdirs c now rpc path)
  | .delete rpc path => some (DfsClient.delete c now rpc path)

/-- The call of the client that sends values. -/
def Cluster.wireCall (blockSize : Int64) (c : Cluster) : WireCall → Option (Cluster × Status)
  | .write path data overwrite env => c.writeFile blockSize path data overwrite env
  | .mkdirs rpc path => some (c.mkdirs rpc path)
  | .delete rpc path => some (c.delete rpc path)

/-- A call whose path fits ends, or throws, on the wire. -/
def WireStep (now blockSize : Int64) (c : Cluster) (k : WireCall) (c' : Cluster) : Prop :=
  PathFits k.path ∧ ∃ st, DfsClient.call now blockSize c k = some (.ok (c', st))

/-- A call whose path fits ends. -/
def ValueStep (blockSize : Int64) (c : Cluster) (k : WireCall) (c' : Cluster) : Prop :=
  PathFits k.path ∧ ∃ st, c.wireCall blockSize k = some (c', st)

section Histories

variable {now blockSize : Int64} {c c' : Cluster}

/-- One call on the wire is one call with values; it throws nothing. -/
theorem call_eq (now blockSize : Int64) {k : WireCall} (hp : PathFits k.path) (hnames : NamesFit c.ns) :
    DfsClient.call now blockSize c k = (c.wireCall blockSize k).map .ok := by
  cases k with
  | write path data overwrite env => exact writeFile_eq now blockSize data overwrite env hp hnames
  | mkdirs rpc path => exact congrArg some (mkdirs_eq c now rpc hp)
  | delete rpc path => exact congrArg some (delete_eq c now rpc hp)

/-- No call of the client makes a DataNode known or forgotten. -/
theorem wireCall_datanodes {k : WireCall} {st : Status} (h : c.wireCall blockSize k = some (c', st)) :
    c'.ns.datanodes = c.ns.datanodes := by
  cases k with
  | write path data overwrite env => exact writeLoop_datanodes _ _ _ _ h
  | mkdirs rpc path =>
    obtain rfl : (c.mkdirs rpc path).1 = c' := congrArg Prod.fst (Option.some.inj h)
    cases rpc with
    | sendFails => rfl
    | recvFails handled => cases handled <;> rfl
    | answered => rfl
  | delete rpc path =>
    obtain rfl : (c.delete rpc path).1 = c' := congrArg Prod.fst (Option.some.inj h)
    cases rpc with
    | sendFails => rfl
    | recvFails handled =>
      cases handled
      · rfl
      · exact FsNamesystem.delete_datanodes path
    | answered => exact FsNamesystem.delete_datanodes path

theorem namesFit_local : NamesFit (freshCluster [localNode 9000]).ns := by
  intro name info hl
  have hentry := AList.mem_lookup_iff.1 hl
  have hentries : (freshCluster [localNode 9000]).ns.datanodes.entries =
      [⟨(localNode 9000).name, localNode 9000⟩] := rfl
  rw [hentries, List.mem_singleton] at hentry
  cases hentry
  exact ⟨by decide, by decide⟩

theorem NamesFit.of_datanodes {ns ns' : FsNamesystem} (h : NamesFit ns) (heq : ns'.datanodes = ns.datanodes) :
    NamesFit ns' := by
  unfold NamesFit
  rw [heq]
  exact h

theorem wireStep_iff {k : WireCall} (hnames : NamesFit c.ns) :
    WireStep now blockSize c k c' ↔ ValueStep blockSize c k c' := by
  refine and_congr_right fun hp => exists_congr fun st => ?_
  rw [call_eq now blockSize hp hnames]
  cases c.wireCall blockSize k with
  | none => exact ⟨fun h => (by cases h), fun h => (by cases h)⟩
  | some r => exact ⟨fun h => (by cases h; rfl), fun h => (by cases h; rfl)⟩

theorem NamesFit.run {calls : List WireCall} (hnames : NamesFit c.ns) (h : Run (ValueStep blockSize) c calls c') :
    NamesFit c'.ns :=
  @Run.invariant _ _ _ (fun _ c => NamesFit c.ns) _ _ _ h hnames fun _ _ _ _ hinv hstep => by
    obtain ⟨-, st, hcall⟩ := hstep
    exact hinv.of_datanodes (wireCall_datanodes hcall)

/-- The bytes change nothing: whatever the calls meet (no connection, answers that break off after the request was
or was not handled, transfers cut short), the histories of the client that sends bytes are those of the client that
sends values, and no call throws on a response. -/
theorem wire_run_iff {calls : List WireCall} (hnames : NamesFit c.ns) :
    Run (WireStep now blockSize) c calls c' ↔ Run (ValueStep blockSize) c calls c' := by
  constructor
  · intro h
    induction h with
    | nil => exact .nil
    | snoc _ hstep ih => exact ih.snoc ((wireStep_iff (hnames.run ih)).1 hstep)
  · intro h
    induction h with
    | nil => exact .nil
    | snoc hrun hstep ih => exact ih.snoc ((wireStep_iff (hnames.run hrun)).2 hstep)

/-- A `Mkdirs` whose answer is lost, and a `Delete` of what it has made. -/
theorem wire_run_lostAnswer : ∃ c, Run (WireStep 0 2) (freshCluster [localNode 9000])
    [.mkdirs (.recvFails true) (bytes "/d"), .delete .answered (bytes "/d")] c := by
  have hfits : PathFits (bytes "/d") := (by decide : (bytes "/d").length + 9 ≤ 64 * 1024 * 1024)
  have hmkdirs : ValueStep 2 (freshCluster [localNode 9000]) (.mkdirs (.recvFails true) (bytes "/d")) _ :=
    ⟨hfits, _, rfl⟩
  exact ⟨_, (wire_run_iff namesFit_local).2 (Run.snoc (Run.snoc .nil hmkdirs) ⟨hfits, _, rfl⟩)⟩

end Histories

/-! ## The map of files, down to the bytes -/

/-- A call of a healthy history, as the client makes it. -/
def Call.onWire : Call → WireCall
  | .write path data env => .write path data true env
  | .mkdirs path => .mkdirs .answered path
  | .delete path => .delete .answered path

theorem wireCall_onWire (blockSize : Int64) (c : Cluster) (k : Call) :
    c.wireCall blockSize k.onWire = c.call blockSize k := by
  cases k <;> rfl

/-- A healthy call that ends on the wire. -/
def HealthyWireStep (now blockSize : Int64) (c : Cluster) (k : Call) (c' : Cluster) : Prop :=
  HealthyCall blockSize c k ∧ WireStep now blockSize c k.onWire c'

section FileMap

variable {now blockSize : Int64} {c₀ c : Cluster} {calls : List Call}

/-- A healthy history on the wire is one of the map. -/
theorem Holds.wire_run (hb : 0 < blockSize) (h₀ : c₀.Empty) (hnames : NamesFit c₀.ns)
    (h : Run (HealthyWireStep now blockSize) c₀ calls c) :
    Holds c (FileMap.after calls) ∧ NamesFit c.ns := by
  have hboth := @Run.simulation _ _ _ _ (fun c m => Holds c m ∧ NamesFit c.ns) FileMap.call ?_ _ _ _ _ h
    ⟨h₀.holds, hnames⟩
  · exact hboth
  rintro c k c' m ⟨hholds, hfit⟩ ⟨hhealthy, hstep⟩
  obtain ⟨hp, st, hcall⟩ := (wireStep_iff hfit).1 hstep
  refine ⟨hholds.call hb c k c' m ⟨hhealthy, st, ?_⟩, hfit.of_datanodes (wireCall_datanodes hcall)⟩
  rw [← wireCall_onWire]
  exact hcall

/-- A file of the map reads on the wire as its data. -/
theorem Holds.readFile_wire {m : FileMap} {path d : Bytes} (h : Holds c m) (now : Int64)
    (hd : m (splitPath path) = some d) (hp : PathFits path)
    (hresponse : (NameNode.writeGetBlocks (c.ns.getBlocks path)).length < 2 ^ 31) :
    DfsClient.readFile c now .answered (fun _ _ => .complete) path [] = .ok (.OK, d) := by
  obtain ⟨bl, hbl⟩ := h.files (splitPath path) (by rw [hd]; rfl)
  obtain ⟨d', hd', hcontent⟩ := h.data _ bl hbl
  rw [hd] at hd'
  cases hd'
  rw [readFile_eq c now .answered _ [] hp hresponse]
  exact congrArg Except.ok ((read_file hbl d).2 hcontent)

/-- After every healthy history on the wire the next healthy call ends without an exception, the files are those of
the map, and each reads on the wire as its data. -/
theorem wire_refines_fileMap (hb : 0 < blockSize) (h₀ : c₀.Empty) (hnames : NamesFit c₀.ns)
    (h : Run (HealthyWireStep now blockSize) c₀ calls c) :
    (∀ k, HealthyCall blockSize c k → PathFits k.onWire.path →
      ∃ c' st, DfsClient.call now blockSize c k.onWire = some (.ok (c', st))) ∧
    (∀ path, IsFile c.ns.tree (splitPath path) ↔ (FileMap.after calls (splitPath path)).isSome) ∧
    ∀ path d, FileMap.after calls (splitPath path) = some d → PathFits path →
      (NameNode.writeGetBlocks (c.ns.getBlocks path)).length < 2 ^ 31 →
        DfsClient.readFile c now .answered (fun _ _ => .complete) path [] = .ok (.OK, d) := by
  obtain ⟨hholds, hfit⟩ := Holds.wire_run hb h₀ hnames h
  refine ⟨fun k hk hp => ?_, fun path => ⟨?_, hholds.files _⟩, fun path d hd hp hresponse => ?_⟩
  · rw [call_eq now blockSize hp hfit, wireCall_onWire]
    cases k with
    | write path data env =>
      obtain ⟨c', hrun, -⟩ := hholds.write hb hk
      exact ⟨c', .OK, congrArg (Option.map Except.ok) hrun⟩
    | mkdirs path => exact ⟨_, _, rfl⟩
    | delete path => exact ⟨_, _, rfl⟩
  · rintro ⟨bl, hbl⟩
    obtain ⟨d, hd, -⟩ := hholds.data _ bl hbl
    rw [hd]
    rfl
  · exact hholds.readFile_wire now hd hp hresponse

end FileMap

theorem pathFits_df : PathFits (bytes "/d/f") := (by decide : (bytes "/d/f").length + 9 ≤ 64 * 1024 * 1024)

/-- A history of one write. -/
theorem put_threeBytes : ∃ c, Run (HealthyWireStep 0 2) (freshCluster [localNode 9000])
    [.write (bytes "/d/f") threeBytes healthyTurn] c ∧
      (NameNode.writeGetBlocks (c.ns.getBlocks (bytes "/d/f"))).length < 2 ^ 31 := by
  have h₀ := freshCluster_empty (localNode 9000)
  have hproper : ProperPath (bytes "/d/f") :=
    @properPath_joinPath [bytes "d", bytes "f"] (by decide) (by simp only [Component]; decide)
  have hw : HealthyWrite 2 (freshCluster [localNode 9000]) (bytes "/d/f") threeBytes healthyTurn :=
    ⟨h₀.admissible hproper, by decide, fun i _ => healthyTurn_healthy i, freshIds_two _ (by decide)⟩
  obtain ⟨c, hwrite, -⟩ := h₀.holds.write (by decide) hw
  have hwire : WireStep 0 2 (freshCluster [localNode 9000]) (.write (bytes "/d/f") threeBytes true healthyTurn) c :=
    (wireStep_iff namesFit_local).2 ⟨pathFits_df, .OK, hwrite⟩
  have hresponse : ((freshCluster [localNode 9000]).writeFile 2 (bytes "/d/f") threeBytes true healthyTurn).map
      (fun r => (NameNode.writeGetBlocks (r.1.ns.getBlocks (bytes "/d/f"))).length) = some 178 := by decide +kernel
  rw [hwrite] at hresponse
  have hsize : (NameNode.writeGetBlocks (c.ns.getBlocks (bytes "/d/f"))).length = 178 := Option.some.inj hresponse
  exact ⟨c, Run.snoc .nil ⟨hw, hwire⟩, by rw [hsize]; decide⟩

theorem wire_history_threeBytes :
    ∃ c calls, Run (HealthyWireStep 0 2) (freshCluster [localNode 9000]) calls c ∧
      FileMap.after calls [bytes "d", bytes "f"] = some [1, 2, 3] ∧
      DfsClient.readFile c 0 .answered (fun _ _ => .complete) (bytes "/d/f") [] = .ok (.OK, [1, 2, 3]) := by
  obtain ⟨c, hrun, hresponse⟩ := put_threeBytes
  have hafter : FileMap.after [.write (bytes "/d/f") threeBytes healthyTurn] [bytes "d", bytes "f"] =
      some [1, 2, 3] := rfl
  exact ⟨c, _, hrun, hafter, (wire_refines_fileMap (by decide) (freshCluster_empty (localNode 9000)) namesFit_local
    hrun).2.2 (bytes "/d/f") _ hafter pathFits_df hresponse⟩

end MiniHadoop.Ndfs

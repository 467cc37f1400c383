/-
The client (`ndfs/dfs_client.h`) against a cluster of one NameNode and the DataNodes' block stores.
Every call that can fail comes with its outcome: an RPC to the NameNode, a connection to a DataNode,
a read of a block. What the RPC layer carries is a value; its byte encoding is not part of this model.
-/
import MiniHadoop.Ndfs.Namespace
import MiniHadoop.Ndfs.DataXceive

namespace MiniHadoop.Ndfs

open Text Wire

/-! ## The cluster -/

/-- Where the client connects to: a host and a port, of which the low 16 bits count. -/
abbrev Address := Bytes × UInt16

def DataNodeInfo.address (dn : DataNodeInfo) : Address := (dn.host, dn.port.toUInt32.toUInt16)

/-- The NameNode's state and the block store behind every address. -/
structure Cluster where
  ns : FsNamesystem
  stores : Address → BlockStorage

/-- A connection to the server at an address that carries `input` there. The client waits for the answer. -/
def Cluster.connect (c : Cluster) (address : Address) (input : Bytes) (file : FileOutcome) : Cluster :=
  { c with stores := Function.update c.stores address (handleConnection allSent (c.stores address) input file).1 }

/-! ## RPC -/

/-- How a `CallRaw` to the NameNode ends: answered, not sent, or broken off after the request, which the
NameNode may have handled. -/
inductive RpcOutcome where
  | answered
  | sendFails
  | recvFails (handled : Bool)
  deriving DecidableEq, Repr

/-- The NameNode handles the request. -/
def RpcOutcome.delivered : RpcOutcome → Bool
  | .answered => true
  | .sendFails => false
  | .recvFails handled => handled

/-- `nn_client_.CallRaw(op, req, resp)` for the handler of `op`. -/
def callRaw {β : Type} (o : RpcOutcome) (ns : FsNamesystem) (handler : FsNamesystem → FsNamesystem × β) :
    FsNamesystem × Except Status β :=
  (if o.delivered then (handler ns).1 else ns,
    match o with
    | .answered => .ok (handler ns).2
    | .sendFails => .error (.ioError (bytes "send failed"))
    | .recvFails _ => .error (.ioError (bytes "recv failed")))

/-! ## Mkdirs and Delete -/

/-- `Mkdirs(path)`. -/
def Cluster.mkdirs (c : Cluster) (rpc : RpcOutcome) (path : Bytes) : Cluster × Status :=
  match callRaw rpc c.ns (·.mkdirs path) with
  | (ns, .error st) => ({ c with ns }, st)
  | (ns, .ok done) => ({ c with ns }, if done then .OK else .ioError (bytes "mkdirs failed: " ++ path))

/-- `Delete(path)`. -/
def Cluster.delete (c : Cluster) (rpc : RpcOutcome) (path : Bytes) : Cluster × Status :=
  match callRaw rpc c.ns (·.delete path) with
  | (ns, .error st) => ({ c with ns }, st)
  | (ns, .ok done) => ({ c with ns }, if done then .OK else .ioError (bytes "delete failed: " ++ path))

/-! ## WriteFile -/

/-- How the transfer of a block goes: no connection, a connection that breaks off after some bytes of the
request, or one that carries all of it. The ack is read and not looked at. -/
inductive XferOutcome where
  | refused
  | cut (n : Nat) (file : FileOutcome)
  | complete (file : FileOutcome)
  deriving DecidableEq, Repr

/-- What one turn of the loop of `WriteFile` meets: the outcome of the allocation call, the block id
generated in it, the order the NameNode walks its DataNodes in, the transfer, and the confirmations. -/
structure ChunkEnv where
  rpc : RpcOutcome
  id : Int64
  order : DataNodeOrder
  xfer : XferOutcome
  confirm : DataNodeInfo → RpcOutcome

/-- The allocation call: `StartFile` for the first block, `AddBlock` for the others. -/
def allocateBlock (first : Bool) (id : Int64) (order : DataNodeOrder) (path : Bytes) (overwrite : Bool)
    (ns : FsNamesystem) : FsNamesystem × Allocation :=
  if first then ns.startFile id order path overwrite else ns.addBlock id order path

/-- The transfer to the first target. -/
def Cluster.sendBlock (c : Cluster) (a : Allocation) (chunk : Bytes) (xfer : XferOutcome) : Cluster :=
  match a.targets with
  | [] => c
  | dn :: _ =>
    let request := writeRequest a.block.blockId chunk
    match xfer with
    | .refused => c
    | .cut n file => c.connect dn.address (request.take n) file
    | .complete file => c.connect dn.address request file

/-- The confirmation of one target; its result is not looked at. -/
def Cluster.confirmBlock (c : Cluster) (a : Allocation) (chunkSize : Nat) (dn : DataNodeInfo) (rpc : RpcOutcome) :
    Cluster :=
  let block : Block := { a.block with numBytes := Int64.ofNat chunkSize }
  { c with ns := (callRaw rpc c.ns fun ns => (ns.blockReceived dn.name block [], ())).1 }

/-- The rest of a turn of the loop: the transfer, then a confirmation for every target. -/
def Cluster.deliver (c : Cluster) (a : Allocation) (chunk : Bytes) (e : ChunkEnv) : Cluster :=
  a.targets.foldl (fun c dn => c.confirmBlock a chunk.length dn (e.confirm dn)) (c.sendBlock a chunk e.xfer)

/-- The loop of `WriteFile` over the bytes `rest` at the current offset; `n` blocks have been written.
`none` when the fuel runs out before the loop ends. -/
def Cluster.writeLoop (blockSize : Int64) (path : Bytes) (overwrite : Bool) (env : Nat → ChunkEnv) :
    Nat → Cluster → Nat → Bytes → Option (Cluster × Status)
  | 0, _, _, _ => none
  | fuel + 1, c, n, rest =>
    if rest.length = 0 then some (c, .OK)
    else
      let chunkSize := min blockSize.toUInt64.toNat rest.length
      let e := env n
      match callRaw e.rpc c.ns (allocateBlock (n = 0) e.id e.order path overwrite) with
      | (ns, .error st) => some ({ c with ns }, st)
      | (ns, .ok a) =>
        writeLoop blockSize path overwrite env fuel (Cluster.deliver { c with ns } a (rest.take chunkSize) e) (n + 1)
          (rest.drop chunkSize)

/-- `WriteFile(path, data, total_len, overwrite)`. A turn of the loop that makes progress takes at least one
byte, so when this fuel runs out the loop does not end. -/
def Cluster.writeFile (c : Cluster) (blockSize : Int64) (path : Bytes) (data : Buffer) (overwrite : Bool)
    (env : Nat → ChunkEnv) : Option (Cluster × Status) :=
  c.writeLoop blockSize path overwrite env (data.1.length + 1) 0 data.1

/-! ## ReadFile -/

/-- How an attempt to read a block goes: no connection, an answer that breaks off after some bytes, or a
complete answer. -/
inductive ReadOutcome where
  | refused
  | cut (n : Nat)
  | complete
  deriving DecidableEq, Repr

/-- What the client makes of the answer to a read request: the length, then as many bytes. -/
def receiveBlock (answer : Bytes) : Option Bytes :=
  match readFull 8 answer with
  | none => none
  | some (dataLen, rest) => (readFull (beValue dataLen) rest).map (·.1)

/-- One attempt to read a block from a location; `none` where the loop goes on with the next one. An answer is cut where
the client gets no more of it, and not because the server stops sending. -/
def Cluster.fetchBlock (c : Cluster) (blockId : Int64) (dn : DataNodeInfo) (o : ReadOutcome) : Option Bytes :=
  match (handleConnection allSent (c.stores dn.address) (readRequest blockId) .written).2 with
  | .terminated => none
  | .killed => none
  | .closed answer =>
    match o with
    | .refused => none
    | .cut n => receiveBlock (answer.take n)
    | .complete => receiveBlock answer

/-- The loop over the locations of a block; `attempt j` is the outcome at the `j`-th of them. -/
def Cluster.tryLocations (c : Cluster) (blockId : Int64) (attempt : Nat → ReadOutcome) :
    Nat → List DataNodeInfo → Option Bytes
  | _, [] => none
  | j, dn :: rest =>
    match c.fetchBlock blockId dn (attempt j) with
    | some data => some data
    | none => c.tryLocations blockId attempt (j + 1) rest

/-- The loop of `ReadFile` over the blocks, with the bytes read so far. -/
def Cluster.readLoop (c : Cluster) (attempt : Nat → Nat → ReadOutcome) :
    Nat → Bytes → List (Block × List DataNodeInfo) → Status × Bytes
  | _, data, [] => (.OK, data)
  | i, data, (block, targets) :: rest =>
    match c.tryLocations block.blockId (attempt i) 0 targets with
    | none => (.ioError (bytes "cannot read block " ++ toStr block.blockId), data)
    | some d => c.readLoop attempt (i + 1) (data ++ d) rest

/-- `ReadFile(path, data)`: the status, and what `data` holds afterwards. -/
def Cluster.readFile (c : Cluster) (rpc : RpcOutcome) (attempt : Nat → Nat → ReadOutcome) (path data : Bytes) :
    Status × Bytes :=
  match callRaw rpc c.ns fun ns => (ns, ns.getBlocks path) with
  | (_, .error st) => (st, data)
  | (_, .ok r) => c.readLoop attempt 0 [] (r.blocks.zip r.locations)

/-- `ReadFile` when the NameNode answers and every DataNode is reachable. -/
def Cluster.read (c : Cluster) (path : Bytes) : Status × Bytes :=
  c.readFile .answered (fun _ _ => .complete) path []

end MiniHadoop.Ndfs

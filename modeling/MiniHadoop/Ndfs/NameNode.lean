/-
The handlers of the NameNode's server (`ndfs/name_node.h`). Each decodes its arguments, calls the namesystem and
encodes the result; no handler calls before it has decoded all it reads. What the namesystem takes from outside
comes with the request.
-/
import MiniHadoop.Io.Buffer
import MiniHadoop.Ndfs.Operations

namespace MiniHadoop.Ndfs

open Text Wire Reading InputBuffer OutputBuffer

/-! ## Requests -/

/-- `enum class NdfsOp`. -/
inductive NdfsOp where
  | kStartFile
  | kAddBlock
  | kGetBlocks
  | kDelete
  | kMkdirs
  | kGetListing
  | kHeartbeat
  | kBlockReport
  | kBlockReceived
  | kGetStats
  | kGetDatanodeReport
  deriving DecidableEq, Repr

/-- The method id of an operation. -/
def NdfsOp.methodId : NdfsOp → Int32
  | .kStartFile => 0
  | .kAddBlock => 1
  | .kGetBlocks => 2
  | .kDelete => 3
  | .kMkdirs => 4
  | .kGetListing => 5
  | .kHeartbeat => 6
  | .kBlockReport => 7
  | .kBlockReceived => 8
  | .kGetStats => 9
  | .kGetDatanodeReport => 10

/-- The operations the constructor registers handlers for. -/
def NdfsOp.all : List NdfsOp :=
  [.kStartFile, .kAddBlock, .kGetBlocks, .kDelete, .kMkdirs, .kGetListing, .kHeartbeat, .kBlockReport, .kBlockReceived,
    .kGetStats, .kGetDatanodeReport]

/-- `handlers_.find(method_id)`. -/
def NdfsOp.find (methodId : Int32) : Option NdfsOp := NdfsOp.all.find? (·.methodId = methodId)

/-- The arguments a handler decodes. -/
inductive Request where
  | startFile (path : Bytes) (overwrite : Bool)
  | addBlock (path : Bytes)
  | getBlocks (path : Bytes)
  | delete (path : Bytes)
  | mkdirs (path : Bytes)
  | getListing (path : Bytes)
  | heartbeat (name host : Bytes) (port : Int32) (capacity remaining : Int64)
  | blockReport (name : Bytes) (blocks : List Block)
  | blockReceived (dnName : Bytes) (block : Block) (delHint : Bytes)
  | getStats
  | getDatanodeReport
  deriving DecidableEq, Repr

namespace NameNode

/-- The three fields of a block. -/
def readBlock : Reader Block := do
  let blockId ← readLong
  let numBytes ← readLong
  let generationStamp ← readLong
  return { blockId, numBytes, generationStamp }

/-- A vector of as many blocks as the count says, which throws when that is negative, and its elements. -/
def readBlocks : Reader (List Block) := do
  let count ← readInt
  if count < 0 then throw .lengthError
  else times readBlock count.toNatClampNeg

/-- The first part of the handler of an operation. -/
def readRequest : NdfsOp → Reader Request
  | .kStartFile => do
    let path ← readString
    let overwrite ← readBool
    return .startFile path overwrite
  | .kAddBlock => do return .addBlock (← readString)
  | .kGetBlocks => do return .getBlocks (← readString)
  | .kDelete => do return .delete (← readString)
  | .kMkdirs => do return .mkdirs (← readString)
  | .kGetListing => do return .getListing (← readString)
  | .kHeartbeat => do
    let name ← readString
    let host ← readString
    let port ← readInt
    let capacity ← readLong
    let remaining ← readLong
    return .heartbeat name host port capacity remaining
  | .kBlockReport => do
    let name ← readString
    let blocks ← readBlocks
    return .blockReport name blocks
  | .kBlockReceived => do
    let dnName ← readString
    let block ← readBlock
    let delHint ← readString
    return .blockReceived dnName block delHint
  | .kGetStats => return .getStats
  | .kGetDatanodeReport => return .getDatanodeReport

/-! ## Responses -/

/-- `WriteBlock(out, b)`. -/
def writeBlock (b : Block) : Bytes := writeLong b.blockId ++ (writeLong b.numBytes ++ writeLong b.generationStamp)

/-- `WriteDataNodeInfo(out, dn)`. -/
def writeDataNodeInfo (dn : DataNodeInfo) : Bytes :=
  writeString dn.name ++ (writeString dn.host ++ (writeInt dn.port ++ (writeLong dn.capacity ++
    (writeLong dn.remaining ++ writeLong dn.lastUpdate))))

/-- `WriteDataNodeInfoList(out, dns)`. -/
def writeDataNodeInfoList (dns : List DataNodeInfo) : Bytes :=
  writeInt (Int32.ofNat dns.length) ++ dns.flatMap writeDataNodeInfo

/-- The results of `StartFile` and of `AddBlock`. -/
def writeAllocation (a : Allocation) : Bytes := writeBlock a.block ++ writeDataNodeInfoList a.targets

/-- The result of `GetBlocks`: each block with the locations at its index. -/
def writeGetBlocks (r : GetBlocksResult) : Bytes :=
  writeInt (Int32.ofNat r.blocks.length) ++
    (r.blocks.zip r.locations).flatMap fun b => writeBlock b.1 ++ writeDataNodeInfoList b.2

/-- The result of `GetListing`. -/
def writeListing (list : List Bytes) : Bytes := writeInt (Int32.ofNat list.length) ++ list.flatMap writeString

/-- What a call takes from outside: the block id that is generated, the clock, and the order of the walk. -/
structure RequestEnv where
  id : Int64
  now : Int64
  order : DataNodeOrder

/-- The second part of the handler: the call, and the response. A heartbeat writes none. -/
def respond (env : RequestEnv) (s : FsNamesystem) : Request → FsNamesystem × Bytes
  | .startFile path overwrite =>
    let result := s.startFile env.id env.order path overwrite
    (result.1, writeAllocation result.2)
  | .addBlock path =>
    let result := s.addBlock env.id env.order path
    (result.1, writeAllocation result.2)
  | .getBlocks path => (s, writeGetBlocks (s.getBlocks path))
  | .delete path =>
    let result := s.delete path
    (result.1, writeBool result.2)
  | .mkdirs path =>
    let result := s.mkdirs path
    (result.1, writeBool result.2)
  | .getListing path => (s, writeListing (s.getListing path))
  | .heartbeat name host port capacity remaining => (s.heartbeat env.now name host port capacity remaining, [])
  | .blockReport name blocks => (s.blockReport name blocks, writeInt 1)
  | .blockReceived dnName block delHint => (s.blockReceived dnName block delHint, writeInt 1)
  | .getStats => (s, writeLong s.totalCapacity ++ (writeLong s.totalRemaining ++ writeInt s.aliveDataNodes))
  | .getDatanodeReport => (s, writeDataNodeInfoList (s.getDataNodeReport env.order))

/-- The handler of an operation, on the part of the request after the method id. -/
def handle (env : RequestEnv) (op : NdfsOp) (s : FsNamesystem) (req : InputBuffer) :
    Except Throw (FsNamesystem × Bytes) := do
  let (request, _) ← readRequest op req
  return respond env s request

/-- A request is one call of the namesystem, or one that changes nothing. -/
theorem respond_state (env : RequestEnv) (s : FsNamesystem) (request : Request) :
    (respond env s request).1 = s ∨ ∃ op, (respond env s request).1 = s.perform op := by
  cases request with
  | startFile path overwrite => exact .inr ⟨.startFile env.id env.order path overwrite, rfl⟩
  | addBlock path => exact .inr ⟨.addBlock env.id env.order path, rfl⟩
  | delete path => exact .inr ⟨.delete path, rfl⟩
  | mkdirs path => exact .inr ⟨.mkdirs path, rfl⟩
  | heartbeat name host port capacity remaining =>
    exact .inr ⟨.heartbeat env.now name host port capacity remaining, rfl⟩
  | blockReport name blocks => exact .inr ⟨.blockReport name blocks, rfl⟩
  | blockReceived dnName block delHint => exact .inr ⟨.blockReceived dnName block delHint, rfl⟩
  | getBlocks => exact .inl rfl
  | getListing => exact .inl rfl
  | getStats => exact .inl rfl
  | getDatanodeReport => exact .inl rfl

end NameNode

end MiniHadoop.Ndfs

/-
The NameNode's state and its operations (`ndfs/fs_namesystem.h`): the inode tree, the registered
DataNodes, the location map and the leases. Each operation is one function from state to state. Most take
the one mutex for their whole body; `TotalCapacity`, `TotalRemaining`, `AliveDataNodes`,
`GetDataNodeReport`, `GetTree`, `InSafeMode`, `EnterSafeMode`, `UpdateSafeMode` and `CanWrite` do not take
it, and what they may see of another thread in the middle of its operation is not modelled. What an
operation takes from outside comes as an argument: the id `Block::Generate` returns, the clock, and the
order in which a hash map is walked.
-/
import MiniHadoop.Base.HashMap
import MiniHadoop.Ndfs.FsImage

namespace MiniHadoop.Ndfs

open Text

/-! ## Data -/

/-- `struct Block`. -/
structure Block where
  blockId : Int64 := 0
  numBytes : Int64 := 0
  generationStamp : Int64 := 0
  deriving DecidableEq, Repr

/-- `Block::Generate(num_bytes)` when the generator returns `id`. -/
def Block.generate (id numBytes : Int64) : Block := { blockId := id, numBytes, generationStamp := 0 }

/-- `struct DataNodeInfo`. -/
structure DataNodeInfo where
  name : Bytes := []
  host : Bytes := []
  port : Int32 := 0
  capacity : Int64 := 0
  remaining : Int64 := 0
  lastUpdate : Int64 := 0
  deriving DecidableEq, Repr

structure Lease where
  holder : Bytes
  path : Bytes
  expiry : Int64
  deriving DecidableEq, Repr

def kDefaultReplication : Nat := 3
def kLeaseTimeout : Int64 := 60

/-- `class FsNamesystem`. The counters of safe mode count entries of a map and ticks, and do not wrap. -/
structure FsNamesystem where
  tree : INode := emptyTree
  datanodes : HashMap Bytes DataNodeInfo := ∅
  blockToDatanodes : HashMap Int64 (List DataNodeInfo) := ∅
  dnToBlocks : HashMap Bytes (List Block) := ∅
  totalBlocks : Nat := 0
  safeBlocks : Nat := 0
  safeModeCountdown : Nat := 30
  leases : HashMap Bytes Lease := ∅

/-- An order in which the NameNode walks its DataNodes. -/
abbrev DataNodeOrder := HashMap.Enumeration Bytes DataNodeInfo

/-- `StartFileResult` and `AddBlockResult`: a block and the DataNodes it goes to. A refused call returns
the default value. -/
structure Allocation where
  block : Block := {}
  targets : List DataNodeInfo := []
  deriving DecidableEq, Repr

/-- `struct GetBlocksResult`. -/
structure GetBlocksResult where
  blocks : List Block := []
  locations : List (List DataNodeInfo) := []
  deriving DecidableEq, Repr

namespace FsNamesystem

/-! ## Safe mode -/

/-- `InSafeMode()`. The comparison of the ratio with 0.999 is exact here; the `double` of the source agrees
as long as there are fewer than 10^12 blocks. -/
def inSafeMode (s : FsNamesystem) : Bool :=
  if s.datanodes.entries = [] then true
  else if s.totalBlocks = 0 then false
  else decide (1000 * s.safeBlocks < 999 * s.totalBlocks)

def enterSafeMode (s : FsNamesystem) : FsNamesystem := { s with safeModeCountdown := 30 }

/-- `UpdateSafeMode()`. -/
def updateSafeMode (s : FsNamesystem) : FsNamesystem :=
  { s with
    totalBlocks := s.blockToDatanodes.entries.length
    safeBlocks := (s.blockToDatanodes.entries.filter fun e => e.2 ≠ []).length
    safeModeCountdown := s.safeModeCountdown - 1 }

def canWrite (s : FsNamesystem) : Bool := s.safeModeCountdown = 0 && !s.inSafeMode

/-! ## Client operations -/

/-- The loop of `ChooseTargets`: a DataNode is pushed before the size is compared. -/
def chooseLoop (replication : Nat) : List DataNodeInfo → List DataNodeInfo → List DataNodeInfo
  | targets, [] => targets
  | targets, info :: rest =>
    let targets := targets ++ [info]
    if replication ≤ targets.length then targets else chooseLoop replication targets rest

/-- `ChooseTargets(replication)`. -/
def chooseTargets (s : FsNamesystem) (order : DataNodeOrder) (replication : Nat) : List DataNodeInfo :=
  chooseLoop replication [] (order.values s.datanodes)

/-- The end of `StartFile` and of `AddBlock`: a new block for the file at `path` of the tree `t`. -/
def allocate (s : FsNamesystem) (t : INode) (id : Int64) (order : DataNodeOrder) (path : Bytes) :
    FsNamesystem × Allocation :=
  let block := Block.generate id 0
  let targets := s.chooseTargets order kDefaultReplication
  ({ s with
      tree := pushBlockAt t (splitPath path) block.blockId
      blockToDatanodes := s.blockToDatanodes.insert block.blockId targets },
    { block, targets })

/-- `StartFile(path, overwrite)`; `id` is the block id generated if it gets that far. -/
def startFile (s : FsNamesystem) (id : Int64) (order : DataNodeOrder) (path : Bytes) (overwrite : Bool) :
    FsNamesystem × Allocation :=
  if s.inSafeMode then (s, {})
  else
    let existing := (getNode s.tree path).isSome
    if existing && !overwrite then (s, {})
    else
      let t1 := if existing && overwrite then (Ndfs.delete s.tree path).getD s.tree else s.tree
      let t2 := (Ndfs.mkdirs t1 (getParentDir path)).1
      match createFile t2 path with
      | none => ({ s with tree := t2 }, {})
      | some t3 => s.allocate t3 id order path

/-- `AddBlock(path)`. -/
def addBlock (s : FsNamesystem) (id : Int64) (order : DataNodeOrder) (path : Bytes) : FsNamesystem × Allocation :=
  match getNode s.tree path with
  | none => (s, {})
  | some file => if file.type ≠ .kFile then (s, {}) else s.allocate s.tree id order path

/-- `GetBlocks(path)`. -/
def getBlocks (s : FsNamesystem) (path : Bytes) : GetBlocksResult :=
  match getNode s.tree path with
  | none => {}
  | some file =>
    if file.type ≠ .kFile then {}
    else
      { blocks := file.blocks.map fun bid => { blockId := bid, numBytes := 0 }
        locations := file.blocks.map fun bid => s.blockToDatanodes.slot bid [] }

/-- `Delete(path)`, with whether something was removed. -/
def delete (s : FsNamesystem) (path : Bytes) : FsNamesystem × Bool :=
  match getNode s.tree path with
  | none => (s, false)
  | some node =>
    let s1 := if node.type = .kFile then
        { s with blockToDatanodes := node.blocks.foldl (fun m bid => m.erase bid) s.blockToDatanodes }
      else s
    match Ndfs.delete s.tree path with
    | none => (s1, false)
    | some t => ({ s1 with tree := t }, true)

/-- `Mkdirs(path)`. -/
def mkdirs (s : FsNamesystem) (path : Bytes) : FsNamesystem × Bool :=
  let r := Ndfs.mkdirs s.tree path
  ({ s with tree := r.1 }, r.2)

/-- `GetListing(path)`. -/
def getListing (s : FsNamesystem) (path : Bytes) : List Bytes :=
  (listDir s.tree path).map fun n => if n.type = .kDirectory then n.name ++ [slash] else n.name

/-! ## DataNode operations -/

/-- `RegisterDataNode(info)` at time `now`. -/
def registerDataNode (s : FsNamesystem) (now : Int64) (info : DataNodeInfo) : FsNamesystem :=
  { s with datanodes := s.datanodes.insert info.name { info with lastUpdate := now } }

/-- `Heartbeat(dn_name, host, port, capacity, remaining)` at time `now`. -/
def heartbeat (s : FsNamesystem) (now : Int64) (dnName host : Bytes) (port : Int32) (capacity remaining : Int64) :
    FsNamesystem :=
  let info : DataNodeInfo :=
    match s.datanodes.lookup dnName with
    | none => { name := dnName, host, port, capacity, remaining, lastUpdate := now }
    | some info => { info with host := host, port := port, capacity := capacity, remaining := remaining, lastUpdate := now }
  { s with datanodes := s.datanodes.insert dnName info }

/-- The body of the loop of `BlockReport` for the DataNode `dn`, registered under `dnName`. -/
def reportBlock (dnName : Bytes) (dn : DataNodeInfo) (m : HashMap Int64 (List DataNodeInfo)) (b : Block) :
    HashMap Int64 (List DataNodeInfo) :=
  let dns := m.slot b.blockId []
  let found := dns.any (·.name = dnName)
  m.insert b.blockId (if !found && dns.length < kDefaultReplication then dns ++ [dn] else dns)

/-- `BlockReport(dn_name, blocks)`. -/
def blockReport (s : FsNamesystem) (dnName : Bytes) (blocks : List Block) : FsNamesystem :=
  match s.datanodes.lookup dnName with
  | none => s
  | some dn =>
    { s with
      dnToBlocks := s.dnToBlocks.insert dnName blocks
      blockToDatanodes := blocks.foldl (reportBlock dnName dn) s.blockToDatanodes }

/-- `BlockReceived(dn_name, block, del_hint)`. The entry of the block is made before the DataNode is looked
up. The hint is not used. -/
def blockReceived (s : FsNamesystem) (dnName : Bytes) (block : Block) (_delHint : Bytes) : FsNamesystem :=
  let dns := s.blockToDatanodes.slot block.blockId []
  match s.datanodes.lookup dnName with
  | none => { s with blockToDatanodes := s.blockToDatanodes.insert block.blockId dns }
  | some dn =>
    let found := dns.any (·.name = dnName)
    { s with blockToDatanodes := s.blockToDatanodes.insert block.blockId (if !found then dns ++ [dn] else dns) }

/-! ## Statistics -/

/-- `TotalCapacity()`. The order of a walk does not matter for the sum. -/
def totalCapacity (s : FsNamesystem) : Int64 := (s.datanodes.entries.map (·.2.capacity)).sum

/-- `TotalRemaining()`. -/
def totalRemaining (s : FsNamesystem) : Int64 := (s.datanodes.entries.map (·.2.remaining)).sum

/-- `AliveDataNodes()`. -/
def aliveDataNodes (s : FsNamesystem) : Int32 := Int32.ofNat s.datanodes.entries.length

/-- `GetDataNodeReport()`. -/
def getDataNodeReport (s : FsNamesystem) (order : DataNodeOrder) : List DataNodeInfo := order.values s.datanodes

/-! ## Leases -/

/-- `AddLease(holder, path)` at time `now`. -/
def addLease (s : FsNamesystem) (now : Int64) (holder path : Bytes) : FsNamesystem :=
  { s with leases := s.leases.insert path { holder, path, expiry := now + kLeaseTimeout } }

def removeLease (s : FsNamesystem) (path : Bytes) : FsNamesystem := { s with leases := s.leases.erase path }

/-- The loop of `CheckLeases` over the leases in some order. -/
def checkLeasesFrom (now : Int64) : FsNamesystem → List ((_ : Bytes) × Lease) → FsNamesystem
  | s, [] => s
  | s, e :: rest =>
    if e.2.expiry < now then
      checkLeasesFrom now
        { s with tree := (Ndfs.delete s.tree e.2.path).getD s.tree, leases := s.leases.erase e.1 } rest
    else checkLeasesFrom now s rest

/-- `CheckLeases()` at time `now`. -/
def checkLeases (s : FsNamesystem) (now : Int64) (order : HashMap.Enumeration Bytes Lease) : FsNamesystem :=
  checkLeasesFrom now s (order.entries s.leases)

/-! ## Re-replication -/

/-- `GetUnderReplicatedBlocks()`, with an order of the block map. -/
def getUnderReplicatedBlocks (s : FsNamesystem) (blockOrder : HashMap.Enumeration Int64 (List DataNodeInfo))
    (order : DataNodeOrder) : List (Block × DataNodeInfo) :=
  (blockOrder.entries s.blockToDatanodes).flatMap fun e =>
    if e.2.length < kDefaultReplication ∧ e.2 ≠ [] then
      let b : Block := { blockId := e.1 }
      (s.chooseTargets order (kDefaultReplication - e.2.length)).map fun dn => (b, dn)
    else []

end FsNamesystem

end MiniHadoop.Ndfs

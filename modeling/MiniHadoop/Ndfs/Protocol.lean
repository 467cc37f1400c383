/-
The messages between the NameNode and its peers as bytes: what `DfsClient` (`ndfs/dfs_client.h`) and `DataNode`
(`ndfs/data_node.h`) write for a request, and how the client reads a result. Both ends spell every format by
hand; here they are shown to be the same format.
-/
import MiniHadoop.Ndfs.NameNode

namespace MiniHadoop.Ndfs

open Text Wire Reading InputBuffer OutputBuffer

/-! ## The peers -/

namespace DfsClient

/-- The request of a call that sends only a path: `Mkdirs`, `Delete`, `List`, and `ReadFile`, which asks for the
blocks. -/
def pathRequest (path : Bytes) : Bytes := writeString path

/-- The request for a block in the loop of `WriteFile`: `StartFile` for the first one, `AddBlock` for the
others. -/
def allocationRequest (first : Bool) (path : Bytes) (overwrite : Bool) : NdfsOp × Bytes :=
  if first then (.kStartFile, writeString path ++ writeBool overwrite) else (.kAddBlock, writeString path)

/-- The confirmation of a block that `WriteFile` sends for each target. -/
def confirmRequest (dn : DataNodeInfo) (block : Block) (chunkSize : Nat) : Bytes :=
  writeString dn.name ++ (writeLong block.blockId ++ (writeLong (Int64.ofNat chunkSize) ++
    (writeLong block.generationStamp ++ writeString [])))

/-- `ReadBlock(in)`. -/
def readBlock : Reader Block := do
  let blockId ← readLong
  let numBytes ← readLong
  let generationStamp ← readLong
  return { blockId, numBytes, generationStamp }

/-- `ReadDataNodeInfo(in)`. -/
def readDataNodeInfo : Reader DataNodeInfo := do
  let name ← readString
  let host ← readString
  let port ← readInt
  let capacity ← readLong
  let remaining ← readLong
  let lastUpdate ← readLong
  return { name, host, port, capacity, remaining, lastUpdate }

/-- A loop `for (int i = 0; i < count; i++)` over a count that is read first. -/
def readCounted {α : Type} (r : Reader α) : Reader (List α) := do
  let count ← readInt
  times r count.toNatClampNeg

/-- `ReadDataNodeInfoList(in)`. -/
def readDataNodeInfoList : Reader (List DataNodeInfo) := readCounted readDataNodeInfo

/-- The response to a request for a block. -/
def readAllocation : Reader Allocation := do
  let block ← readBlock
  let targets ← readDataNodeInfoList
  return { block, targets }

/-- The blocks and their locations as the loop of `ReadFile` reads them. -/
def readGetBlocks : Reader (List (Block × List DataNodeInfo)) := readCounted do
  let block ← readBlock
  let targets ← readDataNodeInfoList
  return (block, targets)

/-- The names `List` reads. -/
def readListing : Reader (List Bytes) := readCounted readString

/-- The answer to `Mkdirs` and `Delete`. -/
def readDone : Reader Bool := readBool

end DfsClient

namespace DataNode

/-- `SendHeartbeat()`, with what the storage says. -/
def heartbeatRequest (info : DataNodeInfo) (capacity remaining : Int64) : Bytes :=
  writeString info.name ++ (writeString info.host ++ (writeInt info.port ++ (writeLong capacity ++
    writeLong remaining)))

/-- `SendBlockReport()` of the blocks in the storage. -/
def blockReportRequest (info : DataNodeInfo) (blocks : List Block) : Bytes :=
  writeString info.name ++ (writeInt (Int32.ofNat blocks.length) ++
    blocks.flatMap fun b => writeLong b.blockId ++ (writeLong b.numBytes ++ writeLong b.generationStamp))

end DataNode

/-! ## Fields -/

/-- A string that `WriteString` writes with its length. -/
def Sized (s : Bytes) : Prop := s.length < 2 ^ 31

def DataNodeInfo.Sized (dn : DataNodeInfo) : Prop := Ndfs.Sized dn.name ∧ Ndfs.Sized dn.host

/-- A list of DataNodes that is written with its size. -/
def SizedList (dns : List DataNodeInfo) : Prop := dns.length < 2 ^ 31 ∧ ∀ dn ∈ dns, dn.Sized

theorem reads_block (b : Block) : Reads rest NameNode.readBlock (NameNode.writeBlock b) b :=
  (reads_long b.blockId).bind ((reads_long b.numBytes).bind
    ((reads_long b.generationStamp).last (Block.mk b.blockId b.numBytes)))

theorem reads_clientBlock (b : Block) : Reads rest DfsClient.readBlock (NameNode.writeBlock b) b := reads_block b

theorem reads_dataNodeInfo {dn : DataNodeInfo} (h : dn.Sized) :
    Reads rest DfsClient.readDataNodeInfo (NameNode.writeDataNodeInfo dn) dn :=
  (reads_string h.1).bind <| (reads_string h.2).bind <| (reads_int dn.port).bind <| (reads_long dn.capacity).bind <|
    (reads_long dn.remaining).bind <| (reads_long dn.lastUpdate).last
      (DataNodeInfo.mk dn.name dn.host dn.port dn.capacity dn.remaining)

/-- A list is read back when its size fits and its elements are read back. -/
theorem reads_counted {α : Type} {r : Reader α} {encode : α → Bytes} {as : List α} (hlen : as.length < 2 ^ 31)
    (h : ∀ a ∈ as, Reads rest r (encode a) a) :
    Reads rest (DfsClient.readCounted r) (writeInt (Int32.ofNat as.length) ++ as.flatMap encode) as := by
  refine (reads_int _).bind ?_
  rw [(int32_ofNat_size hlen).2]
  exact Reads.times h

theorem reads_dataNodeInfoList {dns : List DataNodeInfo} (h : SizedList dns) :
    Reads rest DfsClient.readDataNodeInfoList (NameNode.writeDataNodeInfoList dns) dns :=
  reads_counted h.1 fun dn hdn => reads_dataNodeInfo (h.2 dn hdn)

theorem reads_blocks {blocks : List Block} (h : blocks.length < 2 ^ 31) :
    Reads rest NameNode.readBlocks
      (writeInt (Int32.ofNat blocks.length) ++ blocks.flatMap NameNode.writeBlock) blocks := by
  refine (reads_int _).bind ?_
  obtain ⟨hneg, hlen⟩ := int32_ofNat_size h
  rw [if_neg hneg, hlen]
  exact Reads.times fun b _ => reads_block b

/-! ## Whole messages -/

/-- A message is decoded to the value, and to its end. -/
def Decodes {α : Type} (r : Reader α) (message : Bytes) (value : α) : Prop :=
  ∀ m : Buffer, m.1 = message → ∃ b, r (reset m) = .ok (value, b) ∧ b.remaining = 0

theorem decodes_of_reads {α : Type} {r : Reader α} {message : Bytes} {value : α} (h : Reads rest r message value) :
    Decodes r message value := by
  intro m hm
  obtain ⟨b, hread, hrest⟩ := h (reset m) [] (by rw [rest_reset, hm, List.append_nil])
  exact ⟨b, hread, by rw [← length_rest, hrest]; rfl⟩

/-- Each handler decodes what the peers send it. -/
structure RequestsAgree : Prop where
  startFile : ∀ path overwrite, Sized path →
    (DfsClient.allocationRequest true path overwrite).1 = .kStartFile ∧
      Decodes (NameNode.readRequest .kStartFile) (DfsClient.allocationRequest true path overwrite).2
        (.startFile path overwrite)
  addBlock : ∀ path overwrite, Sized path →
    (DfsClient.allocationRequest false path overwrite).1 = .kAddBlock ∧
      Decodes (NameNode.readRequest .kAddBlock) (DfsClient.allocationRequest false path overwrite).2 (.addBlock path)
  getBlocks : ∀ path, Sized path →
    Decodes (NameNode.readRequest .kGetBlocks) (DfsClient.pathRequest path) (.getBlocks path)
  delete : ∀ path, Sized path →
    Decodes (NameNode.readRequest .kDelete) (DfsClient.pathRequest path) (.delete path)
  mkdirs : ∀ path, Sized path →
    Decodes (NameNode.readRequest .kMkdirs) (DfsClient.pathRequest path) (.mkdirs path)
  getListing : ∀ path, Sized path →
    Decodes (NameNode.readRequest .kGetListing) (DfsClient.pathRequest path) (.getListing path)
  heartbeat : ∀ (info : DataNodeInfo) (capacity remaining : Int64), info.Sized →
    Decodes (NameNode.readRequest .kHeartbeat) (DataNode.heartbeatRequest info capacity remaining)
      (.heartbeat info.name info.host info.port capacity remaining)
  blockReport : ∀ (info : DataNodeInfo) (blocks : List Block), info.Sized → blocks.length < 2 ^ 31 →
    Decodes (NameNode.readRequest .kBlockReport) (DataNode.blockReportRequest info blocks)
      (.blockReport info.name blocks)
  blockReceived : ∀ (dn : DataNodeInfo) (block : Block) (chunkSize : Nat), dn.Sized →
    Decodes (NameNode.readRequest .kBlockReceived) (DfsClient.confirmRequest dn block chunkSize)
      (.blockReceived dn.name { block with numBytes := Int64.ofNat chunkSize } [])

/-- The client decodes what the handlers return. -/
structure ResultsAgree : Prop where
  allocation : ∀ a : Allocation, SizedList a.targets →
    Decodes DfsClient.readAllocation (NameNode.writeAllocation a) a
  getBlocks : ∀ blocks : List (Block × List DataNodeInfo), blocks.length < 2 ^ 31 →
    (∀ b ∈ blocks, SizedList b.2) →
      Decodes DfsClient.readGetBlocks (NameNode.writeGetBlocks ⟨blocks.map (·.1), blocks.map (·.2)⟩) blocks
  done : ∀ done, Decodes DfsClient.readDone (writeBool done) done
  listing : ∀ list : List Bytes, list.length < 2 ^ 31 → (∀ name ∈ list, Sized name) →
    Decodes DfsClient.readListing (NameNode.writeListing list) list

/-- The client decodes the responses of the handlers to what the namesystem returned. -/
structure ResponsesAgree : Prop where
  startFile : ∀ env s path overwrite, SizedList (s.startFile env.id env.order path overwrite).2.targets →
    Decodes DfsClient.readAllocation (NameNode.respond env s (.startFile path overwrite)).2
      (s.startFile env.id env.order path overwrite).2
  addBlock : ∀ env s path, SizedList (s.addBlock env.id env.order path).2.targets →
    Decodes DfsClient.readAllocation (NameNode.respond env s (.addBlock path)).2 (s.addBlock env.id env.order path).2
  getBlocks : ∀ env s path, (s.getBlocks path).blocks.length < 2 ^ 31 →
    (∀ dns ∈ (s.getBlocks path).locations, SizedList dns) →
      ∃ blocks, Decodes DfsClient.readGetBlocks (NameNode.respond env s (.getBlocks path)).2 blocks ∧
        s.getBlocks path = ⟨blocks.map (·.1), blocks.map (·.2)⟩
  delete : ∀ env s path, Decodes DfsClient.readDone (NameNode.respond env s (.delete path)).2 (s.delete path).2
  mkdirs : ∀ env s path, Decodes DfsClient.readDone (NameNode.respond env s (.mkdirs path)).2 (s.mkdirs path).2
  getListing : ∀ env s path, (s.getListing path).length < 2 ^ 31 → (∀ name ∈ s.getListing path, Sized name) →
    Decodes DfsClient.readListing (NameNode.respond env s (.getListing path)).2 (s.getListing path)

theorem requests_agree : RequestsAgree where
  startFile path overwrite h := by
    refine ⟨rfl, decodes_of_reads ?_⟩
    exact (reads_string h).bind ((reads_bool overwrite).last (Request.startFile path))
  addBlock path _ h := ⟨rfl, decodes_of_reads ((reads_string h).last Request.addBlock)⟩
  getBlocks path h := decodes_of_reads ((reads_string h).last Request.getBlocks)
  delete path h := decodes_of_reads ((reads_string h).last Request.delete)
  mkdirs path h := decodes_of_reads ((reads_string h).last Request.mkdirs)
  getListing path h := decodes_of_reads ((reads_string h).last Request.getListing)
  heartbeat info capacity remaining h := by
    refine decodes_of_reads ?_
    exact (reads_string h.1).bind <| (reads_string h.2).bind <| (reads_int info.port).bind <|
      (reads_long capacity).bind <| (reads_long remaining).last
        (Request.heartbeat info.name info.host info.port capacity)
  blockReport info blocks h hlen := by
    refine decodes_of_reads ?_
    exact (reads_string h.1).bind ((reads_blocks hlen).last (Request.blockReport info.name))
  blockReceived dn block chunkSize h := by
    -- the client writes the fields of the block one by one
    have hmessage : DfsClient.confirmRequest dn block chunkSize = writeString dn.name ++
        (NameNode.writeBlock { block with numBytes := Int64.ofNat chunkSize } ++ writeString []) := by
      simp only [DfsClient.confirmRequest, NameNode.writeBlock, List.append_assoc]
    have hhint : Reads rest readString (writeString []) [] := reads_string (by decide)
    rw [hmessage]
    refine decodes_of_reads ?_
    exact (reads_string h.1).bind ((reads_block _).bind (hhint.last (Request.blockReceived dn.name _)))

theorem results_agree : ResultsAgree where
  allocation a h := by
    refine decodes_of_reads ?_
    exact (reads_clientBlock a.block).bind ((reads_dataNodeInfoList h).last (Allocation.mk a.block))
  getBlocks blocks hlen h := by
    refine decodes_of_reads ?_
    have hone : ∀ b ∈ blocks, Reads rest
        (do let block ← DfsClient.readBlock; let targets ← DfsClient.readDataNodeInfoList; return (block, targets))
        (NameNode.writeBlock b.1 ++ NameNode.writeDataNodeInfoList b.2) b := fun b hb =>
      (reads_clientBlock b.1).bind ((reads_dataNodeInfoList (h b hb)).last fun targets => (b.1, targets))
    have hzip : (blocks.map (·.1)).zip (blocks.map (·.2)) = blocks := by
      rw [List.zip_map', List.map_id'']
      exact fun b => rfl
    rw [NameNode.writeGetBlocks, List.length_map, hzip]
    exact reads_counted hlen hone
  done done := decodes_of_reads (reads_bool done)
  listing list hlen h := decodes_of_reads (reads_counted hlen fun name hname => reads_string (h name hname))

/-- `GetBlocks` returns a list of locations for each block. -/
theorem getBlocks_length (s : FsNamesystem) (path : Bytes) :
    (s.getBlocks path).blocks.length = (s.getBlocks path).locations.length := by
  unfold FsNamesystem.getBlocks
  split
  · rfl
  · split
    · rfl
    · simp only [List.length_map]

theorem responses_agree : ResponsesAgree where
  startFile _ _ _ _ h := results_agree.allocation _ h
  addBlock _ _ _ h := results_agree.allocation _ h
  getBlocks env s path hlen h := by
    -- the blocks and the locations, paired
    have hpair : s.getBlocks path = ⟨((s.getBlocks path).blocks.zip (s.getBlocks path).locations).map (·.1),
        ((s.getBlocks path).blocks.zip (s.getBlocks path).locations).map (·.2)⟩ := by
      rw [List.map_fst_zip (getBlocks_length s path).le, List.map_snd_zip (getBlocks_length s path).ge]
    refine ⟨_, ?_, hpair⟩
    have hread := results_agree.getBlocks ((s.getBlocks path).blocks.zip (s.getBlocks path).locations)
      (by rw [List.length_zip]; omega) fun b hb => h b.2 (List.of_mem_zip hb).2
    rw [← hpair] at hread
    exact hread
  delete _ _ _ := results_agree.done _
  mkdirs _ _ _ := results_agree.done _
  getListing _ _ _ hlen h := results_agree.listing _ hlen h

/-- The NameNode and its peers agree on every message. -/
theorem peers_agree : RequestsAgree ∧ ResultsAgree ∧ ResponsesAgree :=
  ⟨requests_agree, results_agree, responses_agree⟩

end MiniHadoop.Ndfs

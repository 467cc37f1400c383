/-
The DataNode (`ndfs/data_node.h`): what it sends to the NameNode when it starts and from then on. The blocks it serves
are those of the store behind its address.
-/
import MiniHadoop.Ndfs.BlockStore
import MiniHadoop.Ndfs.FileMap

namespace MiniHadoop.Ndfs

open Text Wire

/-- `class DataNode`, by the port of its server. -/
structure DataNode where
  xceiverPort : Int32
  deriving DecidableEq, Repr

namespace DataNode

def host : Bytes := bytes "127.0.0.1"

/-- `info_.name`. -/
def name (dn : DataNode) : Bytes := host ++ bytes ":" ++ toStr dn.xceiverPort.toInt64

/-- Where its server listens. -/
def address (dn : DataNode) : Address := (host, dn.xceiverPort.toUInt32.toUInt16)

theorem name_injective : Function.Injective name := by
  rintro ⟨p⟩ ⟨p'⟩ h
  have hstr := toStr_injective (List.append_cancel_left h)
  have hport : p = p' := by
    rw [← Int32.toInt_inj, ← Int32.toInt_toInt64, hstr, Int32.toInt_toInt64]
  rw [hport]

end DataNode

/-- What the start of a DataNode takes from outside: the NameNode's clock, the space in its file system, the order in
which the directory lists its files, and how the two calls end. -/
structure Boot where
  now : Int64
  capacity : Int64
  remaining : Int64
  order : HashMap.Enumeration Bytes Buffer
  heartbeat : RpcOutcome
  report : RpcOutcome

namespace Cluster

/-- `SendHeartbeat()`. -/
def sendHeartbeat (c : Cluster) (dn : DataNode) (now capacity remaining : Int64) (rpc : RpcOutcome) : Cluster :=
  { c with ns := (callRaw rpc c.ns fun ns =>
      (ns.heartbeat now dn.name DataNode.host dn.xceiverPort capacity remaining, ())).1 }

/-- `SendBlockReport()`; an exception of `GetBlockReport` leaves `Start`. -/
def sendBlockReport (c : Cluster) (dn : DataNode) (order : HashMap.Enumeration Bytes Buffer) (rpc : RpcOutcome) :
    Except StollError Cluster := do
  let blocks ← (c.stores dn.address).getBlockReport order
  return { c with ns := (callRaw rpc c.ns fun ns => (ns.blockReport dn.name blocks, ())).1 }

/-- `Start()`, once its server listens and the NameNode is connected. -/
def startDataNode (c : Cluster) (dn : DataNode) (boot : Boot) : Except StollError Cluster :=
  (c.sendHeartbeat dn boot.now boot.capacity boot.remaining boot.heartbeat).sendBlockReport dn boot.order boot.report

end Cluster

/-! ## The files of a store -/

/-- Every file of the directory is a block file. -/
def BlockStorage.Tidy (st : BlockStorage) : Prop := ∀ path ∈ st.files, ∃ id, path = st.blockPath id

namespace BlockStorage

variable {st : BlockStorage}

theorem Tidy.represents (h : st.Tidy) : Represents st st.held := ⟨fun _ => rfl, h⟩

/-- The report of a store with block files only names the blocks it holds. -/
theorem Tidy.report (h : st.Tidy) (order : HashMap.Enumeration Bytes Buffer) :
    ∃ blocks, st.getBlockReport order = .ok blocks ∧
      ∀ id, id ∈ blocks.map Block.blockId ↔ (st.held id).isSome := by
  obtain ⟨blocks, hblocks, -, hmem⟩ := h.represents.report order
  refine ⟨blocks, hblocks, fun id => ?_⟩
  constructor
  · intro hid
    obtain ⟨b, hb, rfl⟩ := List.mem_map.1 hid
    obtain ⟨payload, hpayload, -⟩ := (hmem b).1 hb
    rw [hpayload]
    rfl
  · intro hheld
    obtain ⟨payload, hpayload⟩ := Option.isSome_iff_exists.1 hheld
    exact List.mem_map.2 ⟨⟨id, Int64.ofNat payload.length, 0⟩, (hmem _).2 ⟨payload, hpayload, rfl, rfl⟩, rfl⟩

theorem Tidy.storeBlock (h : st.Tidy) (id : Int64) (data : Buffer) (o : FileOutcome) :
    (st.storeBlock id data o).1.Tidy := by
  have hinsert : ∀ content, BlockStorage.Tidy { st with files := st.files.insert (st.blockPath id) content } := by
    intro content path hpath
    rcases (AList.mem_insert _).1 hpath with rfl | hpath
    · exact ⟨id, rfl⟩
    · exact h path hpath
  cases o with
  | openFails => exact h
  | short n => exact hinsert _
  | written => exact hinsert _

/-- A connection leaves block files only, whatever it carries. -/
theorem Tidy.handleConnection (h : st.Tidy) (input : Bytes) (o : FileOutcome) :
    (Ndfs.handleConnection allSent st input o).1.Tidy := by
  unfold Ndfs.handleConnection
  repeat' split
  all_goals first
    | exact h
    | exact h.storeBlock _ _ o

end BlockStorage

end MiniHadoop.Ndfs

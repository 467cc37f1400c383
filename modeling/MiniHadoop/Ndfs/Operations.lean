/-
The NameNode as a machine: its operations as values, one step for each, and what a step can do to the
registry of DataNodes and to the location lists. Every invariant of the location map is derived from
`perform_locations`.
-/
import MiniHadoop.Base.Runs
import MiniHadoop.Ndfs.Namespace

namespace MiniHadoop.Ndfs

open Text Forest Runs

/-- A call of the NameNode, with what it takes from outside: the block id that is generated if the call
gets that far, the clock, and the orders in which hash maps are walked. -/
inductive Operation where
  | startFile (id : Int64) (order : DataNodeOrder) (path : Bytes) (overwrite : Bool)
  | addBlock (id : Int64) (order : DataNodeOrder) (path : Bytes)
  | delete (path : Bytes)
  | mkdirs (path : Bytes)
  | registerDataNode (now : Int64) (info : DataNodeInfo)
  | heartbeat (now : Int64) (dnName host : Bytes) (port : Int32) (capacity remaining : Int64)
  | blockReport (dnName : Bytes) (blocks : List Block)
  | blockReceived (dnName : Bytes) (block : Block) (delHint : Bytes)
  | enterSafeMode
  | updateSafeMode
  | addLease (now : Int64) (holder path : Bytes)
  | removeLease (path : Bytes)
  | checkLeases (now : Int64) (order : HashMap.Enumeration Bytes Lease)

/-- The address a DataNode announces, with the port as it is sent. -/
abbrev HostPort := Bytes × Int32

def DataNodeInfo.hostPort (dn : DataNodeInfo) : HostPort := (dn.host, dn.port)

/-- The DataNode that a registration or a heartbeat comes from, with the address it gives. -/
def Operation.announced : Operation → Option (Bytes × HostPort)
  | .registerDataNode _ info => some (info.name, info.hostPort)
  | .heartbeat _ dnName host port _ _ => some (dnName, (host, port))
  | _ => none

/-- The call is a DataNode's confirmation of a block. -/
def Operation.Confirms (op : Operation) (name : Bytes) (id : Int64) : Prop :=
  ∃ block delHint, op = .blockReceived name block delHint ∧ block.blockId = id

namespace FsNamesystem

/-- The state after one call. -/
def perform (s : FsNamesystem) : Operation → FsNamesystem
  | .startFile id order path overwrite => (s.startFile id order path overwrite).1
  | .addBlock id order path => (s.addBlock id order path).1
  | .delete path => (s.delete path).1
  | .mkdirs path => (s.mkdirs path).1
  | .registerDataNode now info => s.registerDataNode now info
  | .heartbeat now dnName host port capacity remaining => s.heartbeat now dnName host port capacity remaining
  | .blockReport dnName blocks => s.blockReport dnName blocks
  | .blockReceived dnName block delHint => s.blockReceived dnName block delHint
  | .enterSafeMode => s.enterSafeMode
  | .updateSafeMode => s.updateSafeMode
  | .addLease now holder path => s.addLease now holder path
  | .removeLease path => s.removeLease path
  | .checkLeases now order => s.checkLeases now order

theorem Reachable.perform {s : FsNamesystem} (h : Reachable s) (op : Operation) : Reachable (s.perform op) := by
  cases op with
  | startFile id order path overwrite => exact h.startFile id order path overwrite
  | addBlock id order path => exact h.addBlock id order path
  | delete path => exact h.delete path
  | mkdirs path => exact h.mkdirs path
  | registerDataNode now info => exact h.registerDataNode now info
  | heartbeat now dnName host port capacity remaining => exact h.heartbeat now dnName host port capacity remaining
  | blockReport dnName blocks => exact h.blockReport dnName blocks
  | blockReceived dnName block delHint => exact h.blockReceived dnName block delHint
  | enterSafeMode => exact h.enterSafeMode
  | updateSafeMode => exact h.updateSafeMode
  | addLease now holder path => exact h.addLease now holder path
  | removeLease path => exact h.removeLease path
  | checkLeases now order => exact h.checkLeases now order

/-- What a start leaves and every call keeps holds in all reachable states. -/
theorem Reachable.invariant {P : FsNamesystem → Prop} (hstart : ∀ t, TreeOk t → P { tree := t })
    (hstep : ∀ s op, Reachable s → P s → P (s.perform op)) {s : FsNamesystem} (h : Reachable s) : P s := by
  induction h with
  | start image _ => exact hstart _ (emptyTree_ok.load image)
  | fresh => exact hstart _ emptyTree_ok
  | startFile id order path overwrite h ih => exact hstep _ (.startFile id order path overwrite) h ih
  | addBlock id order path h ih => exact hstep _ (.addBlock id order path) h ih
  | delete path h ih => exact hstep _ (.delete path) h ih
  | mkdirs path h ih => exact hstep _ (.mkdirs path) h ih
  | registerDataNode now info h ih => exact hstep _ (.registerDataNode now info) h ih
  | heartbeat now dnName host port capacity remaining h ih =>
    exact hstep _ (.heartbeat now dnName host port capacity remaining) h ih
  | blockReport dnName blocks h ih => exact hstep _ (.blockReport dnName blocks) h ih
  | blockReceived dnName block hint h ih => exact hstep _ (.blockReceived dnName block hint) h ih
  | enterSafeMode h ih => exact hstep _ .enterSafeMode h ih
  | updateSafeMode h ih => exact hstep _ .updateSafeMode h ih
  | addLease now holder path h ih => exact hstep _ (.addLease now holder path) h ih
  | removeLease path h ih => exact hstep _ (.removeLease path) h ih
  | checkLeases now order h ih => exact hstep _ (.checkLeases now order) h ih

theorem Reachable.after {s : FsNamesystem} (h : Reachable s) (ops : List Operation) :
    Reachable (Runs.after FsNamesystem.perform s ops) :=
  @after_keeps _ _ FsNamesystem.perform s Reachable ops h fun _ op _ ih => ih.perform op

/-! ## The registry -/

/-- Every DataNode is registered under its own name. -/
def RegistryOk (s : FsNamesystem) : Prop := ∀ name dn, s.datanodes.lookup name = some dn → dn.name = name

/-- The DataNode is registered. -/
def Registered (s : FsNamesystem) (name : Bytes) : Prop := ∃ dn, s.datanodes.lookup name = some dn

section Tables

variable {s : FsNamesystem}

theorem startFile_tables (id : Int64) (order : DataNodeOrder) (path : Bytes) (overwrite : Bool) :
    (s.startFile id order path overwrite).1.datanodes = s.datanodes ∧
      ((s.startFile id order path overwrite).1.blockToDatanodes = s.blockToDatanodes ∨
        (s.startFile id order path overwrite).1.blockToDatanodes =
          s.blockToDatanodes.insert id (s.chooseTargets order kDefaultReplication)) := by
  rcases s.locked_or_tries path overwrite with hl | ⟨hs, hf⟩
  · rw [startFile_locked hl]
    exact ⟨rfl, .inl rfl⟩
  · rw [startFile_eq id order hs hf]
    cases createFile (Ndfs.mkdirs (s.clearedTree path) (getParentDir path)).1 path with
    | none => exact ⟨rfl, .inl rfl⟩
    | some t => exact ⟨rfl, .inr rfl⟩

theorem addBlock_tables (id : Int64) (order : DataNodeOrder) (path : Bytes) :
    (s.addBlock id order path).1.datanodes = s.datanodes ∧
      ((s.addBlock id order path).1.blockToDatanodes = s.blockToDatanodes ∨
        (s.addBlock id order path).1.blockToDatanodes =
          s.blockToDatanodes.insert id (s.chooseTargets order kDefaultReplication)) := by
  by_cases hf : IsFile s.tree (splitPath path)
  · rw [addBlock_file hf]
    exact ⟨rfl, .inr rfl⟩
  · rw [addBlock_not_file hf]
    exact ⟨rfl, .inl rfl⟩

/-- `Delete` of a file takes its blocks out of the map. -/
theorem delete_lookup_mem {path : Bytes} {bl : List Int64} (hb : entryAt s.tree (splitPath path) = some ⟨.kFile, bl⟩)
    {id : Int64} (hid : id ∈ bl) : (s.delete path).1.blockToDatanodes.lookup id = none := by
  rw [delete_eq, blocksAt_file hb]
  exact (lookup_eraseAll bl s.blockToDatanodes id).trans (if_pos hid)

/-- `Delete` leaves an entry of the map alone, or removes the file it belongs to and the entry. -/
theorem delete_lookup (path : Bytes) (id : Int64) :
    (s.delete path).1.blockToDatanodes.lookup id = s.blockToDatanodes.lookup id ∨
      (∃ bl, entryAt s.tree (splitPath path) = some ⟨.kFile, bl⟩ ∧ id ∈ bl) ∧
        (s.delete path).1.blockToDatanodes.lookup id = none := by
  by_cases h : ∃ bl, entryAt s.tree (splitPath path) = some ⟨.kFile, bl⟩ ∧ id ∈ bl
  · obtain ⟨bl, hb, hid⟩ := h
    exact .inr ⟨⟨bl, hb, hid⟩, delete_lookup_mem hb hid⟩
  · exact .inl (delete_blockToDatanodes path fun bl hb hid => h ⟨bl, hb, hid⟩)

theorem delete_datanodes (path : Bytes) : (s.delete path).1.datanodes = s.datanodes := by
  rw [delete_eq]

theorem checkLeasesFrom_tables (now : Int64) : ∀ (es : List ((_ : Bytes) × Lease)) (s : FsNamesystem),
    (checkLeasesFrom now s es).datanodes = s.datanodes ∧
      (checkLeasesFrom now s es).blockToDatanodes = s.blockToDatanodes
  | [], _ => ⟨rfl, rfl⟩
  | e :: es, s => by
    rw [checkLeasesFrom]
    split
    · exact checkLeasesFrom_tables now es _
    · exact checkLeasesFrom_tables now es s

theorem blockReport_datanodes (dnName : Bytes) (blocks : List Block) :
    (s.blockReport dnName blocks).datanodes = s.datanodes := by
  unfold blockReport
  cases s.datanodes.lookup dnName <;> rfl

/-- Only registrations and heartbeats change the registry. -/
theorem perform_datanodes_same {op : Operation} (h : op.announced = none) : (s.perform op).datanodes = s.datanodes := by
  cases op with
  | registerDataNode | heartbeat => cases h
  | startFile id order path overwrite => exact (startFile_tables id order path overwrite).1
  | addBlock id order path => exact (addBlock_tables id order path).1
  | delete path => exact delete_datanodes path
  | blockReport dnName blocks => exact blockReport_datanodes dnName blocks
  | blockReceived dnName block delHint => exact blockReceived_datanodes s dnName block delHint
  | checkLeases now order => exact (checkLeasesFrom_tables now _ s).1
  | mkdirs | enterSafeMode | updateSafeMode | addLease | removeLease => rfl

/-- A call leaves the registry alone or puts one entry under its own name. -/
theorem perform_datanodes (hr : s.RegistryOk) (op : Operation) :
    (s.perform op).datanodes = s.datanodes ∨
      ∃ info, (s.perform op).datanodes = s.datanodes.insert info.name info := by
  cases op with
  | registerDataNode now info => exact .inr ⟨{ info with lastUpdate := now }, rfl⟩
  | heartbeat now dnName host port capacity remaining =>
    right
    cases hl : s.datanodes.lookup dnName with
    | none =>
      refine ⟨{ name := dnName, host, port, capacity, remaining, lastUpdate := now }, ?_⟩
      simp only [perform, heartbeat, hl]
    | some info =>
      refine ⟨{ info with host, port, capacity, remaining, lastUpdate := now }, ?_⟩
      simp only [perform, heartbeat, hl, hr _ _ hl]
  | startFile | addBlock | delete | mkdirs | blockReport | blockReceived | enterSafeMode | updateSafeMode | addLease
  | removeLease | checkLeases => exact .inl (perform_datanodes_same rfl)

theorem RegistryOk.perform (hr : s.RegistryOk) (op : Operation) : (s.perform op).RegistryOk := by
  intro name dn hl
  rcases perform_datanodes hr op with h | ⟨info, h⟩
  · rw [h] at hl; exact hr name dn hl
  · rw [h, HashMap.lookup_insert_eq] at hl
    split at hl
    · rename_i hn; cases hl; exact hn.symm
    · exact hr name dn hl

/-- Nothing unregisters a DataNode. -/
theorem Registered.perform {name : Bytes} (hr : s.RegistryOk) (h : s.Registered name) (op : Operation) :
    (s.perform op).Registered name := by
  obtain ⟨dn, hl⟩ := h
  rcases perform_datanodes hr op with hsame | ⟨info, hins⟩
  · exact ⟨dn, by rw [hsame]; exact hl⟩
  · by_cases hn : name = info.name
    · exact ⟨info, by rw [hins, HashMap.lookup_insert_eq, if_pos hn]⟩
    · exact ⟨dn, by rw [hins, HashMap.lookup_insert_eq, if_neg hn]; exact hl⟩

end Tables

/-! ## Location lists -/

/-- The DataNode is among the locations listed for the block. -/
def Listed (s : FsNamesystem) (name : Bytes) (id : Int64) : Prop := ∃ dn ∈ s.locations id, dn.name = name

/-- A location list with a DataNode that reports the block. -/
def withReporter (dnName : Bytes) (dn : DataNodeInfo) (dns : List DataNodeInfo) : List DataNodeInfo :=
  if !dns.any (·.name = dnName) && dns.length < kDefaultReplication then dns ++ [dn] else dns

/-- All that a call can do to the location list of a block: leave it, forget it, choose new targets, or push
one registered DataNode that is not listed yet, and that beyond the limit only for a confirmation. -/
inductive Relocated (s : FsNamesystem) (op : Operation) (id : Int64) : List DataNodeInfo → Prop
  | same : Relocated s op id (s.locations id)
  | forgotten : Relocated s op id []
  | chosen (order : DataNodeOrder) : Relocated s op id (s.chooseTargets order kDefaultReplication)
  | pushed {name : Bytes} {dn : DataNodeInfo} : s.datanodes.lookup name = some dn → ¬ s.Listed name id →
      (s.locations id).length < kDefaultReplication ∨ op.Confirms name id → Relocated s op id (s.locations id ++ [dn])

section Locations

variable {s : FsNamesystem}

theorem any_name_eq_true {name : Bytes} {id : Int64} :
    (s.locations id).any (·.name = name) = true ↔ s.Listed name id := by
  rw [List.any_eq_true, Listed]
  simp only [decide_eq_true_eq]

theorem locations_of_lookup {s' : FsNamesystem} {id : Int64}
    (h : s'.blockToDatanodes.lookup id = s.blockToDatanodes.lookup id) : s'.locations id = s.locations id := by
  unfold locations HashMap.slot
  rw [h]

theorem relocated_insert {s' : FsNamesystem} (op : Operation) {id id' : Int64} {order : DataNodeOrder}
    (h : s'.blockToDatanodes = s.blockToDatanodes ∨
      s'.blockToDatanodes = s.blockToDatanodes.insert id (s.chooseTargets order kDefaultReplication)) :
    Relocated s op id' (s'.locations id') := by
  rcases h with h | h
  · rw [show s'.locations id' = s.locations id' from locations_of_lookup (by rw [h])]; exact .same
  · unfold locations HashMap.slot
    rw [h, HashMap.lookup_insert_eq]
    split
    · exact .chosen order
    · exact .same

/-- The reports of one DataNode, one block after another: its blocks get it as a location, once and up to
the limit. -/
theorem slot_reportBlocks {dnName : Bytes} {dn : DataNodeInfo} (hn : dn.name = dnName) (id : Int64) :
    ∀ (blocks : List Block) (m : HashMap Int64 (List DataNodeInfo)),
      (blocks.foldl (reportBlock dnName dn) m).slot id [] =
        if id ∈ blocks.map Block.blockId then withReporter dnName dn (m.slot id []) else m.slot id []
  | [], _ => rfl
  | b :: blocks, m => by
    have hone : (reportBlock dnName dn m b).slot id [] =
        if id = b.blockId then withReporter dnName dn (m.slot id []) else m.slot id [] := by
      unfold reportBlock HashMap.slot
      simp only
      rw [HashMap.lookup_insert_eq]
      split
      · rename_i h; rw [h]; rfl
      · rfl
    have hidem : ∀ dns, withReporter dnName dn (withReporter dnName dn dns) = withReporter dnName dn dns := by
      intro dns
      unfold withReporter
      split
      · rw [if_neg]
        simp [hn]
      · rfl
    rw [List.foldl_cons, slot_reportBlocks hn id blocks, hone, List.map_cons]
    by_cases hb : id = b.blockId
    · rw [if_pos hb, if_pos (List.mem_cons.2 (.inl hb)), hidem, ite_self]
    · rw [if_neg hb]
      by_cases hrest : id ∈ blocks.map Block.blockId
      · rw [if_pos hrest, if_pos (List.mem_cons.2 (.inr hrest))]
      · rw [if_neg hrest, if_neg]
        rw [List.mem_cons, not_or]; exact ⟨hb, hrest⟩

/-- What a block report of a registered DataNode leaves in every location list. -/
theorem locations_blockReport (hr : s.RegistryOk) {dnName : Bytes} {dn : DataNodeInfo}
    (hl : s.datanodes.lookup dnName = some dn) (blocks : List Block) (id : Int64) :
    (s.blockReport dnName blocks).locations id =
      if id ∈ blocks.map Block.blockId then withReporter dnName dn (s.locations id) else s.locations id := by
  unfold blockReport
  rw [hl]
  exact slot_reportBlocks (hr _ _ hl) id blocks s.blockToDatanodes

theorem blockReport_unregistered {dnName : Bytes} (hl : s.datanodes.lookup dnName = none) (blocks : List Block) :
    s.blockReport dnName blocks = s := by
  unfold blockReport
  rw [hl]

/-- What a confirmation of a registered DataNode leaves in the location list of its block. -/
theorem locations_blockReceived {dnName : Bytes} {dn : DataNodeInfo} (hl : s.datanodes.lookup dnName = some dn)
    (b : Block) (hint : Bytes) (id : Int64) :
    (s.blockReceived dnName b hint).locations id =
      if id = b.blockId ∧ !(s.locations id).any (·.name = dnName) then s.locations id ++ [dn] else s.locations id := by
  unfold blockReceived
  rw [hl]
  simp only
  rw [locations_insert]
  by_cases hid : id = b.blockId
  · subst hid
    simp only [true_and, if_true]
    rfl
  · rw [if_neg hid, if_neg fun h => hid h.1]

theorem locations_blockReceived_unregistered {dnName : Bytes} (hl : s.datanodes.lookup dnName = none) (b : Block)
    (hint : Bytes) (id : Int64) : (s.blockReceived dnName b hint).locations id = s.locations id := by
  unfold blockReceived
  rw [hl]
  simp only
  rw [locations_insert]
  split
  · rename_i h; rw [h]; rfl
  · rfl

theorem perform_locations (hr : s.RegistryOk) (op : Operation) (id : Int64) :
    Relocated s op id ((s.perform op).locations id) := by
  cases op with
  | startFile id' order path overwrite => exact relocated_insert _ (startFile_tables id' order path overwrite).2
  | addBlock id' order path => exact relocated_insert _ (addBlock_tables id' order path).2
  | delete path =>
    rcases delete_lookup (s := s) path id with h | ⟨-, h⟩
    · rw [show (s.perform (.delete path)).locations id = s.locations id from locations_of_lookup h]; exact .same
    · rw [show (s.perform (.delete path)).locations id = [] by unfold locations HashMap.slot perform; rw [h]; rfl]
      exact .forgotten
  | blockReport dnName blocks =>
    rw [perform]
    cases hl : s.datanodes.lookup dnName with
    | none => rw [blockReport_unregistered hl]; exact .same
    | some dn =>
      rw [locations_blockReport hr hl]
      split
      · unfold withReporter
        split
        · rename_i h
          simp only [Bool.and_eq_true, Bool.not_eq_true', decide_eq_true_eq] at h
          refine .pushed hl (fun hin => ?_) (.inl h.2)
          rw [any_name_eq_true.2 hin] at h; cases h.1
        · exact .same
      · exact .same
  | blockReceived dnName b hint =>
    rw [perform]
    cases hl : s.datanodes.lookup dnName with
    | none => rw [locations_blockReceived_unregistered hl]; exact .same
    | some dn =>
      rw [locations_blockReceived hl]
      split
      · rename_i h
        refine .pushed hl (fun hin => ?_) (.inr ⟨b, hint, rfl, h.1.symm⟩)
        rw [any_name_eq_true.2 hin] at h; cases h.2
      · exact .same
  | checkLeases now order =>
    rw [show (s.perform (.checkLeases now order)).locations id = s.locations id from
      locations_of_lookup (by rw [perform, checkLeases, (checkLeasesFrom_tables now _ s).2])]
    exact .same
  | mkdirs | registerDataNode | heartbeat | enterSafeMode | updateSafeMode | addLease | removeLease => exact .same

end Locations

end FsNamesystem

end MiniHadoop.Ndfs

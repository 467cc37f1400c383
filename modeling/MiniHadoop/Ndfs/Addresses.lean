/-
The addresses of locations. The registry has the address that a DataNode announced last, every location
list has copies made at other times, and nothing renews a copy: when the locations that clients are given
have the current addresses.
-/
import MiniHadoop.Ndfs.BlockMap

namespace MiniHadoop.Ndfs

open Text Forest Runs

/-- The address in the most recent registration or heartbeat of a DataNode. -/
def lastAddress (ops : List Operation) (name : Bytes) : Option HostPort :=
  ops.reverse.findSome? fun op => op.announced.bind fun a => if a.1 = name then some a.2 else none

theorem lastAddress_snoc (ops : List Operation) (op : Operation) (name : Bytes) :
    lastAddress (ops ++ [op]) name =
      (op.announced.bind fun a => if a.1 = name then some a.2 else none).or (lastAddress ops name) := by
  unfold lastAddress
  exact findSome?_reverse_snoc _ ops op

namespace FsNamesystem

variable {s : FsNamesystem} {op : Operation}

/-! ## The registry -/

/-- The address the registry has for a DataNode. -/
def registered (s : FsNamesystem) (name : Bytes) : Option HostPort :=
  (s.datanodes.lookup name).map DataNodeInfo.hostPort

/-- A registration or a heartbeat enters the address it gives, and changes no other part of the state that
locations come from. -/
theorem perform_announced {name : Bytes} {address : HostPort} (h : op.announced = some (name, address)) :
    (s.perform op).tree = s.tree ∧ (∀ id, (s.perform op).locations id = s.locations id) ∧
      ∀ name', (s.perform op).registered name' = if name' = name then some address else s.registered name' := by
  cases op with
  | registerDataNode now info =>
    cases h
    refine ⟨rfl, fun _ => rfl, fun name' => ?_⟩
    unfold registered perform registerDataNode
    simp only
    rw [HashMap.lookup_insert_eq]
    split <;> rfl
  | heartbeat now dnName host port capacity remaining =>
    cases h
    refine ⟨rfl, fun _ => rfl, fun name' => ?_⟩
    unfold registered
    cases hl : s.datanodes.lookup name with
    | none =>
      simp only [perform, heartbeat, hl, HashMap.lookup_insert_eq]
      split <;> rfl
    | some info =>
      simp only [perform, heartbeat, hl, HashMap.lookup_insert_eq]
      split <;> rfl
  | startFile | addBlock | delete | mkdirs | blockReport | blockReceived | enterSafeMode | updateSafeMode | addLease
  | removeLease | checkLeases => cases h

/-- The registry has the most recent addresses. -/
theorem registered_after (ops : List Operation) (name : Bytes) :
    (after perform {} ops).registered name = lastAddress ops name := by
  induction ops using List.reverseRecOn with
  | nil => rfl
  | append_singleton ops op ih =>
    rw [after_snoc, lastAddress_snoc]
    cases h : op.announced with
    | none =>
      unfold registered
      rw [perform_datanodes_same h]
      exact ih
    | some a =>
      obtain ⟨name', address⟩ := a
      rw [(perform_announced h).2.2, ih]
      by_cases hn : name = name'
      · simp [hn]
      · simp [hn, Ne.symm hn]

/-! ## The copies -/

/-- Every location of a block of a file has the address that the registry has. -/
def AddressesOk (s : FsNamesystem) : Prop :=
  ∀ id, Referenced s.tree id → ∀ dn ∈ s.locations id, s.registered dn.name = some dn.hostPort

/-- Every location that `GetBlocks` returns has the address of the most recent registration or heartbeat. -/
def CurrentAddresses (s : FsNamesystem) (ops : List Operation) : Prop :=
  ∀ path, ∀ dns ∈ (s.getBlocks path).locations, ∀ dn ∈ dns, lastAddress ops dn.name = some dn.hostPort

/-- No block of a file lists the DataNode at another address than the one it announces. -/
def NoOldCopy (s : FsNamesystem) (op : Operation) : Prop :=
  ∀ name address, op.announced = some (name, address) →
    ∀ id, Referenced s.tree id → ∀ dn ∈ s.locations id, dn.name = name → dn.hostPort = address

/-- The lists that `GetBlocks` returns are those of the blocks of files. -/
theorem exists_getBlocks_iff (ht : TreeOk s.tree) {dns : List DataNodeInfo} :
    (∃ path, dns ∈ (s.getBlocks path).locations) ↔ ∃ id, Referenced s.tree id ∧ s.locations id = dns := by
  constructor
  · rintro ⟨path, hdns⟩
    by_cases hf : IsFile s.tree (splitPath path)
    · obtain ⟨bl, hb⟩ := hf
      rw [getBlocks_file hb] at hdns
      obtain ⟨id, hid, rfl⟩ := List.mem_map.1 hdns
      exact ⟨id, ⟨_, bl, hb, hid⟩, rfl⟩
    · rw [getBlocks_not_file hf] at hdns
      cases hdns
  · rintro ⟨id, ⟨c, bl, hb, hid⟩, rfl⟩
    have hsplit : splitPath (joinPath c) = c := splitPath_joinPath_of_entryAt ht.nodes hb
    refine ⟨joinPath c, ?_⟩
    rw [getBlocks_file (by rw [hsplit]; exact hb)]
    exact List.mem_map_of_mem hid

theorem currentAddresses_iff_addressesOk (ops : List Operation) :
    (after perform {} ops).CurrentAddresses ops ↔ (after perform {} ops).AddressesOk := by
  unfold CurrentAddresses AddressesOk
  constructor
  · intro h id href dn hdn
    obtain ⟨path, hpath⟩ := (exists_getBlocks_iff (tree_ok_after ops)).2 ⟨id, href, rfl⟩
    rw [registered_after]
    exact h path _ hpath dn hdn
  · intro h path dns hdns dn hdn
    obtain ⟨id, href, rfl⟩ := (exists_getBlocks_iff (tree_ok_after ops)).1 ⟨path, hdns⟩
    rw [← registered_after]
    exact h id href dn hdn

/-! ## Along a run -/

theorem registered_of_lookup (hr : s.RegistryOk) {name : Bytes} {dn : DataNodeInfo}
    (hl : s.datanodes.lookup name = some dn) : s.registered dn.name = some dn.hostPort := by
  unfold registered
  rw [hr name dn hl, hl]; rfl

/-- A generated block is placed at the DataNodes that the registry has. -/
theorem locations_generated (ht : TreeOk s.tree) {id : Int64} (h : s.Generates op id) :
    ∃ order, (s.perform op).locations id = s.chooseTargets order kDefaultReplication := by
  obtain ⟨c, old, hw⟩ := h
  cases op with
  | startFile id' order path overwrite =>
    obtain ⟨ha, -, rfl, -⟩ := hw
    obtain ⟨t, -, heq, -⟩ := startFile_accepted ht ha id order
    refine ⟨order, ?_⟩
    rw [perform, heq, locations_insert { s with tree := t }, if_pos rfl]
  | addBlock id' order path =>
    obtain ⟨rfl, rfl, hold⟩ := hw
    refine ⟨order, ?_⟩
    rw [perform, addBlock_file ⟨old, hold⟩, locations_insert { s with tree := _ }, if_pos rfl]
  | delete | mkdirs | registerDataNode | heartbeat | blockReport | blockReceived | enterSafeMode | updateSafeMode
  | addLease | removeLease | checkLeases => exact hw.elim

/-- All calls but registrations and heartbeats keep the addresses right: what they add is copied from the
registry. -/
theorem AddressesOk.perform (ht : TreeOk s.tree) (hr : s.RegistryOk) (h : s.AddressesOk) (hop : op.announced = none) :
    (s.perform op).AddressesOk := by
  intro id href dn hdn
  have hchosen : ∀ order, dn ∈ s.chooseTargets order kDefaultReplication → s.registered dn.name = some dn.hostPort := by
    intro order hmem
    obtain ⟨name, hl⟩ := lookup_of_mem_chooseTargets hmem
    exact registered_of_lookup hr hl
  unfold registered
  rw [perform_datanodes_same hop]
  rcases referenced_of_perform ht href with hgen | hold
  · obtain ⟨order, hloc⟩ := locations_generated ht hgen
    exact hchosen order (hloc ▸ hdn)
  · have hrel := perform_locations hr op id
    generalize (s.perform op).locations id = dns at hrel hdn
    cases hrel with
    | same => exact h id hold dn hdn
    | forgotten => cases hdn
    | chosen order => exact hchosen order hdn
    | pushed hl _ _ =>
      rcases List.mem_append.1 hdn with hin | hlast
      · exact h id hold dn hin
      · rw [List.mem_singleton.1 hlast]
        exact registered_of_lookup hr hl

/-- The addresses stay right in exactly the steps in which no DataNode announces an address that differs from a
copy. -/
theorem addressesOk_perform_iff (ht : TreeOk s.tree) (hr : s.RegistryOk) (h : s.AddressesOk) (op : Operation) :
    (s.perform op).AddressesOk ↔ s.NoOldCopy op := by
  cases hop : op.announced with
  | none =>
    refine ⟨fun _ name address ha => ?_, fun _ => h.perform ht hr hop⟩
    rw [hop] at ha; cases ha
  | some a =>
    obtain ⟨name, address⟩ := a
    obtain ⟨htree, hloc, hreg⟩ := perform_announced (s := s) hop
    unfold AddressesOk NoOldCopy
    rw [htree]
    constructor
    · intro hnew name' address' ha id href dn hdn hname
      rw [hop] at ha
      cases ha
      have hcopy := hnew id href dn (by rw [hloc]; exact hdn)
      rw [hreg, if_pos hname] at hcopy
      exact (Option.some.inj hcopy).symm
    · intro hcopies id href dn hdn
      rw [hloc] at hdn
      rw [hreg]
      split
      · rename_i hname
        rw [hcopies name address hop id href dn hdn hname]
      · exact h id href dn hdn

/-- The locations that clients are given have current addresses in every state of a run exactly when no DataNode
announces another address than the one that a block of a file lists it at. -/
theorem currentAddresses_iff (ops : List Operation) :
    (∀ pre, pre <+: ops → (after perform {} pre).CurrentAddresses pre) ↔
      ∀ pre op, pre ++ [op] <+: ops → (after perform {} pre).NoOldCopy op := by
  simp only [currentAddresses_iff_addressesOk]
  refine after_good_iff ?_ fun pre op _ hgood => ?_
  · intro id _ dn hdn
    rw [locations_start emptyTree] at hdn
    cases hdn
  · exact addressesOk_perform_iff (tree_ok_after pre) (locationsOk_after pre).registry hgood op

/-- A DataNode comes back at another port after a file was placed on it, and reports its block. -/
def movedDataNode : List Operation :=
  [announce (bytes "a") 1, .startFile 7 .insertion (bytes "/f") false, announce (bytes "a") 2,
    .blockReport (bytes "a") [{ blockId := 7 }]]

/-- The file is still looked for at the old port. -/
theorem old_address_returned : ¬ ∀ ops, (after perform {} ops).CurrentAddresses ops := by
  intro h
  have hcurrent : ∀ dns ∈ ((after perform {} movedDataNode).getBlocks (bytes "/f")).locations, ∀ dn ∈ dns,
      lastAddress movedDataNode dn.name = some dn.hostPort := h movedDataNode (bytes "/f")
  revert hcurrent
  decide +kernel

end FsNamesystem

end MiniHadoop.Ndfs

/-
Re-replication: what `GetUnderReplicatedBlocks` should return, new holders for the blocks that have some
locations but not enough, and when it does. It takes its targets from the helper that places new blocks,
which does not look at the locations a block has.
-/
import MiniHadoop.Ndfs.Locations

namespace MiniHadoop.Ndfs

open Text Runs

namespace FsNamesystem

variable {s : FsNamesystem} {order : DataNodeOrder} {blockOrder : HashMap.Enumeration Int64 (List DataNodeInfo)}

/-! ## What the result is for -/

/-- A location list that has some DataNodes and fewer than the replication asks for. -/
def UnderReplicated (dns : List DataNodeInfo) : Prop := 0 < dns.length ∧ dns.length < kDefaultReplication

/-- The targets the result has for a block. -/
def targetsOf (pairs : List (Block × DataNodeInfo)) (id : Int64) : List DataNodeInfo :=
  (pairs.filter fun p => p.1.blockId = id).map (·.2)

/-- The targets are different registered DataNodes that are not locations yet, as many as are missing or as there
are. -/
structure UsefulTargets (s : FsNamesystem) (dns targets : List DataNodeInfo) : Prop where
  registered : ∀ dn ∈ targets, s.datanodes.lookup dn.name = some dn
  nodup : (targets.map DataNodeInfo.name).Nodup
  new : ∀ dn ∈ targets, dn.name ∉ dns.map DataNodeInfo.name
  count : targets.length = min (kDefaultReplication - dns.length)
    (s.datanodes.keys.filter fun name => name ∉ dns.map DataNodeInfo.name).length

/-- Useful targets for the under-replicated blocks, and nothing for any other block. -/
structure Rereplicates (s : FsNamesystem) (pairs : List (Block × DataNodeInfo)) : Prop where
  useful : ∀ id dns, s.blockToDatanodes.lookup id = some dns → UnderReplicated dns →
    s.UsefulTargets dns (targetsOf pairs id)
  others : ∀ p ∈ pairs, ∃ dns, s.blockToDatanodes.lookup p.1.blockId = some dns ∧ UnderReplicated dns

/-! ## What the code returns -/

theorem chooseTargets_take {replication : Nat} (hr : 0 < replication) :
    s.chooseTargets order replication = (order.values s.datanodes).take replication := by
  rw [chooseTargets, chooseLoop_eq _ _ hr]
  rfl

theorem underReplicated_iff {dns : List DataNodeInfo} :
    dns.length < kDefaultReplication ∧ dns ≠ [] ↔ UnderReplicated dns := by
  rw [UnderReplicated, List.length_pos_iff, and_comm]

theorem mem_getUnderReplicatedBlocks {p : Block × DataNodeInfo}
    (h : p ∈ s.getUnderReplicatedBlocks blockOrder order) :
    ∃ dns, s.blockToDatanodes.lookup p.1.blockId = some dns ∧ UnderReplicated dns := by
  unfold getUnderReplicatedBlocks at h
  obtain ⟨e, he, hp⟩ := List.mem_flatMap.1 h
  split at hp
  · rename_i hunder
    obtain ⟨dn, -, rfl⟩ := List.mem_map.1 hp
    exact ⟨e.2, AList.mem_lookup_iff.2 ((blockOrder.perm _).mem_iff.1 he), underReplicated_iff.1 hunder⟩
  · cases hp

theorem targetsOf_flatMap {α : Type} (l : List α) (f : α → List (Block × DataNodeInfo)) (id : Int64) :
    targetsOf (l.flatMap f) id = l.flatMap fun a => targetsOf (f a) id := by
  unfold targetsOf
  rw [List.filter_flatMap, List.map_flatMap]

theorem targetsOf_map (targets : List DataNodeInfo) (id id' : Int64) :
    targetsOf (targets.map fun dn => ({ blockId := id' }, dn)) id = if id' = id then targets else [] := by
  unfold targetsOf
  rw [List.filter_map, List.map_map]
  by_cases h : id' = id
  · simp [h, Function.comp_def]
  · simp [h, Function.comp_def]

/-- The targets of an under-replicated block are the first DataNodes of the walk, as many as are missing. -/
theorem targetsOf_getUnderReplicatedBlocks {id : Int64} {dns : List DataNodeInfo}
    (hl : s.blockToDatanodes.lookup id = some dns) (hu : UnderReplicated dns) :
    targetsOf (s.getUnderReplicatedBlocks blockOrder order) id =
      (order.values s.datanodes).take (kDefaultReplication - dns.length) := by
  let chosen : List DataNodeInfo → List DataNodeInfo := fun dns =>
    if dns.length < kDefaultReplication ∧ dns ≠ [] then
      s.chooseTargets order (kDefaultReplication - dns.length)
    else []
  have hentry : ∀ e : (_ : Int64) × List DataNodeInfo,
      targetsOf (if e.2.length < kDefaultReplication ∧ e.2 ≠ [] then
          (s.chooseTargets order (kDefaultReplication - e.2.length)).map fun dn => ({ blockId := e.1 }, dn)
        else []) id = if e.1 = id then chosen e.2 else [] := by
    intro e
    by_cases he : e.2.length < kDefaultReplication ∧ e.2 ≠ []
    · rw [if_pos he, targetsOf_map]
      simp only [chosen, if_pos he]
    · rw [if_neg he]
      simp only [chosen, if_neg he, ite_self]
      rfl
  rw [getUnderReplicatedBlocks, targetsOf_flatMap]
  simp only [hentry]
  rw [blockOrder.flatMap_key s.blockToDatanodes id chosen, hl, Option.elim_some]
  simp only [chosen, if_pos (underReplicated_iff.2 hu)]
  exact chooseTargets_take (Nat.sub_pos_of_lt hu.2)

/-- The first DataNodes of a walk are useful targets exactly when none of them is a location. -/
theorem usefulTargets_take_iff (hr : s.RegistryOk) {dns : List DataNodeInfo} :
    s.UsefulTargets dns ((order.values s.datanodes).take (kDefaultReplication - dns.length)) ↔
      ∀ dn ∈ (order.values s.datanodes).take (kDefaultReplication - dns.length),
        dn.name ∉ dns.map DataNodeInfo.name := by
  refine ⟨fun h => h.new, fun hnew => ?_⟩
  have hnodup : (((order.values s.datanodes).take (kDefaultReplication - dns.length)).map DataNodeInfo.name).Nodup :=
    ((List.take_sublist _ _).map _).nodup (nodup_values hr order)
  have hreg : ∀ dn ∈ (order.values s.datanodes).take (kDefaultReplication - dns.length),
      s.datanodes.lookup dn.name = some dn := by
    intro dn hdn
    obtain ⟨name, hl⟩ := HashMap.Enumeration.mem_values.1 (List.mem_of_mem_take hdn)
    rw [hr name dn hl]; exact hl
  refine ⟨hreg, hnodup, hnew, ?_⟩
  -- the targets are among the DataNodes that are not locations, and these among all DataNodes
  have hfree : ((order.values s.datanodes).take (kDefaultReplication - dns.length)).map DataNodeInfo.name ⊆
      s.datanodes.keys.filter fun name => name ∉ dns.map DataNodeInfo.name := by
    intro name hname
    obtain ⟨dn, hdn, rfl⟩ := List.mem_map.1 hname
    refine List.mem_filter.2 ⟨AList.mem_keys.1 ?_, decide_eq_true (hnew dn hdn)⟩
    exact AList.lookup_isSome.1 (by rw [hreg dn hdn]; rfl)
  have hle := (List.subperm_of_subset hnodup hfree).length_le
  have hall := (List.filter_sublist (l := s.datanodes.keys)
    (p := fun name => decide (name ∉ dns.map DataNodeInfo.name))).length_le
  rw [show s.datanodes.keys.length = s.datanodes.entries.length from List.length_map _] at hall
  rw [List.length_map] at hle
  rw [List.length_take, order.length_values] at hle ⊢
  omega

/-- Re-replication does what it should exactly when no location of an under-replicated block comes up among the first
DataNodes of the walk, as many as the block misses. -/
theorem rereplicates_iff (h : Reachable s) (blockOrder : HashMap.Enumeration Int64 (List DataNodeInfo))
    (order : DataNodeOrder) :
    s.Rereplicates (s.getUnderReplicatedBlocks blockOrder order) ↔
      ∀ id dns, s.blockToDatanodes.lookup id = some dns → UnderReplicated dns →
        ∀ dn ∈ (order.values s.datanodes).take (kDefaultReplication - dns.length),
          dn.name ∉ dns.map DataNodeInfo.name := by
  have hr := h.locationsOk.registry
  constructor
  · intro hgood id dns hl hu
    have huseful := hgood.useful id dns hl hu
    rw [targetsOf_getUnderReplicatedBlocks hl hu] at huseful
    exact (usefulTargets_take_iff hr).1 huseful
  · intro hfree
    refine ⟨fun id dns hl hu => ?_, fun p hp => mem_getUnderReplicatedBlocks hp⟩
    rw [targetsOf_getUnderReplicatedBlocks hl hu]
    exact (usefulTargets_take_iff hr).2 (hfree id dns hl hu)

/-- A block reported by the first of three DataNodes. -/
def firstOfThree : FsNamesystem :=
  after perform {} [announce (bytes "a") 1, .blockReport (bytes "a") [{ blockId := 5 }], announce (bytes "b") 2,
    announce (bytes "c") 3]

theorem rereplicates_firstOfThree :
    firstOfThree.Rereplicates (firstOfThree.getUnderReplicatedBlocks .insertion .insertion) ↔
      ∀ id dns, firstOfThree.blockToDatanodes.lookup id = some dns → UnderReplicated dns →
        ∀ dn ∈ (HashMap.Enumeration.insertion.values firstOfThree.datanodes).take (kDefaultReplication - dns.length),
          dn.name ∉ dns.map DataNodeInfo.name :=
  rereplicates_iff (Reachable.fresh.after _) .insertion .insertion

/-- The only DataNode is told to copy to itself the block it holds. -/
theorem target_is_location : ¬ ∀ s, Reachable s → ∀ blockOrder order,
    s.Rereplicates (s.getUnderReplicatedBlocks blockOrder order) := by
  intro h
  have hgood := h oneReporter oneReporter_reachable .insertion .insertion
  have hl : oneReporter.blockToDatanodes.lookup 5 = some (oneReporter.locations 5) := by decide +kernel
  have huseful := hgood.useful 5 _ hl ⟨by decide +kernel, by decide +kernel⟩
  have hcount := huseful.count
  revert hcount
  decide +kernel

end FsNamesystem

end MiniHadoop.Ndfs

/-
The location lists of blocks: which DataNodes the NameNode believes to hold a block. The lists name
registered DataNodes, each once; how long they can get, what a block report makes of them, and that the
reports after a restart recover them.
-/
import MiniHadoop.Ndfs.Operations
import Mathlib.Data.Finset.Card

namespace MiniHadoop.Ndfs

open Text Runs

namespace FsNamesystem

variable {s : FsNamesystem}

/-! ## Well-formed lists -/

/-- DataNodes are registered under their own names, and every location list names registered DataNodes, each
once. -/
structure LocationsOk (s : FsNamesystem) : Prop where
  registry : s.RegistryOk
  nodup : ∀ id, ((s.locations id).map DataNodeInfo.name).Nodup
  registered : ∀ id, ∀ dn ∈ s.locations id, s.Registered dn.name

theorem locations_start (t : INode) (id : Int64) : ({ tree := t } : FsNamesystem).locations id = [] := rfl

theorem registryOk_start (t : INode) : ({ tree := t } : FsNamesystem).RegistryOk := fun _ _ h => by cases h

theorem locationsOk_start (t : INode) : ({ tree := t } : FsNamesystem).LocationsOk :=
  ⟨registryOk_start t, fun _ => List.nodup_nil, fun id dn h => by rw [locations_start] at h; cases h⟩

theorem lookup_of_mem_chooseTargets {order : DataNodeOrder} {dn : DataNodeInfo}
    (h : dn ∈ s.chooseTargets order kDefaultReplication) : ∃ name, s.datanodes.lookup name = some dn := by
  rw [chooseTargets_eq] at h
  exact HashMap.Enumeration.mem_values.1 (List.mem_of_mem_take h)

/-- The DataNodes of a walk have different names. -/
theorem nodup_values (hr : s.RegistryOk) (order : DataNodeOrder) :
    ((order.values s.datanodes).map DataNodeInfo.name).Nodup := by
  have hkeys : (order.values s.datanodes).map DataNodeInfo.name = (order.entries s.datanodes).map (·.1) := by
    rw [HashMap.Enumeration.values, List.map_map]
    refine List.map_congr_left fun e he => ?_
    exact hr _ _ (AList.mem_lookup_iff.2 ((order.perm s.datanodes).mem_iff.1 he))
  rw [hkeys]
  exact ((order.perm s.datanodes).map _).nodup_iff.2 s.datanodes.nodupKeys

theorem nodup_chooseTargets (hr : s.RegistryOk) (order : DataNodeOrder) :
    ((s.chooseTargets order kDefaultReplication).map DataNodeInfo.name).Nodup := by
  rw [chooseTargets_eq]
  exact ((List.take_sublist 3 _).map _).nodup (nodup_values hr order)

theorem LocationsOk.perform (h : s.LocationsOk) (op : Operation) : (s.perform op).LocationsOk := by
  have hreg : ∀ {name}, s.Registered name → (s.perform op).Registered name := fun hn => hn.perform h.registry op
  refine ⟨h.registry.perform op, fun id => ?_, fun id => ?_⟩
  · have hrel := perform_locations h.registry op id
    generalize (s.perform op).locations id = dns at hrel ⊢
    cases hrel with
    | same => exact h.nodup id
    | forgotten => exact List.nodup_nil
    | chosen order => exact nodup_chooseTargets h.registry order
    | pushed hl hnew _ =>
      rw [List.map_append, List.map_singleton, List.nodup_append]
      refine ⟨h.nodup id, List.nodup_singleton _, fun x hx y hy hxy => hnew ?_⟩
      obtain ⟨dn, hdn, rfl⟩ := List.mem_map.1 hx
      rw [List.mem_singleton.1 hy, h.registry _ _ hl] at hxy
      exact ⟨dn, hdn, hxy⟩
  · have hrel := perform_locations h.registry op id
    generalize (s.perform op).locations id = dns at hrel ⊢
    cases hrel with
    | same => exact fun dn hdn => hreg (h.registered id dn hdn)
    | forgotten => exact fun dn hdn => by cases hdn
    | chosen order =>
      intro dn hdn
      obtain ⟨name, hl⟩ := lookup_of_mem_chooseTargets hdn
      exact hreg ⟨dn, by rw [h.registry _ _ hl]; exact hl⟩
    | pushed hl _ _ =>
      intro dn hdn
      rcases List.mem_append.1 hdn with hdn | hdn
      · exact hreg (h.registered id dn hdn)
      · rw [List.mem_singleton.1 hdn, h.registry _ _ hl]; exact hreg ⟨_, hl⟩

theorem locationsOk_after (ops : List Operation) : (after perform {} ops).LocationsOk :=
  @after_keeps _ _ perform {} LocationsOk ops (locationsOk_start emptyTree) fun _ op _ h => h.perform op

/-- In every state of every run every DataNode is registered under its own name, and every list of the block
map names registered DataNodes, each once. -/
theorem location_lists_wellFormed (ops : List Operation) :
    (∀ name dn, (after perform {} ops).datanodes.lookup name = some dn → dn.name = name) ∧
      ∀ id dns, (after perform {} ops).blockToDatanodes.lookup id = some dns →
        (dns.map DataNodeInfo.name).Nodup ∧ ∀ dn ∈ dns, ((after perform {} ops).datanodes.lookup dn.name).isSome := by
  have h := locationsOk_after ops
  refine ⟨h.registry, fun id dns hl => ?_⟩
  have hloc : (after perform {} ops).locations id = dns := by
    unfold locations HashMap.slot
    rw [hl]; rfl
  refine ⟨hloc ▸ h.nodup id, fun dn hdn => ?_⟩
  obtain ⟨info, hinfo⟩ := h.registered id dn (hloc ▸ hdn)
  rw [hinfo]; rfl

theorem Reachable.locationsOk (h : Reachable s) : s.LocationsOk :=
  h.invariant (fun t _ => locationsOk_start t) fun _ op _ ih => ih.perform op

/-! ## The replication limit -/

/-- No location list is longer than the replication. -/
def WithinLimit (s : FsNamesystem) : Prop := ∀ id, (s.locations id).length ≤ kDefaultReplication

/-- The call is no confirmation that would push a DataNode onto a full list. -/
def RespectsLimit (s : FsNamesystem) : Operation → Prop
  | .blockReceived dnName block _ => s.Registered dnName → ¬ s.Listed dnName block.blockId →
      (s.locations block.blockId).length < kDefaultReplication
  | _ => True

theorem WithinLimit.perform (hr : s.RegistryOk) (h : s.WithinLimit) {op : Operation} (hop : s.RespectsLimit op) :
    (s.perform op).WithinLimit := by
  intro id
  have hrel := perform_locations hr op id
  generalize (s.perform op).locations id = dns at hrel ⊢
  cases hrel with
  | same => exact h id
  | forgotten => exact Nat.zero_le _
  | chosen order => rw [length_chooseTargets]; exact Nat.min_le_left ..
  | pushed hl hnew hroom =>
    rw [List.length_append, List.length_singleton]
    rcases hroom with hroom | ⟨block, delHint, rfl, rfl⟩
    · exact hroom
    · exact hop ⟨_, hl⟩ hnew

theorem RespectsLimit.of_perform (op : Operation) (h : (s.perform op).WithinLimit) : s.RespectsLimit op := by
  cases op with
  | blockReceived dnName block delHint =>
    rintro ⟨dn, hl⟩ hnew
    have hlen := h block.blockId
    rw [perform, locations_blockReceived hl, if_pos, List.length_append, List.length_singleton] at hlen
    · exact hlen
    · refine ⟨rfl, ?_⟩
      rw [Bool.not_eq_true', Bool.eq_false_iff]
      exact fun hany => hnew (any_name_eq_true.1 hany)
  | startFile | addBlock | delete | mkdirs | registerDataNode | heartbeat | blockReport | enterSafeMode
  | updateSafeMode | addLease | removeLease | checkLeases => trivial

/-- The limit holds along a run exactly when no confirmation in it comes from a registered DataNode that is
not a location yet of a block with three locations. -/
theorem withinLimit_iff (ops : List Operation) :
    (∀ pre, pre <+: ops → (after perform {} pre).WithinLimit) ↔
      ∀ pre op, pre ++ [op] <+: ops → (after perform {} pre).RespectsLimit op := by
  refine after_good_iff (fun _ => Nat.zero_le _) fun pre op _ hgood => ⟨RespectsLimit.of_perform op, fun hop => ?_⟩
  exact hgood.perform (locationsOk_after pre).registry hop

/-- The first heartbeat of a DataNode at a local port. -/
def announce (name : Bytes) (port : Int32) : Operation := .heartbeat 0 name (bytes "127.0.0.1") port 100 100

/-- Four DataNodes: a block of a new file goes to three of them, and the fourth confirms it too. -/
def fourConfirmations : List Operation :=
  [announce (bytes "a") 1, announce (bytes "b") 2, announce (bytes "c") 3, announce (bytes "d") 4,
    .startFile 7 .insertion (bytes "/f") true, .blockReceived (bytes "a") { blockId := 7 } []]

theorem limit_exceeded : ¬ ∀ ops, (after perform {} ops).WithinLimit := by
  intro h
  have hlen : ((after perform {} fourConfirmations).locations 7).length = 4 := by decide +kernel
  have := h fourConfirmations 7
  rw [hlen] at this
  exact absurd this (by decide)

/-! ## Block reports -/

/-- The report replaces what the NameNode believes about the DataNode: afterwards it is listed for reported
blocks only, and the entries of the other DataNodes are as before. -/
def ReportReplaces (s : FsNamesystem) (dnName : Bytes) (blocks : List Block) : Prop :=
  (∀ id, (s.blockReport dnName blocks).Listed dnName id → id ∈ blocks.map Block.blockId) ∧
    ∀ id, ((s.blockReport dnName blocks).locations id).filter (·.name ≠ dnName) =
      (s.locations id).filter (·.name ≠ dnName)

theorem filter_withReporter {dnName : Bytes} {dn : DataNodeInfo} (hn : dn.name = dnName) (dns : List DataNodeInfo) :
    (withReporter dnName dn dns).filter (·.name ≠ dnName) = dns.filter (·.name ≠ dnName) := by
  unfold withReporter
  split
  · rw [List.filter_append, List.filter_cons_of_neg (by simp [hn]), List.filter_nil, List.append_nil]
  · rfl

/-- A block report replaces the NameNode's belief exactly when it names every block the DataNode is listed
for: nothing is ever taken out of a list. -/
theorem reportReplaces_iff (h : Reachable s) {dnName : Bytes} (hreg : s.Registered dnName) (blocks : List Block) :
    s.ReportReplaces dnName blocks ↔ ∀ id, s.Listed dnName id → id ∈ blocks.map Block.blockId := by
  have hr := h.locationsOk.registry
  obtain ⟨dn, hl⟩ := hreg
  constructor
  · rintro ⟨honly, -⟩ id ⟨x, hx, hname⟩
    exact honly id ⟨x, (blockReport_locations s dnName blocks id).subset hx, hname⟩
  · intro hnamed
    refine ⟨fun id hlisted => ?_, fun id => ?_⟩
    · by_contra hid
      obtain ⟨x, hx, hname⟩ := hlisted
      rw [locations_blockReport hr hl, if_neg hid] at hx
      exact hid (hnamed id ⟨x, hx, hname⟩)
    · rw [locations_blockReport hr hl]
      split
      · exact filter_withReporter (hr _ _ hl) _
      · rfl

/-- One DataNode that has reported the block 5. -/
def oneReporter : FsNamesystem :=
  after perform {} [announce (bytes "a") 1, .blockReport (bytes "a") [{ blockId := 5 }]]

theorem oneReporter_reachable : Reachable oneReporter := Reachable.fresh.after _

theorem oneReporter_registered : oneReporter.Registered (bytes "a") :=
  Option.isSome_iff_exists.1 (by decide +kernel)

theorem reportReplaces_oneReporter :
    oneReporter.ReportReplaces (bytes "a") [{ blockId := 5 }, { blockId := 6 }] ↔
      ∀ id, oneReporter.Listed (bytes "a") id → id ∈ [{ blockId := 5 }, { blockId := 6 }].map Block.blockId :=
  reportReplaces_iff oneReporter_reachable oneReporter_registered _

/-- A DataNode that has lost its block and reports none stays listed for it. -/
theorem report_keeps_lost_block : ¬ ∀ s, Reachable s → ∀ dnName, s.Registered dnName → ∀ blocks,
    s.ReportReplaces dnName blocks := by
  intro h
  have hlisted : (oneReporter.blockReport (bytes "a") []).Listed (bytes "a") 5 :=
    any_name_eq_true.1 (by decide +kernel)
  have := (h oneReporter oneReporter_reachable (bytes "a") oneReporter_registered []).1 5 hlisted
  cases this

/-! ## Recovery after a restart -/

/-- The messages a NameNode gets after a restart from DataNodes that hold `stored`: heartbeats at any time,
and from every DataNode, once it has sent a heartbeat, one report of its blocks. -/
structure Restart (dns : Finset Bytes) (stored : Bytes → List Block) (ops : List Operation) : Prop where
  messages : ∀ op ∈ ops, (∃ now dnName host port capacity remaining,
      op = .heartbeat now dnName host port capacity remaining) ∨ ∃ dn ∈ dns, op = .blockReport dn (stored dn)
  reports : ∀ dn ∈ dns, Operation.blockReport dn (stored dn) ∈ ops
  order : ∀ pre dn, pre ++ [.blockReport dn (stored dn)] <+: ops →
    (∃ now host port capacity remaining, .heartbeat now dn host port capacity remaining ∈ pre) ∧
      Operation.blockReport dn (stored dn) ∉ pre

/-- The DataNodes that hold a block. -/
def holders (dns : Finset Bytes) (stored : Bytes → List Block) (id : Int64) : Finset Bytes :=
  dns.filter fun dn => id ∈ (stored dn).map Block.blockId

open Classical in
/-- The DataNodes that have reported a block so far. -/
noncomputable def reporters (dns : Finset Bytes) (stored : Bytes → List Block) (pre : List Operation) (id : Int64) :
    Finset Bytes :=
  (holders dns stored id).filter fun dn => Operation.blockReport dn (stored dn) ∈ pre

section Recovery

variable {dns : Finset Bytes} {stored : Bytes → List Block} {pre ops : List Operation} {id : Int64}

theorem mem_reporters {dn : Bytes} : dn ∈ reporters dns stored pre id ↔
    dn ∈ holders dns stored id ∧ Operation.blockReport dn (stored dn) ∈ pre := by
  classical
  unfold reporters
  exact Finset.mem_filter

/-- Only a report by a holder adds to the reporters of a block. -/
theorem reporters_snoc_other {op : Operation}
    (h : ∀ dn ∈ holders dns stored id, op ≠ .blockReport dn (stored dn)) :
    reporters dns stored (pre ++ [op]) id = reporters dns stored pre id := by
  ext dn
  rw [mem_reporters, mem_reporters]
  refine and_congr_right fun hdn => ?_
  rw [List.mem_append, List.mem_singleton]
  exact ⟨fun hm => hm.resolve_right fun heq => h dn hdn heq.symm, .inl⟩

theorem reporters_snoc_report {dn : Bytes} (hdn : dn ∈ holders dns stored id) :
    reporters dns stored (pre ++ [.blockReport dn (stored dn)]) id = insert dn (reporters dns stored pre id) := by
  ext x
  rw [mem_reporters, Finset.mem_insert, mem_reporters, List.mem_append, List.mem_singleton]
  constructor
  · rintro ⟨hx, hpre | heq⟩
    · exact .inr ⟨hx, hpre⟩
    · injection heq with hname; exact .inl hname
  · rintro (rfl | ⟨hx, hpre⟩)
    · exact ⟨hdn, .inr rfl⟩
    · exact ⟨hx, .inl hpre⟩

/-- What holds after a part of the messages: every list names as many of the DataNodes that have reported its
block as the limit allows. -/
structure Recovering (t : INode) (dns : Finset Bytes) (stored : Bytes → List Block) (pre : List Operation)
    (s : FsNamesystem) : Prop where
  tree : s.tree = t
  ok : s.LocationsOk
  heard : ∀ now dn host port capacity remaining, .heartbeat now dn host port capacity remaining ∈ pre →
    s.Registered dn
  truthful : ∀ id, ∀ dn ∈ s.locations id, dn.name ∈ reporters dns stored pre id
  count : ∀ id, (s.locations id).length = min kDefaultReplication (reporters dns stored pre id).card

theorem recovering_start (t : INode) : Recovering t dns stored [] { tree := t } := by
  refine ⟨rfl, locationsOk_start t, fun _ _ _ _ _ _ h => (by cases h), fun id dn h => ?_, fun id => ?_⟩
  · rw [locations_start] at h; cases h
  · have hnone : reporters dns stored [] id = ∅ := by
      refine Finset.eq_empty_of_forall_notMem fun dn hdn => ?_
      cases (mem_reporters.1 hdn).2
    rw [locations_start, hnone, Finset.card_empty]; rfl

theorem Recovering.heartbeat {t : INode} (h : Recovering t dns stored pre s) (now : Int64) (dnName host : Bytes)
    (port : Int32) (capacity remaining : Int64) :
    Recovering t dns stored (pre ++ [.heartbeat now dnName host port capacity remaining])
      (s.perform (.heartbeat now dnName host port capacity remaining)) := by
  have hrep : ∀ id, reporters dns stored (pre ++ [.heartbeat now dnName host port capacity remaining]) id =
      reporters dns stored pre id := fun id => reporters_snoc_other fun _ _ heq => by cases heq
  refine ⟨h.tree, h.ok.perform _, ?_, fun id => ?_, fun id => ?_⟩
  · intro now' dn' host' port' capacity' remaining' hmem
    rcases List.mem_append.1 hmem with hold | hnew
    · exact (h.heard _ _ _ _ _ _ hold).perform h.ok.registry _
    · cases List.mem_singleton.1 hnew
      unfold Registered perform FsNamesystem.heartbeat
      exact ⟨_, by rw [HashMap.lookup_insert_eq, if_pos rfl]⟩
  · rw [hrep]; exact h.truthful id
  · rw [hrep]; exact h.count id

/-- A report that is its DataNode's first adds the DataNode to the lists of its blocks that are not full. -/
theorem Recovering.report {t : INode} (h : Recovering t dns stored pre s) {dnName : Bytes} (hdn : dnName ∈ dns)
    (hreg : s.Registered dnName) (hfirst : Operation.blockReport dnName (stored dnName) ∉ pre) :
    Recovering t dns stored (pre ++ [.blockReport dnName (stored dnName)])
      (s.perform (.blockReport dnName (stored dnName))) := by
  obtain ⟨dn, hl⟩ := hreg
  have hname : dn.name = dnName := h.ok.registry _ _ hl
  have hloc := locations_blockReport h.ok.registry hl (stored dnName)
  have hnot : ∀ id, dnName ∉ reporters dns stored pre id := fun id hin => hfirst (mem_reporters.1 hin).2
  have hnew : ∀ id, ¬ s.Listed dnName id := by
    rintro id ⟨x, hx, rfl⟩
    exact hnot id (h.truthful id x hx)
  have hlist : ∀ id,
      (∀ x ∈ (s.blockReport dnName (stored dnName)).locations id,
        x.name ∈ reporters dns stored (pre ++ [.blockReport dnName (stored dnName)]) id) ∧
      ((s.blockReport dnName (stored dnName)).locations id).length =
        min kDefaultReplication (reporters dns stored (pre ++ [.blockReport dnName (stored dnName)]) id).card := by
    intro id
    rw [hloc]
    by_cases hid : id ∈ (stored dnName).map Block.blockId
    · have hany : (s.locations id).any (·.name = dnName) = false :=
        Bool.eq_false_iff.2 fun hany => hnew id (any_name_eq_true.1 hany)
      have hcount := h.count id
      rw [if_pos hid, reporters_snoc_report (Finset.mem_filter.2 ⟨hdn, hid⟩),
        Finset.card_insert_of_notMem (hnot id), withReporter, hany]
      simp only [Bool.not_false, Bool.true_and, decide_eq_true_eq]
      split
      · refine ⟨fun x hx => ?_, by rw [List.length_append, List.length_singleton]; omega⟩
        rcases List.mem_append.1 hx with hold | hthis
        · exact Finset.mem_insert_of_mem (h.truthful id x hold)
        · rw [List.mem_singleton.1 hthis, hname]; exact Finset.mem_insert_self ..
      · exact ⟨fun x hx => Finset.mem_insert_of_mem (h.truthful id x hx), by omega⟩
    · rw [if_neg hid, reporters_snoc_other]
      · exact ⟨h.truthful id, h.count id⟩
      · rintro x hx heq
        injection heq with hxn
        exact hid (hxn ▸ (Finset.mem_filter.1 hx).2)
  refine ⟨(blockReport_tree s dnName (stored dnName)).trans h.tree, h.ok.perform _, ?_,
    fun id => (hlist id).1, fun id => (hlist id).2⟩
  intro now' dn' host' port' capacity' remaining' hmem
  rcases List.mem_append.1 hmem with hold | hbad
  · exact (h.heard _ _ _ _ _ _ hold).perform h.ok.registry _
  · cases List.mem_singleton.1 hbad

theorem Restart.recovering (t : INode) (h : Restart dns stored ops) :
    Recovering t dns stored ops (after perform { tree := t } ops) := by
  refine after_invariant (recovering_start t) (fun pre op hpre hrec => ?_) ops (List.prefix_refl _)
  rcases h.messages op (hpre.subset (by simp)) with ⟨now, dnName, host, port, capacity, remaining, rfl⟩ | ⟨dn, hdn, rfl⟩
  · exact hrec.heartbeat now dnName host port capacity remaining
  · obtain ⟨⟨now, host, port, capacity, remaining, hheard⟩, hfirst⟩ := h.order pre dn hpre
    exact hrec.report hdn (hrec.heard _ _ _ _ _ _ hheard) hfirst

/-- The locations are those of a recovered block: as many of the DataNodes that hold it as the limit allows,
each once. -/
structure Recovered (dns : Finset Bytes) (stored : Bytes → List Block) (id : Int64) (locs : List DataNodeInfo) :
    Prop where
  count : locs.length = min kDefaultReplication (holders dns stored id).card
  nodup : (locs.map DataNodeInfo.name).Nodup
  truthful : ∀ dn ∈ locs, dn.name ∈ holders dns stored id

/-- After a restart with any tree and any order of the messages, `GetBlocks` lists recovered locations for
every block of every file. -/
theorem locations_recovered (t : INode) (h : Restart dns stored ops) {path : Bytes} {bl : List Int64}
    (hf : entryAt t (splitPath path) = some ⟨.kFile, bl⟩) :
    ((after perform { tree := t } ops).getBlocks path).blocks.map Block.blockId = bl ∧
      List.Forall₂ (fun b locs => Recovered dns stored b.blockId locs)
        ((after perform { tree := t } ops).getBlocks path).blocks
        ((after perform { tree := t } ops).getBlocks path).locations := by
  have hrec := h.recovering t
  have hall : ∀ id, reporters dns stored ops id = holders dns stored id := by
    intro id
    ext dn
    rw [mem_reporters]
    exact ⟨fun hdn => hdn.1, fun hdn => ⟨hdn, h.reports dn (Finset.mem_filter.1 hdn).1⟩⟩
  rw [getBlocks_file (by rw [hrec.tree]; exact hf)]
  constructor
  · rw [List.map_map]; exact List.map_id _
  · rw [List.forall₂_map_left_iff, List.forall₂_map_right_iff, List.forall₂_same]
    intro id _
    exact ⟨hall id ▸ hrec.count id, hrec.ok.nodup id, fun dn hdn => hall id ▸ hrec.truthful id dn hdn⟩

/-- Two DataNodes with the block 5, which one of them holds and reports twice. -/
def twoHolders (dn : Bytes) : List Block :=
  if dn = bytes "a" then [{ blockId := 5 }, { blockId := 5 }] else [{ blockId := 5 }]

def twoReports : List Operation :=
  [announce (bytes "b") 2, announce (bytes "a") 1, .blockReport (bytes "a") [{ blockId := 5 }, { blockId := 5 }],
    announce (bytes "a") 1, .blockReport (bytes "b") [{ blockId := 5 }]]

theorem twoReports_restart : Restart {bytes "a", bytes "b"} twoHolders twoReports where
  messages op hop := by
    simp only [twoReports, announce, List.mem_cons, List.not_mem_nil, or_false] at hop
    rcases hop with rfl | rfl | rfl | rfl | rfl
    · exact .inl ⟨_, _, _, _, _, _, rfl⟩
    · exact .inl ⟨_, _, _, _, _, _, rfl⟩
    · exact .inr ⟨bytes "a", by decide, rfl⟩
    · exact .inl ⟨_, _, _, _, _, _, rfl⟩
    · exact .inr ⟨bytes "b", by decide, rfl⟩
  reports dn hdn := by
    rw [Finset.mem_insert, Finset.mem_singleton] at hdn
    rcases hdn with rfl | rfl
    · exact List.mem_of_getElem? (i := 2) rfl
    · exact List.mem_of_getElem? (i := 4) rfl
  order pre dn hpre := by
    obtain ⟨post, hp⟩ := hpre
    have hat : twoReports[pre.length]? = some (.blockReport dn (twoHolders dn)) := by rw [← hp]; simp
    have hpre : pre = twoReports.take pre.length := by rw [← hp]; simp
    generalize pre.length = n at hat hpre
    subst hpre
    match n with
    | 0 | 1 | 3 => injection hat with hop; cases hop
    | 2 =>
      injection hat with hop
      injection hop with hdn
      subst hdn
      refine ⟨⟨_, _, _, _, _, List.mem_of_getElem? (i := 1) rfl⟩, ?_⟩
      simp [twoReports, announce]
    | 4 =>
      injection hat with hop
      injection hop with hdn
      subst hdn
      refine ⟨⟨_, _, _, _, _, List.mem_of_getElem? (i := 0) rfl⟩, ?_⟩
      simp [twoReports, announce, show bytes "b" ≠ bytes "a" by decide]
    | n + 5 => cases hat

/-- A tree with one file, of one block. -/
def oneBlockTree : INode := .mk .kDirectory [] [] [.mk .kFile (bytes "f") [5] []]

theorem locations_recovered_twoReports :
    ((after perform { tree := oneBlockTree } twoReports).getBlocks (bytes "/f")).blocks.map Block.blockId = [5] ∧
      List.Forall₂ (fun b locs => Recovered {bytes "a", bytes "b"} twoHolders b.blockId locs)
        ((after perform { tree := oneBlockTree } twoReports).getBlocks (bytes "/f")).blocks
        ((after perform { tree := oneBlockTree } twoReports).getBlocks (bytes "/f")).locations :=
  locations_recovered oneBlockTree twoReports_restart (by decide +kernel)

end Recovery

end FsNamesystem

end MiniHadoop.Ndfs

/-
What is never given back. `Delete`, an overwrite and a return to an older image take a file out of the namespace, but
nothing in the system removes a block file: the disks of the DataNodes hold every chunk that was ever written, each at
one DataNode. And a NameNode that has started again lists the blocks of all files that there ever were, once the
DataNodes have reported to it.
-/
import MiniHadoop.Ndfs.Persistence

namespace MiniHadoop.Ndfs

open Text Wire Chunks Runs

/-! ## What was written -/

/-- The blocks that an incident makes, with their chunks. -/
def Incident.blocks (blockSize : Int64) : Incident → List (Int64 × Bytes)
  | .call (.write _ data env) =>
    (turnIds env 0 (blockCount blockSize data)).zip (chunks (chunkLen blockSize) data.1)
  | _ => []

/-- The bytes that an incident writes. -/
def Incident.size : Incident → Nat
  | .call (.write _ data _) => data.1.length
  | _ => 0

def Incident.isCall : Incident → Bool
  | .call _ => true
  | _ => false

section Blocks

variable {blockSize : Int64} {data : Buffer} {env : Nat → ChunkEnv}

theorem length_turnIds (env : Nat → ChunkEnv) (n m : Nat) : (turnIds env n m).length = m := by
  rw [turnIds, List.length_map, List.length_range]

theorem map_fst_blocks (path : Bytes) : ((Incident.call (.write path data env)).blocks blockSize).map Prod.fst =
    turnIds env 0 (blockCount blockSize data) := by
  refine List.map_fst_zip ?_
  rw [length_turnIds, length_chunks, blockCount]

/-- The chunks of a write are its data. -/
theorem sum_blocks (hb : 0 < blockSize) (i : Incident) :
    ((i.blocks blockSize).map fun b => b.2.length).sum = i.size := by
  cases i with
  | call k =>
    cases k with
    | write path data env =>
      have hchunks : ((Incident.call (.write path data env)).blocks blockSize).map Prod.snd =
          chunks (chunkLen blockSize) data.1 := by
        refine List.map_snd_zip ?_
        rw [length_turnIds, length_chunks, blockCount]
      have hflatten := congrArg List.length (flatten_chunks (chunkLen_pos hb) data.1)
      rw [List.length_flatten, ← hchunks, List.map_map] at hflatten
      exact hflatten
    | mkdirs path => rfl
    | delete path => rfl
  | heartbeat | boot | save | restart => rfl

theorem FreshIds.nodup {c : Cluster} {n m : Nat} (h : FreshIds c env n m) : (turnIds env n m).Nodup := by
  refine (List.nodup_map_iff_inj_on List.nodup_range).2 fun i hi j hj heq => ?_
  exact h.distinct i (List.mem_range.1 hi) j (List.mem_range.1 hj) heq

end Blocks

/-! ## The disks -/

/-- The disks hold the blocks, each at one of the DataNodes and nowhere else, and what else there was before. -/
structure Holdings (dns : List DataNode) (before stores : Address → BlockStorage) (blocks : List (Int64 × Bytes)) :
    Prop where
  ids : (blocks.map Prod.fst).Nodup
  placed : ∀ b ∈ blocks, ∃ dn ∈ dns, ∀ address,
    (stores address).held b.1 = if address = dn.address then some b.2 else none
  others : ∀ id, id ∉ blocks.map Prod.fst → ∀ address, (stores address).held id = (before address).held id

section Steps

variable {blockSize : Int64} {dns : List DataNode} {d d' : Deployment} {s : Snapshots}
  {before : Address → BlockStorage} {blocks : List (Int64 × Bytes)} {path : Bytes} {data : Buffer}
  {env : Nat → ChunkEnv} {dn : DataNode} {booted : List DataNode}

theorem Holdings.nil (dns : List DataNode) (before : Address → BlockStorage) : Holdings dns before before [] :=
  ⟨List.nodup_nil, fun _ hb => absurd hb List.not_mem_nil, fun _ _ _ => rfl⟩

/-- A block that is held is somewhere. -/
theorem Holdings.somewhere (h : Holdings dns before d.cluster.stores blocks) {b : Int64 × Bytes} (hb : b ∈ blocks) :
    ∃ address, (d.cluster.stores address).held b.1 = some b.2 := by
  obtain ⟨dn, -, hheld⟩ := h.placed b hb
  exact ⟨dn.address, (hheld _).trans (if_pos rfl)⟩

/-- A turn of a healthy write has placed its chunk at one of the DataNodes, and nowhere else. -/
theorem RegistryOf.placed {c c' : Cluster} {cs : List Bytes} (h : RegistryOf dns c.ns) (hp : Placed env 0 cs c c')
    (hhealthy : ∀ i < cs.length, (env i).Healthy) (hs : c.ns.inSafeMode = false) {j : Nat} {chunk : Bytes}
    (hj : cs[j]? = some chunk) :
    ∃ dn ∈ dns, ∀ address, (c'.stores address).held (env j).id = if address = dn.address then some chunk else none := by
  have hlt : j < cs.length := (List.getElem?_eq_some_iff.1 hj).1
  have hheld := hp.blocks j chunk hj
  rw [Nat.zero_add, (hhealthy j hlt).stored chunk] at hheld
  obtain ⟨info, rest, htargets⟩ : ∃ info rest, c.targets (env j) = info :: rest :=
    List.exists_cons_of_ne_nil (FsNamesystem.chooseTargets_ne_nil (datanodes_of_not_safe hs) _)
  have hmem : info ∈ c.targets (env j) := by
    rw [htargets]
    exact List.mem_cons_self ..
  rw [Cluster.targets, FsNamesystem.chooseTargets_eq] at hmem
  obtain ⟨name, hl⟩ := HashMap.Enumeration.mem_values.1 (List.mem_of_mem_take hmem)
  obtain ⟨dn, hdn, -, -, haddress⟩ := h name info hl
  refine ⟨dn, hdn, fun address => ?_⟩
  rw [hheld, htargets, List.head?_cons, Option.map_some, haddress]
  simp only [Option.some.injEq, eq_comm]

/-- A healthy write adds its blocks to the disks. -/
theorem Holdings.write (hb : 0 < blockSize) (h : Holdings dns before d.cluster.stores blocks) (hkept : Kept dns d s)
    (hs : d.cluster.ns.inSafeMode = false) (hw : HealthyWrite blockSize d.cluster path data env) {c' : Cluster}
    {st : Status} (hrun : d.cluster.writeFile blockSize path data true env = some (c', st)) :
    Holdings dns before c'.stores (blocks ++ (Incident.call (.write path data env)).blocks blockSize) := by
  obtain ⟨c'', hrun', hplaced, -⟩ := writeFile_accepted (chunkLen_pos hb) hkept.live.tree
    (hw.admissible.accepts hs) hw.nonempty (fun i hi => (hw.healthy i hi).rpc) hw.fresh
  rw [hrun'] at hrun
  cases hrun
  have hlen : (chunks (chunkLen blockSize) data.1).length = blockCount blockSize data := length_chunks _ _
  have hfst := @map_fst_blocks blockSize data env path
  -- the ids of the write were nowhere
  have hnew : ∀ b ∈ blocks, b.1 ∉ turnIds env 0 (blockCount blockSize data) := by
    intro b hb hid
    obtain ⟨i, hi, heq⟩ := mem_turnIds.1 hid
    obtain ⟨address, hheld⟩ := h.somewhere hb
    rw [← heq, (hw.fresh.fresh i hi).stores address] at hheld
    cases hheld
  have hsame : ∀ id, id ∉ turnIds env 0 (blockCount blockSize data) → ∀ address,
      (c'.stores address).held id = (d.cluster.stores address).held id :=
    fun id hid => hplaced.keptBlocks id (by rw [hlen]; exact hid)
  refine ⟨?_, fun b hb => ?_, fun id hid address => ?_⟩
  · rw [List.map_append, hfst]
    refine List.nodup_append'.2 ⟨h.ids, hw.fresh.nodup, fun id hid hid' => ?_⟩
    obtain ⟨b, hb, rfl⟩ := List.mem_map.1 hid
    exact hnew b hb hid'
  · rcases List.mem_append.1 hb with hb | hb
    · obtain ⟨dn, hdn, hheld⟩ := h.placed b hb
      exact ⟨dn, hdn, fun address => (hsame b.1 (hnew b hb) address).trans (hheld address)⟩
    · obtain ⟨j, hj⟩ := List.mem_iff_getElem?.1 hb
      obtain ⟨hid, hchunk⟩ := List.getElem?_zip_eq_some.1 hj
      obtain ⟨i, hi, heq⟩ : ∃ i, (List.range (blockCount blockSize data))[j]? = some i ∧ (env (0 + i)).id = b.1 := by
        rw [turnIds, List.getElem?_map, Option.map_eq_some_iff] at hid
        exact hid
      obtain ⟨hlt, rfl⟩ := List.getElem?_eq_some_iff.1 hi
      rw [List.getElem_range] at heq
      rw [Nat.zero_add] at heq
      rw [← heq]
      exact hkept.registry.placed hplaced (fun i hi => hw.healthy i (hlen ▸ hi)) hs hchunk
  · rw [List.map_append, hfst, List.mem_append, not_or] at hid
    rw [hsame id hid.2, h.others id hid.1]

/-- The start of a DataNode changes no store. -/
theorem startDataNode_stores {c c' : Cluster} {dn : DataNode} {boot : Boot} (h : c.startDataNode dn boot = .ok c') :
    c'.stores = c.stores := by
  unfold Cluster.startDataNode Cluster.sendBlockReport at h
  cases hreport : ((c.sendHeartbeat dn boot.now boot.capacity boot.remaining boot.heartbeat).stores
      dn.address).getBlockReport boot.order with
  | error e =>
    rw [hreport] at h
    cases h
  | ok reported =>
    rw [hreport] at h
    cases h
    rfl

/-- Nothing but a call of the client changes a store. -/
theorem step_stores {i : Incident} (hi : i.isCall = false) (h : d.step blockSize i = some d') :
    d'.cluster.stores = d.cluster.stores := by
  cases i with
  | call k => cases hi
  | heartbeat | save =>
    cases h
    rfl
  | boot dn boot =>
    obtain ⟨c, hc, rfl⟩ := Option.map_eq_some_iff.1 h
    cases hstart : d.cluster.startDataNode dn boot with
    | error e =>
      rw [hstart] at hc
      cases hc
    | ok c' =>
      rw [hstart] at hc
      cases hc
      exact startDataNode_stores hstart
  | restart =>
    obtain ⟨ns, -, rfl⟩ := Option.map_eq_some_iff.1 h
    rfl

theorem blocks_of_not_call {i : Incident} (hi : i.isCall = false) : i.blocks blockSize = [] := by
  cases i with
  | call k => cases hi
  | heartbeat | boot | save | restart => rfl

/-- Every incident leaves on the disks what is there, and adds what it writes. -/
theorem Holdings.step (hb : 0 < blockSize) (h : Holdings dns before d.cluster.stores blocks) (hkept : Kept dns d s)
    {i : Incident} (hstep : DeploymentStep blockSize dns d i d') :
    Holdings dns before d'.cluster.stores (blocks ++ i.blocks blockSize) := by
  obtain ⟨hok, hrun⟩ := hstep
  cases hcall : i.isCall with
  | false =>
    rw [step_stores hcall hrun, blocks_of_not_call hcall, List.append_nil]
    exact h
  | true =>
    cases i with
    | call k =>
      cases k with
      | write path data env =>
        obtain ⟨⟨c', st⟩, hwrite, rfl⟩ := Option.map_eq_some_iff.1 hrun
        exact h.write hb hkept hok.1 hok.2.1 hwrite
      | mkdirs | delete =>
        cases hrun
        rw [show Incident.blocks blockSize (.call _) = [] from rfl, List.append_nil]
        exact h
    | heartbeat | boot | save | restart => cases hcall

theorem Holdings.run {d₀ : Deployment} {incidents : List Incident} (hb : 0 < blockSize) (h₀ : d₀.New dns)
    (h : Run (DeploymentStep blockSize dns) d₀ incidents d) :
    Kept dns d (after Snapshots.apply {} incidents) ∧
      Holdings dns d₀.cluster.stores d.cluster.stores (incidents.flatMap (Incident.blocks blockSize)) := by
  refine @Run.invariant _ _ _ (fun es d => Kept dns d (after Snapshots.apply {} es) ∧
    Holdings dns d₀.cluster.stores d.cluster.stores (es.flatMap (Incident.blocks blockSize))) _ _ _ h
    ⟨h₀.kept, .nil dns _⟩ ?_
  rintro es d i d' ⟨hkept, hholdings⟩ hstep
  constructor
  · rw [after_snoc]
    exact Kept.step hb d i d' _ hkept hstep
  · rw [List.flatMap_append, List.flatMap_singleton]
    exact hholdings.step hb hkept hstep

/-- After any history the disks hold exactly the chunks of all its writes, of files that are gone too: each at one
DataNode and nowhere else, and together they are as long as all that was written. -/
theorem disks_keep_every_write {d₀ : Deployment} {incidents : List Incident} (hb : 0 < blockSize) (h₀ : d₀.New dns)
    (h : Run (DeploymentStep blockSize dns) d₀ incidents d) :
    Holdings dns d₀.cluster.stores d.cluster.stores (incidents.flatMap (Incident.blocks blockSize)) ∧
      ((incidents.flatMap (Incident.blocks blockSize)).map fun b => b.2.length).sum =
        (incidents.map Incident.size).sum := by
  refine ⟨(Holdings.run hb h₀ h).2, ?_⟩
  rw [List.map_flatMap, List.flatMap_def, List.sum_flatten, List.map_map]
  exact congrArg List.sum (List.map_congr_left fun i _ => sum_blocks hb i)

/-! ## The block map after a restart -/

/-- Located are blocks that a DataNode has, and of those the blocks of all DataNodes that have reported. -/
structure Reporting (dns : List DataNode) (d : Deployment) (booted : List DataNode) : Prop where
  held : ∀ id, d.cluster.ns.locations id ≠ [] → ∃ dn ∈ dns, ((d.cluster.stores dn.address).held id).isSome
  listed : ∀ dn ∈ booted, ∀ id, ((d.cluster.stores dn.address).held id).isSome → d.cluster.ns.locations id ≠ []

theorem Reporting.report (h : Reporting dns d booted) (hkept : Kept dns d s) (hdn : dn ∈ dns) {info : DataNodeInfo}
    {reported : List Block} (hl : d.cluster.ns.datanodes.lookup dn.name = some info)
    (hreported : ∀ id, id ∈ reported.map Block.blockId ↔ ((d.cluster.stores dn.address).held id).isSome) :
    Reporting dns { d with cluster := { d.cluster with ns := d.cluster.ns.blockReport dn.name reported } }
      (dn :: booted) := by
  have hloc := fun id => FsNamesystem.locations_blockReport hkept.registry.registryOk hl reported id
  constructor
  · intro id hne
    by_cases hid : id ∈ reported.map Block.blockId
    · exact ⟨dn, hdn, (hreported id).1 hid⟩
    · rw [hloc, if_neg hid] at hne
      exact h.held id hne
  · intro dn' hdn' id hheld
    rcases List.mem_cons.1 hdn' with rfl | hdn'
    · rw [hloc, if_pos ((hreported id).2 hheld)]
      exact withReporter_ne_nil _ _ _
    · have hgrow := FsNamesystem.blockReport_locations d.cluster.ns dn.name reported id
      exact fun hnil => h.listed dn' hdn' id hheld (List.prefix_nil.1 (hnil ▸ hgrow))

theorem Reporting.forget (h : Reporting dns d (dn :: booted)) : Reporting dns d booted :=
  ⟨h.held, fun dn' hdn' => h.listed dn' (List.mem_cons_of_mem _ hdn')⟩

theorem Reporting.heartbeat (h : Reporting dns d booted) (dn : DataNode) (now capacity remaining : Int64)
    (rpc : RpcOutcome) :
    Reporting dns { d with cluster := d.cluster.sendHeartbeat dn now capacity remaining rpc } booted := by
  unfold Cluster.sendHeartbeat callRaw
  cases rpc.delivered <;> exact ⟨h.held, h.listed⟩

/-- A DataNode starts; with both calls delivered all its blocks are listed. -/
theorem Reporting.boot (h : Reporting dns d s.booted) (hkept : Kept dns d s) (hdn : dn ∈ dns) {boot : Boot} {c : Cluster}
    (hstart : d.cluster.startDataNode dn boot = .ok c) :
    Reporting dns { d with cluster := c } (s.apply (.boot dn boot)).booted := by
  have hbeat := hkept.heartbeat hdn boot.now boot.capacity boot.remaining boot.heartbeat
  have hreporting := h.heartbeat dn boot.now boot.capacity boot.remaining boot.heartbeat
  obtain ⟨c', hc', hcases⟩ := sendBlockReport_cases (hbeat.tidy dn hdn) boot.order boot.report
  obtain rfl : c' = c := Except.ok.inj (hc'.symm.trans hstart)
  show Reporting dns _ (if boot.Delivered then { s with booted := dn :: s.booted } else s).booted
  rcases hcases with ⟨rfl, hnot⟩ | ⟨info, reported, hl, hreported, rfl⟩
  · rw [if_neg fun hboth => hnot ⟨hboth.2, sendHeartbeat_known hboth.1 ..⟩]
    exact hreporting
  · have hreport := hreporting.report hbeat hdn hl hreported
    split
    · exact hreport
    · exact hreport.forget

/-- A NameNode that has started again knows no locations. -/
theorem Reporting.restart (hkept : Kept dns d s) (hrun : d.step blockSize .restart = some d') : Reporting dns d' [] := by
  obtain ⟨t, ht, -⟩ := hkept.restart
  rw [Deployment.step_restart ht] at hrun
  cases hrun
  exact ⟨fun id hne => absurd rfl hne, fun dn hdn => by cases hdn⟩

theorem Reporting.step (h : Reporting dns d s.booted) (hkept : Kept dns d s) {i : Incident} (hi : i.isCall = false)
    (hstep : DeploymentStep blockSize dns d i d') : Reporting dns d' (s.apply i).booted := by
  obtain ⟨hok, hrun⟩ := hstep
  cases i with
  | call k => cases hi
  | heartbeat dn now capacity remaining rpc =>
    cases hrun
    exact h.heartbeat dn now capacity remaining rpc
  | boot dn boot =>
    obtain ⟨c, hc, -⟩ := hkept.boot hok boot
    rw [Deployment.step_boot hc] at hrun
    cases hrun
    exact h.boot hkept hok hc
  | save o =>
    cases hrun
    cases o <;> exact ⟨h.held, h.listed⟩
  | restart => exact .restart hkept hrun

/-- From a restart on, without calls of clients, the locations are those that were reported, and the stores stay. -/
theorem Reporting.run (hb : 0 < blockSize) (hkept : Kept dns d s) {more : List Incident}
    (hmore : ∀ i ∈ more, i.isCall = false) (h : Run (DeploymentStep blockSize dns) d ([Incident.restart] ++ more) d') :
    Kept dns d' (after Snapshots.apply s ([Incident.restart] ++ more)) ∧
      Reporting dns d' (after Snapshots.apply s ([Incident.restart] ++ more)).booted ∧ d'.cluster.stores = d.cluster.stores := by
  refine ⟨h.simulation (Kept.step hb) hkept, ?_⟩
  induction more using List.reverseRecOn generalizing d' with
  | nil =>
    obtain ⟨_, hnil, hstep⟩ := Run.last (show Run _ d ([] ++ [Incident.restart]) d' from h)
    obtain rfl := hnil.eq_of_nil
    exact ⟨.restart hkept hstep.2, step_stores rfl hstep.2⟩
  | append_singleton more i ih =>
    rw [← List.append_assoc] at h ⊢
    obtain ⟨d₁, hrun, hstep⟩ := h.last
    obtain ⟨hreporting, hstores⟩ := ih (fun i' hi' => hmore i' (List.mem_append_left _ hi')) hrun
    have hkept₁ : Kept dns d₁ (after Snapshots.apply s ([Incident.restart] ++ more)) := hrun.simulation (Kept.step hb) hkept
    have hi : i.isCall = false := hmore i (by simp)
    rw [after_snoc]
    exact ⟨hreporting.step hkept₁ hi hstep, (step_stores hi hstep.2).trans hstores⟩

/-- The NameNode starts again, and all DataNodes after it: then it has a location for the blocks of all files that
there ever were, and for no other blocks, whatever was removed or overwritten before. -/
theorem restart_lists_every_block {d₀ : Deployment} {incidents more : List Incident} (hb : 0 < blockSize)
    (h₀ : d₀.New dns) (hempty : ∀ dn ∈ dns, ∀ id, (d₀.cluster.stores dn.address).held id = none)
    (h : Run (DeploymentStep blockSize dns) d₀ (incidents ++ ([Incident.restart] ++ more)) d)
    (hmore : ∀ i ∈ more, i.isCall = false)
    (hall : ∀ dn ∈ dns, dn ∈ (after Snapshots.apply {} (incidents ++ ([Incident.restart] ++ more))).booted) (id : Int64) :
    d.cluster.ns.locations id ≠ [] ↔ id ∈ (incidents.flatMap (Incident.blocks blockSize)).map Prod.fst := by
  obtain ⟨d₁, hbefore, hrest⟩ := h.split
  obtain ⟨hkept, hholdings⟩ := Holdings.run hb h₀ hbefore
  obtain ⟨-, hreporting, hstores⟩ := Reporting.run hb hkept hmore hrest
  rw [← after_append] at hreporting
  constructor
  · intro hne
    obtain ⟨dn, hdn, hheld⟩ := hreporting.held id hne
    by_contra hid
    rw [hstores, hholdings.others id hid, hempty dn hdn] at hheld
    cases hheld
  · intro hid
    obtain ⟨b, hb, rfl⟩ := List.mem_map.1 hid
    obtain ⟨dn, hdn, hheld⟩ := hholdings.placed b hb
    refine hreporting.listed dn (hall dn hdn) b.1 ?_
    rw [hstores, hheld, if_pos rfl]
    rfl

end Steps

/-- The file is removed, the image is saved, and the NameNode and the DataNode start again. -/
def removedForGood : List Incident := [.call (.delete (bytes "/d/f")), .save .renamed]

theorem run_removedForGood : ∃ d, Run (DeploymentStep 2 [⟨9000⟩]) newDeployment
    ((firstWrite ++ removedForGood) ++ ([Incident.restart] ++ [.boot ⟨9000⟩ plainBoot])) d := by
  obtain ⟨d₁, hfirst⟩ := run_firstWrite
  have hrest : ∀ i ∈ removedForGood ++ ([Incident.restart] ++ [.boot ⟨9000⟩ plainBoot]),
      ∀ d, i.Healthy 2 [⟨9000⟩] d := by
    simp only [removedForGood, List.cons_append, List.nil_append, List.forall_mem_cons]
    exact ⟨fun _ => trivial, fun _ _ => SaveOutcome.noConfusion, fun _ => trivial, fun _ => List.mem_singleton_self _,
      fun _ hi => absurd hi List.not_mem_nil⟩
  obtain ⟨d, hrun⟩ := exists_run (by decide) newDeployment_new hfirst hrest
  exact ⟨d, by rw [List.append_assoc]; exact hrun⟩

/-- The three bytes are still on the disk. -/
theorem disks_keep_every_write_removed : ∃ d, Run (DeploymentStep 2 [⟨9000⟩]) newDeployment
    ((firstWrite ++ removedForGood) ++ ([Incident.restart] ++ [.boot ⟨9000⟩ plainBoot])) d ∧
      (d.cluster.stores (DataNode.address ⟨9000⟩)).held (healthyTurn 0).id = some [1, 2] := by
  obtain ⟨d, hrun⟩ := run_removedForGood
  have hholdings := (disks_keep_every_write (by decide) newDeployment_new hrun).1
  obtain ⟨dn, hdn, hheld⟩ := hholdings.placed ((healthyTurn 0).id, [1, 2]) (by decide)
  rw [List.mem_singleton] at hdn
  subst hdn
  exact ⟨d, hrun, (hheld _).trans (if_pos rfl)⟩

/-- And they are listed, without a file. -/
theorem restart_lists_every_block_removed : ∃ d, Run (DeploymentStep 2 [⟨9000⟩]) newDeployment
    ((firstWrite ++ removedForGood) ++ ([Incident.restart] ++ [.boot ⟨9000⟩ plainBoot])) d ∧
      d.cluster.ns.locations (healthyTurn 0).id ≠ [] := by
  obtain ⟨d, hrun⟩ := run_removedForGood
  have hlisted := restart_lists_every_block (by decide) newDeployment_new (fun _ _ _ => rfl) hrun (by decide)
    (fun dn hdn => hdn) (healthyTurn 0).id
  exact ⟨d, hrun, hlisted.2 (by decide)⟩

end MiniHadoop.Ndfs

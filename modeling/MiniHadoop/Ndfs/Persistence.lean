/-
Stopping, crashing and starting again. The NameNode keeps its namespace in an image that `Stop` writes and the
constructor reads; where the blocks are it learns from the reports that the DataNodes send when they start. Over any
history of calls, saves, restarts and DataNode starts the files are those of an abstract machine with two maps, the live
one and the saved one, and once all DataNodes have started again every file reads as its data.
-/
import MiniHadoop.Ndfs.DataNode
import MiniHadoop.Ndfs.ImageRoundTrip
import MiniHadoop.Ndfs.Operations

namespace MiniHadoop.Ndfs

open Text Wire Chunks Runs

/-! ## The NameNode and its image -/

/-- How a `Save` ends: the temporary file cannot be opened, the process dies before the rename, only a part of the
text fits on the disk, which is not looked at, or the new image is in place. -/
inductive SaveOutcome where
  | cannotOpen
  | cut
  | short (n : Nat)
  | renamed
  deriving DecidableEq, Repr

/-- The file at the path of the image after `FsImage::Save`. -/
def saveImage (t : INode) (image : Option Bytes) : SaveOutcome → Option Bytes
  | .cannotOpen => image
  | .cut => image
  | .short n => some ((save t).take n)
  | .renamed => some (save t)

/-- The constructor of the NameNode: an empty namesystem, and into its tree the image if there is one. -/
def NameNode.construct (image : Option Bytes) : Except StollError FsNamesystem :=
  match image with
  | none => .ok {}
  | some text =>
    match load emptyTree text with
    | (t, none) => .ok { tree := t }
    | (_, some e) => .error e

/-- A cluster, with the image on the disk of its NameNode. -/
structure Deployment where
  cluster : Cluster
  image : Option Bytes

/-- What happens to a deployment: a call of the client, a heartbeat, the start of a DataNode, a `Save`, and a restart of
the NameNode, after a `Stop` or a crash. -/
inductive Incident where
  | call (k : Call)
  | heartbeat (dn : DataNode) (now capacity remaining : Int64) (rpc : RpcOutcome)
  | boot (dn : DataNode) (boot : Boot)
  | save (o : SaveOutcome)
  | restart

namespace Deployment

/-- The deployment afterwards; none when the call does not return or an exception leaves the process. -/
def step (blockSize : Int64) (d : Deployment) : Incident → Option Deployment
  | .call k => (d.cluster.call blockSize k).map fun r => { d with cluster := r.1 }
  | .heartbeat dn now capacity remaining rpc =>
    some { d with cluster := d.cluster.sendHeartbeat dn now capacity remaining rpc }
  | .boot dn boot => (d.cluster.startDataNode dn boot).toOption.map fun c => { d with cluster := c }
  | .save o => some { d with image := saveImage d.cluster.ns.tree d.image o }
  | .restart => (NameNode.construct d.image).toOption.map fun ns => { d with cluster := { d.cluster with ns } }

section Step

variable {blockSize : Int64} {d : Deployment}

theorem step_write {path : Bytes} {data : Buffer} {env : Nat → ChunkEnv} {c : Cluster} {st : Status}
    (h : d.cluster.writeFile blockSize path data true env = some (c, st)) :
    d.step blockSize (.call (.write path data env)) = some { d with cluster := c } := by
  simp only [step, Cluster.call, h, Option.map_some]

theorem step_boot {dn : DataNode} {boot : Boot} {c : Cluster} (h : d.cluster.startDataNode dn boot = .ok c) :
    d.step blockSize (.boot dn boot) = some { d with cluster := c } := by
  simp only [step, h, Except.toOption, Option.map_some]

theorem step_restart {ns : FsNamesystem} (h : NameNode.construct d.image = .ok ns) :
    d.step blockSize .restart = some { d with cluster := { d.cluster with ns } } := by
  simp only [step, h, Except.toOption, Option.map_some]

end Step

end Deployment

/-- A new deployment: no files and no image yet. In the directories of the DataNodes there are block files only. -/
structure Deployment.New (dns : List DataNode) (d : Deployment) : Prop where
  ns : d.cluster.ns = {}
  image : d.image = none
  tidy : ∀ dn ∈ dns, (d.cluster.stores dn.address).Tidy

/-- No byte of the path is white space, which an image cannot hold. -/
def PlainPath (path : Bytes) : Prop := ∀ b ∈ path, isSpace b = false

/-- Writes are healthy, paths are plain, the DataNodes are the given ones, and the disk of the NameNode is not full. -/
def Incident.Healthy (blockSize : Int64) (dns : List DataNode) (d : Deployment) : Incident → Prop
  | .call (.write path data env) =>
    d.cluster.ns.inSafeMode = false ∧ HealthyWrite blockSize d.cluster path data env ∧ PlainPath path
  | .call (.mkdirs path) => PlainPath path
  | .call (.delete _) => True
  | .heartbeat dn .. => dn ∈ dns
  | .boot dn _ => dn ∈ dns
  | .save o => ∀ n, o ≠ .short n
  | .restart => True

def DeploymentStep (blockSize : Int64) (dns : List DataNode) (d : Deployment) (i : Incident) (d' : Deployment) : Prop :=
  i.Healthy blockSize dns d ∧ d.step blockSize i = some d'

/-! ## The abstract machine -/

/-- The files now, the files of the last image, and the DataNodes that have started since the NameNode has. -/
structure Snapshots where
  live : FileMap := fun _ => none
  saved : FileMap := fun _ => none
  booted : List DataNode := []

/-- The NameNode has got the heartbeat and the report. -/
def Boot.Delivered (boot : Boot) : Prop := boot.heartbeat.delivered = true ∧ boot.report.delivered = true

instance (boot : Boot) : Decidable boot.Delivered := inferInstanceAs (Decidable (_ ∧ _))

/-- A restart goes back to the last image; what was deleted since is there again. -/
def Snapshots.apply (s : Snapshots) : Incident → Snapshots
  | .call k => { s with live := s.live.call k }
  | .heartbeat .. => s
  | .boot dn boot => if boot.Delivered then { s with booted := dn :: s.booted } else s
  | .save .renamed => { s with saved := s.live }
  | .save _ => s
  | .restart => { s with live := s.saved, booted := [] }

/-! ## Plain names -/

/-- The names in the tree are plain. -/
def PlainNames (t : INode) : Prop := ∀ q, (entryAt t q).isSome → ∀ name ∈ q, PlainPath name

theorem PlainNames.noSpace {t : INode} (ht : TreeOk t) (h : PlainNames t) : NoSpace t := by
  intro q n hw
  rcases List.eq_nil_or_concat q with rfl | ⟨p, k, rfl⟩
  · cases hw
    rw [ht.rootName]
    exact fun b hb => by cases hb
  · rw [List.concat_eq_append] at hw
    have hsome : (entryAt t (p ++ [k])).isSome := by
      unfold entryAt
      rw [hw]
      rfl
    have hname : n.name = k := by
      rw [Forest.Shape.walk_append] at hw
      obtain ⟨m, -, hk⟩ := Option.bind_eq_some_iff.1 hw
      rw [Forest.Shape.walk_cons] at hk
      obtain ⟨c, hc, hcn⟩ := Option.bind_eq_some_iff.1 hk
      cases hcn
      exact Forest.key_of_find hc
    rw [hname]
    exact h _ hsome k (by simp)

theorem plainNames_empty : PlainNames emptyTree := by
  intro q hq name hname
  cases q with
  | nil => cases hname
  | cons k q => rw [show emptyTree = INode.new .kDirectory [] from rfl, entryAt_new_cons] at hq; cases hq

theorem PlainPath.splitPath {path : Bytes} (h : PlainPath path) : ∀ name ∈ splitPath path, PlainPath name := by
  intro name hname b hb
  rw [splitPath_eq, List.mem_filter] at hname
  exact h b (mem_of_mem_getlines hname.1 hb)

/-- A prefix of a plain path is plain. -/
theorem PlainPath.of_prefix {path : Bytes} (h : PlainPath path) {q : List Bytes} (hq : q <+: Ndfs.splitPath path) :
    ∀ name ∈ q, PlainPath name := fun name hname => h.splitPath name (hq.subset hname)

theorem PlainNames.mkdirs {t : INode} (ht : TreeOk t) (h : PlainNames t) {path : Bytes} (hp : PlainPath path) :
    PlainNames (Ndfs.mkdirs t path).1 := by
  intro q hq
  by_cases hpre : q <+: splitPath path
  · exact hp.of_prefix hpre
  · rw [show entryAt (Ndfs.mkdirs t path).1 q = entryAt t q from entryAt_mkdirsFrom_other ht hpre] at hq
    exact h q hq

/-! ## Files on disk -/

section Stored

variable {stores stores' : Address → BlockStorage} {dns : List DataNode} {t t' : INode} {m : FileMap} {path : Bytes}

/-- One of the DataNodes has the block, and whoever has it has these bytes. -/
structure OnDisk (stores : Address → BlockStorage) (dns : List DataNode) (id : Int64) (data : Bytes) : Prop where
  somewhere : ∃ dn ∈ dns, (stores dn.address).held id = some data
  only : ∀ address d, (stores address).held id = some d → d = data

theorem OnDisk.congr {id : Int64} {data : Bytes} (h : OnDisk stores dns id data)
    (hsame : ∀ address, (stores' address).held id = (stores address).held id) : OnDisk stores' dns id data := by
  constructor
  · obtain ⟨dn, hdn, hheld⟩ := h.somewhere
    exact ⟨dn, hdn, (hsame _).trans hheld⟩
  · intro address d hd
    exact h.only address d ((hsame address).symm.trans hd)

/-- The tree has the files of the map, their blocks are on disk, and no two files share a block. -/
structure Stored (stores : Address → BlockStorage) (dns : List DataNode) (t : INode) (m : FileMap) : Prop where
  tree : TreeOk t
  names : PlainNames t
  files : ∀ q, (m q).isSome → IsFile t q
  data : ∀ q bl, entryAt t q = some ⟨.kFile, bl⟩ →
    ∃ ds, m q = some ds.flatten ∧ List.Forall₂ (OnDisk stores dns) bl ds
  apart : ∀ q q' bl bl' id, entryAt t q = some ⟨.kFile, bl⟩ → entryAt t q' = some ⟨.kFile, bl'⟩ →
    id ∈ bl → id ∈ bl' → q = q'

theorem Stored.empty (stores : Address → BlockStorage) (dns : List DataNode) :
    Stored stores dns emptyTree fun _ => none := by
  have hno : ∀ q bl, entryAt emptyTree q ≠ some ⟨.kFile, bl⟩ := fun q bl hq =>
    noFileOn_new [] q q (List.prefix_refl q) ⟨bl, hq⟩
  exact ⟨emptyTree_ok, plainNames_empty, fun q hq => (by cases hq), fun q bl hq => absurd hq (hno q bl),
    fun q _ bl _ _ hq => absurd hq (hno q bl)⟩

/-- A block of a file is on disk. -/
theorem Stored.onDisk (h : Stored stores dns t m) {q : List Bytes} {bl : List Int64}
    (hq : entryAt t q = some ⟨.kFile, bl⟩) : ∀ id ∈ bl, ∃ data, OnDisk stores dns id data := by
  obtain ⟨ds, -, hds⟩ := h.data q bl hq
  intro id hid
  obtain ⟨i, hi, rfl⟩ := List.getElem_of_mem hid
  exact ⟨_, List.Forall₂.get hds hi (hds.length_eq ▸ hi)⟩

/-- The stores may get blocks that no file has. -/
theorem Stored.congr (h : Stored stores dns t m)
    (hsame : ∀ q bl, entryAt t q = some ⟨.kFile, bl⟩ → ∀ id ∈ bl, ∀ address,
      (stores' address).held id = (stores address).held id) : Stored stores' dns t m := by
  refine ⟨h.tree, h.names, h.files, fun q bl hq => ?_, h.apart⟩
  obtain ⟨ds, hm, hds⟩ := h.data q bl hq
  refine ⟨ds, hm, ?_⟩
  have hkept := (List.forall₂_and_left bl ds).2 ⟨fun id hid => hid, hds⟩
  exact hkept.imp fun id data hid => hid.2.congr (hsame q bl hq id hid.1)

theorem Stored.mkdirs (h : Stored stores dns t m) (hp : PlainPath path) :
    Stored stores dns (Ndfs.mkdirs t path).1 m := by
  have hfile : ∀ {q bl}, entryAt (Ndfs.mkdirs t path).1 q = some ⟨.kFile, bl⟩ ↔ entryAt t q = some ⟨.kFile, bl⟩ :=
    file_mkdirsFrom h.tree
  refine ⟨h.tree.mkdirs path, h.names.mkdirs h.tree hp, fun q hq => ?_, fun q bl hq => h.data q bl (hfile.1 hq),
    fun q q' bl bl' id hq hq' => h.apart q q' bl bl' id (hfile.1 hq) (hfile.1 hq')⟩
  obtain ⟨bl, hbl⟩ := h.files q hq
  exact ⟨bl, hfile.2 hbl⟩

/-- A tree without the path and what is below it has the files that are left. -/
theorem Stored.delete (h : Stored stores dns t m) (ht' : TreeOk t') {parts : List Bytes}
    (hent : ∀ q, entryAt t' q = if parts ≠ [] ∧ parts <+: q then none else entryAt t q) :
    Stored stores dns t' (m.delete parts) := by
  have hkept : ∀ {q e}, entryAt t' q = some e → ¬ (parts ≠ [] ∧ parts <+: q) ∧ entryAt t q = some e := by
    intro q e hq
    rw [hent] at hq
    split at hq
    · cases hq
    · rename_i hout
      exact ⟨hout, hq⟩
  refine ⟨ht', fun q hq => ?_, fun q hq => ?_, fun q bl hq => ?_, fun q q' bl bl' id hq hq' => ?_⟩
  · obtain ⟨e, he⟩ := Option.isSome_iff_exists.1 hq
    exact h.names q (by rw [(hkept he).2]; rfl)
  · unfold FileMap.delete at hq
    split at hq
    · cases hq
    · rename_i hout
      obtain ⟨bl, hbl⟩ := h.files q hq
      exact ⟨bl, by rw [hent, if_neg hout]; exact hbl⟩
  · obtain ⟨hout, hold⟩ := hkept hq
    obtain ⟨ds, hm, hds⟩ := h.data q bl hold
    exact ⟨ds, (if_neg hout).trans hm, hds⟩
  · exact h.apart q q' bl bl' id (hkept hq).2 (hkept hq').2

/-- A new file at a plain path, with new blocks that are on disk. -/
theorem Stored.write (h : Stored stores dns t m) (ht' : TreeOk t') (hdir : ¬ IsDir t (splitPath path))
    (hp : PlainPath path) (hproper : ProperPath path) {ids : List Int64} {ds : List Bytes}
    (hent : ∀ q, entryAt t' q = if q = splitPath path then some ⟨.kFile, ids⟩ else if splitPath path <+: q then none
      else if q <+: splitPath (getParentDir path) ∧ entryAt t q = none then some dirEntry else entryAt t q)
    (hnew : ∀ q bl, entryAt t q = some ⟨.kFile, bl⟩ → ∀ id ∈ bl, id ∉ ids)
    (hdisk : List.Forall₂ (OnDisk stores dns) ids ds) : Stored stores dns t' (m.write (splitPath path) ds.flatten) := by
  have hfile : entryAt t' (splitPath path) = some ⟨.kFile, ids⟩ := by rw [hent, if_pos rfl]
  have hother : ∀ {q bl}, q ≠ splitPath path →
      (entryAt t' q = some ⟨.kFile, bl⟩ ↔ entryAt t q = some ⟨.kFile, bl⟩) :=
    fun {q bl} hq => file_elsewhere h.tree hdir (hent q) hq
  refine ⟨ht', fun q hq => ?_, fun q hq => ?_, fun q bl hq => ?_, fun q q' bl bl' id hq hq' hid hid' => ?_⟩
  · rw [hent] at hq
    split at hq
    · rename_i heq
      rw [heq]
      exact hp.splitPath
    · split at hq
      · cases hq
      · split at hq
        · rename_i hpre
          exact hp.of_prefix (hpre.1.trans hproper.parent_isPrefix)
        · exact h.names q hq
  · by_cases hqp : q = splitPath path
    · exact ⟨ids, hqp ▸ hfile⟩
    · rw [FileMap.write, Function.update_of_ne hqp] at hq
      obtain ⟨bl, hbl⟩ := h.files q hq
      exact ⟨bl, (hother hqp).2 hbl⟩
  · by_cases hqp : q = splitPath path
    · subst hqp
      rw [hfile] at hq
      cases hq
      exact ⟨ds, Function.update_self .., hdisk⟩
    · obtain ⟨ds', hm, hds'⟩ := h.data q bl ((hother hqp).1 hq)
      exact ⟨ds', (Function.update_of_ne hqp ..).trans hm, hds'⟩
  · by_cases hqp : q = splitPath path <;> by_cases hqp' : q' = splitPath path
    · rw [hqp, hqp']
    · subst hqp
      rw [hfile] at hq
      cases hq
      exact absurd hid (hnew q' bl' ((hother hqp').1 hq') id hid')
    · subst hqp'
      rw [hfile] at hq'
      cases hq'
      exact absurd hid' (hnew q bl ((hother hqp).1 hq) id hid)
    · exact h.apart q q' bl bl' id ((hother hqp).1 hq) ((hother hqp').1 hq') hid hid'

/-- The image of the tree gives it back. -/
theorem Stored.construct (h : Stored stores dns t m) : NameNode.construct (some (save t)) = .ok { tree := t } := by
  unfold NameNode.construct
  simp only [load_save_of_ok h.tree (h.names.noSpace h.tree)]

end Stored

/-! ## The invariant -/

/-- Registered are DataNodes of the list, under their names and with their addresses. -/
def RegistryOf (dns : List DataNode) (s : FsNamesystem) : Prop :=
  ∀ name info, s.datanodes.lookup name = some info →
    ∃ dn ∈ dns, name = dn.name ∧ info.name = name ∧ info.address = dn.address

/-- What every history keeps. The files of both maps are on disk, a block with locations is at one of them, and a block
of a file that a DataNode with a report has is listed. -/
structure Kept (dns : List DataNode) (d : Deployment) (s : Snapshots) : Prop where
  live : Stored d.cluster.stores dns d.cluster.ns.tree s.live
  saved : ∃ t, NameNode.construct d.image = .ok { tree := t } ∧ Stored d.cluster.stores dns t s.saved
  tidy : ∀ dn ∈ dns, (d.cluster.stores dn.address).Tidy
  registry : RegistryOf dns d.cluster.ns
  holder : ∀ id, d.cluster.ns.locations id ≠ [] →
    ∃ info ∈ d.cluster.ns.locations id, ((d.cluster.stores info.address).held id).isSome
  booted : ∀ dn ∈ s.booted, ∀ q bl, entryAt d.cluster.ns.tree q = some ⟨.kFile, bl⟩ → ∀ id ∈ bl,
    ((d.cluster.stores dn.address).held id).isSome → d.cluster.ns.locations id ≠ []

section Steps

variable {blockSize : Int64} {dns : List DataNode} {d d' : Deployment} {s : Snapshots} {dn : DataNode} {path : Bytes}

theorem Deployment.New.kept (h : d.New dns) : Kept dns d {} := by
  constructor
  · rw [h.ns]
    exact Stored.empty _ dns
  · exact ⟨emptyTree, by rw [h.image]; rfl, Stored.empty _ dns⟩
  · exact h.tidy
  · rw [h.ns]
    intro name info hl
    cases hl
  · rw [h.ns]
    exact fun id hne => absurd rfl hne
  · exact fun dn hdn => by cases hdn

theorem RegistryOf.registryOk {ns : FsNamesystem} (h : RegistryOf dns ns) : ns.RegistryOk := by
  intro name info hl
  obtain ⟨dn, -, -, hname, -⟩ := h name info hl
  exact hname

/-- The namesystem got a heartbeat of one of the DataNodes. -/
theorem RegistryOf.heartbeat {ns : FsNamesystem} (h : RegistryOf dns ns) (hdn : dn ∈ dns)
    (now capacity remaining : Int64) :
    RegistryOf dns (ns.heartbeat now dn.name DataNode.host dn.xceiverPort capacity remaining) := by
  intro name info hl
  rw [show (ns.heartbeat now dn.name DataNode.host dn.xceiverPort capacity remaining).datanodes =
    ns.datanodes.insert dn.name _ from rfl, HashMap.lookup_insert_eq] at hl
  split at hl
  · rename_i hname
    refine ⟨dn, hdn, hname, ?_⟩
    cases hold : ns.datanodes.lookup dn.name with
    | none =>
      simp only [hold] at hl
      cases hl
      exact ⟨hname.symm, rfl⟩
    | some old =>
      obtain ⟨-, -, -, holdname, -⟩ := h _ _ hold
      simp only [hold] at hl
      cases hl
      exact ⟨holdname.trans hname.symm, rfl⟩
  · exact h name info hl

theorem Kept.heartbeat (h : Kept dns d s) (hdn : dn ∈ dns) (now capacity remaining : Int64) (rpc : RpcOutcome) :
    Kept dns { d with cluster := d.cluster.sendHeartbeat dn now capacity remaining rpc } s := by
  unfold Cluster.sendHeartbeat callRaw
  cases hrpc : rpc.delivered with
  | false => exact ⟨h.live, h.saved, h.tidy, h.registry, h.holder, h.booted⟩
  | true => exact ⟨h.live, h.saved, h.tidy, h.registry.heartbeat hdn now capacity remaining, h.holder, h.booted⟩

/-- An entry under the name of a DataNode has its address. -/
theorem RegistryOf.address {ns : FsNamesystem} (h : RegistryOf dns ns) {info : DataNodeInfo}
    (hl : ns.datanodes.lookup dn.name = some info) : info.address = dn.address := by
  obtain ⟨dn', -, hname, -, haddress⟩ := h _ _ hl
  rw [DataNode.name_injective hname]
  exact haddress

/-- A block that is reported has a location. -/
theorem withReporter_ne_nil (dnName : Bytes) (info : DataNodeInfo) (infos : List DataNodeInfo) :
    FsNamesystem.withReporter dnName info infos ≠ [] := by
  unfold FsNamesystem.withReporter
  split
  · simp
  · rename_i hfull
    intro hnil
    rw [hnil] at hfull
    exact hfull rfl

/-- A report lists the DataNode for blocks that it has, and keeps what is listed. -/
theorem Kept.report (h : Kept dns d s) {info : DataNodeInfo} {blocks : List Block}
    (hl : d.cluster.ns.datanodes.lookup dn.name = some info)
    (hblocks : ∀ id, id ∈ blocks.map Block.blockId ↔ ((d.cluster.stores dn.address).held id).isSome) :
    Kept dns { d with cluster := { d.cluster with ns := d.cluster.ns.blockReport dn.name blocks } }
      { s with booted := dn :: s.booted } := by
  have hloc := fun id => FsNamesystem.locations_blockReport h.registry.registryOk hl blocks id
  have htree : (d.cluster.ns.blockReport dn.name blocks).tree = d.cluster.ns.tree :=
    FsNamesystem.blockReport_tree _ dn.name blocks
  have hgrow := fun id => FsNamesystem.blockReport_locations d.cluster.ns dn.name blocks id
  refine ⟨by rw [htree]; exact h.live, h.saved, h.tidy, ?_, fun id hne => ?_, fun dn' hdn' q bl hq id hid hheld => ?_⟩
  · intro name info' hl'
    rw [FsNamesystem.blockReport_datanodes] at hl'
    exact h.registry name info' hl'
  · by_cases hold : d.cluster.ns.locations id = []
    · -- the DataNode is the first location, so it has reported the block
      rw [hloc, hold] at hne ⊢
      split at hne
      · rename_i hid
        refine ⟨info, by rw [if_pos hid]; simp [FsNamesystem.withReporter, kDefaultReplication], ?_⟩
        rw [h.registry.address hl]
        exact (hblocks id).1 hid
      · exact absurd rfl hne
    · obtain ⟨info', hinfo', hheld⟩ := h.holder id hold
      exact ⟨info', (hgrow id).subset hinfo', hheld⟩
  · rw [htree] at hq
    rcases List.mem_cons.1 hdn' with rfl | hdn'
    · rw [hloc, if_pos ((hblocks id).2 hheld)]
      exact withReporter_ne_nil _ _ _
    · exact fun hnil => h.booted dn' hdn' q bl hq id hid hheld (List.prefix_nil.1 (hnil ▸ hgrow id))

/-- Less may be known of the DataNodes that have started. -/
theorem Kept.forget (h : Kept dns d { s with booted := dn :: s.booted }) : Kept dns d s :=
  ⟨h.live, h.saved, h.tidy, h.registry, h.holder, fun dn' hdn' => h.booted dn' (List.mem_cons_of_mem _ hdn')⟩

/-- What the block report of a DataNode does: with the report delivered to a NameNode that knows the DataNode, the blocks
of its store are reported, otherwise nothing. -/
theorem sendBlockReport_cases {c : Cluster} (htidy : (c.stores dn.address).Tidy)
    (order : HashMap.Enumeration Bytes Buffer) (rpc : RpcOutcome) :
    ∃ c', c.sendBlockReport dn order rpc = .ok c' ∧
      ((c' = c ∧ ¬ (rpc.delivered = true ∧ ∃ info, c.ns.datanodes.lookup dn.name = some info)) ∨
        ∃ info reported, c.ns.datanodes.lookup dn.name = some info ∧
          (∀ id, id ∈ reported.map Block.blockId ↔ ((c.stores dn.address).held id).isSome) ∧
          c' = { c with ns := c.ns.blockReport dn.name reported }) := by
  obtain ⟨reported, hreport, hreported⟩ := htidy.report order
  unfold Cluster.sendBlockReport callRaw
  rw [hreport]
  refine ⟨_, rfl, ?_⟩
  cases hrpc : rpc.delivered with
  | false => exact .inl ⟨rfl, fun h => by cases h.1⟩
  | true =>
    simp only [if_true]
    cases hl : c.ns.datanodes.lookup dn.name with
    | none =>
      rw [FsNamesystem.blockReport_unregistered hl]
      exact .inl ⟨rfl, fun ⟨_, info, hinfo⟩ => by cases hinfo⟩
    | some info => exact .inr ⟨info, reported, rfl, hreported, rfl⟩

/-- After a heartbeat that is delivered the NameNode knows the DataNode. -/
theorem sendHeartbeat_known {c : Cluster} {rpc : RpcOutcome} (h : rpc.delivered = true) (now capacity remaining : Int64) :
    ∃ info, (c.sendHeartbeat dn now capacity remaining rpc).ns.datanodes.lookup dn.name = some info := by
  unfold Cluster.sendHeartbeat callRaw
  rw [h]
  exact ⟨_, AList.lookup_insert _⟩

/-- A DataNode starts; with both calls delivered its blocks are listed. -/
theorem Kept.boot (h : Kept dns d s) (hdn : dn ∈ dns) (boot : Boot) :
    ∃ c, d.cluster.startDataNode dn boot = .ok c ∧ Kept dns { d with cluster := c } (s.apply (.boot dn boot)) := by
  have hbeat := h.heartbeat hdn boot.now boot.capacity boot.remaining boot.heartbeat
  obtain ⟨c, hc, hcases⟩ := sendBlockReport_cases (hbeat.tidy dn hdn) boot.order boot.report
  refine ⟨c, hc, ?_⟩
  show Kept dns _ (if boot.Delivered then { s with booted := dn :: s.booted } else s)
  rcases hcases with ⟨rfl, hnot⟩ | ⟨info, reported, hl, hreported, rfl⟩
  · rw [if_neg fun hboth => hnot ⟨hboth.2, sendHeartbeat_known hboth.1 ..⟩]
    exact hbeat
  · split
    · exact hbeat.report hl hreported
    · exact (hbeat.report hl hreported).forget

theorem Kept.mkdirs (h : Kept dns d s) (hp : PlainPath path) :
    Kept dns { d with cluster := (d.cluster.mkdirs .answered path).1 } s := by
  have hns : (d.cluster.mkdirs .answered path).1 =
      { d.cluster with ns := { d.cluster.ns with tree := (Ndfs.mkdirs d.cluster.ns.tree path).1 } } := rfl
  rw [hns]
  refine ⟨h.live.mkdirs hp, h.saved, h.tidy, h.registry, h.holder, fun dn hdn q bl hq => ?_⟩
  exact h.booted dn hdn q bl ((file_mkdirsFrom h.live.tree).1 hq)

/-- The blocks of a file that is removed lose their locations; no file that stays has one of them. -/
theorem Kept.delete (h : Kept dns d s) (path : Bytes) :
    Kept dns { d with cluster := (d.cluster.delete .answered path).1 }
      { s with live := s.live.delete (splitPath path) } := by
  obtain ⟨ht', hent⟩ := FsNamesystem.delete_tree h.live.tree path
  have hns : (d.cluster.delete .answered path).1 = { d.cluster with ns := (d.cluster.ns.delete path).1 } := rfl
  rw [hns]
  have hlive := h.live.delete ht' hent
  refine ⟨hlive, h.saved, h.tidy, ?_, fun id hne => ?_, fun dn hdn q bl hq id hid hheld => ?_⟩
  · intro name info hl
    rw [show (d.cluster.ns.delete path).1.datanodes = _ from FsNamesystem.delete_datanodes path] at hl
    exact h.registry name info hl
  · rcases FsNamesystem.delete_lookup (s := d.cluster.ns) path id with hsame | ⟨-, hnone⟩
    · have hloc := FsNamesystem.locations_of_lookup hsame
      rw [show FsNamesystem.locations (d.cluster.ns.delete path).1 id = _ from hloc] at hne ⊢
      exact h.holder id hne
    · refine absurd ?_ hne
      show (HashMap.slot (d.cluster.ns.delete path).1.blockToDatanodes id []) = []
      unfold HashMap.slot
      rw [hnone]
      rfl
  · have hstay : ¬ (splitPath path ≠ [] ∧ splitPath path <+: q) ∧ entryAt d.cluster.ns.tree q = some ⟨.kFile, bl⟩ := by
      rw [hent] at hq
      split at hq
      · cases hq
      · rename_i hout
        exact ⟨hout, hq⟩
    rcases FsNamesystem.delete_lookup (s := d.cluster.ns) path id with hsame | ⟨⟨bl', hbl', hid'⟩, -⟩
    · rw [show FsNamesystem.locations (d.cluster.ns.delete path).1 id = _ from FsNamesystem.locations_of_lookup hsame]
      exact h.booted dn hdn q bl hstay.2 id hid hheld
    · obtain rfl := h.live.apart q _ bl bl' id hstay.2 hbl' hid hid'
      refine absurd ⟨fun hnil => ?_, List.prefix_refl _⟩ hstay.1
      rw [hnil] at hbl'
      exact not_isFile_root h.live.tree ⟨bl', hbl'⟩

theorem Kept.save (h : Kept dns d s) {o : SaveOutcome} (ho : ∀ n, o ≠ .short n) :
    Kept dns { d with image := saveImage d.cluster.ns.tree d.image o } (s.apply (.save o)) := by
  cases o with
  | short n => exact absurd rfl (ho n)
  | cannotOpen | cut => exact ⟨h.live, h.saved, h.tidy, h.registry, h.holder, h.booted⟩
  | renamed => exact ⟨h.live, ⟨_, h.live.construct, h.live⟩, h.tidy, h.registry, h.holder, h.booted⟩

/-- The NameNode comes up again, with the files of the image and without locations. -/
theorem Kept.restart (h : Kept dns d s) : ∃ t, NameNode.construct d.image = .ok { tree := t } ∧
    Kept dns { d with cluster := { d.cluster with ns := { tree := t } } } (s.apply .restart) := by
  obtain ⟨t, ht, hstored⟩ := h.saved
  refine ⟨t, ht, hstored, ⟨t, ht, hstored⟩, h.tidy, fun name info hl => (by cases hl), fun id hne => absurd rfl hne, ?_⟩
  exact fun dn hdn => by cases hdn

/-! ## Writes -/

theorem Admissible.accepts {c : Cluster} (h : Admissible c path) (hs : c.ns.inSafeMode = false) :
    c.ns.Accepts path true := by
  refine ⟨hs, .inl rfl, h.proper, fun q hq => ?_⟩
  refine h.parents q (hq.trans h.proper.parent_isPrefix) ?_
  rintro rfl
  exact h.proper.not_prefix_parent hq

/-- A turn of a write leaves block files only. -/
theorem tidy_deliver {address : Address} (c : Cluster) (a : Allocation) (chunk : Bytes) (e : ChunkEnv)
    (h : (c.stores address).Tidy) : ((c.deliver a chunk e).stores address).Tidy := by
  have hconfirm : ∀ (targets : List DataNodeInfo) (c : Cluster), (targets.foldl (fun c dn =>
      c.confirmBlock a chunk.length dn (e.confirm dn)) c).stores = c.stores := by
    intro targets
    induction targets with
    | nil => exact fun c => rfl
    | cons dn targets ih => exact fun c => ih _
  have hconnect : ∀ address' input file, ((c.connect address' input file).stores address).Tidy := by
    intro address' input file
    show (Function.update c.stores address' (handleConnection allSent (c.stores address') input file).1 address).Tidy
    by_cases heq : address = address'
    · subst heq
      rw [Function.update_self]
      exact h.handleConnection input file
    · rw [Function.update_of_ne heq]
      exact h
  unfold Cluster.deliver
  rw [hconfirm]
  unfold Cluster.sendBlock
  split
  · exact h
  · cases e.xfer with
    | refused => exact h
    | cut n file => exact hconnect _ _ file
    | complete file => exact hconnect _ _ file

theorem tidy_writeLoop {address : Address} {overwrite : Bool} {env : Nat → ChunkEnv} :
    ∀ (fuel : Nat) (c : Cluster) (n : Nat) (rest : Bytes), (c.stores address).Tidy → ∀ c' st,
      c.writeLoop blockSize path overwrite env fuel n rest = some (c', st) → (c'.stores address).Tidy
  | 0, _, _, _, _, _, _, hrun => by cases hrun
  | fuel + 1, c, n, rest, h, c', st, hrun => by
    rw [Cluster.writeLoop] at hrun
    split at hrun
    · cases hrun
      exact h
    · dsimp only at hrun
      split at hrun
      · cases hrun
        exact h
      · refine tidy_writeLoop fuel _ _ _ ?_ c' st hrun
        exact tidy_deliver _ _ _ _ h

/-- What a healthy turn of a write has placed: its block is at one of the targets, and everywhere it is the chunk. -/
theorem Placed.healthy {env : Nat → ChunkEnv} {chunks : List Bytes} {c c' : Cluster} (h : Placed env 0 chunks c c')
    (hhealthy : ∀ i < chunks.length, (env i).Healthy) (hs : c.ns.inSafeMode = false) {j : Nat} {chunk : Bytes}
    (hj : chunks[j]? = some chunk) :
    (∃ info ∈ c'.ns.locations (env j).id, info ∈ c.targets (env j) ∧
      (c'.stores info.address).held (env j).id = some chunk) ∧
    ∀ address data, (c'.stores address).held (env j).id = some data → data = chunk := by
  have hlt : j < chunks.length := (List.getElem?_eq_some_iff.1 hj).1
  have hblocks := h.blocks j chunk hj
  have hloc := h.locations j hlt
  rw [Nat.zero_add] at hblocks hloc
  rw [(hhealthy j hlt).stored chunk] at hblocks
  constructor
  · cases htargets : c.targets (env j) with
    | nil => exact absurd htargets (FsNamesystem.chooseTargets_ne_nil (datanodes_of_not_safe hs) _)
    | cons info rest =>
      refine ⟨info, by rw [hloc, htargets]; exact List.mem_cons_self .., List.mem_cons_self .., ?_⟩
      rw [hblocks, htargets]
      exact if_pos rfl
  · intro address data hdata
    rw [hblocks] at hdata
    split at hdata
    · exact (Option.some.inj hdata).symm
    · cases hdata

/-- A healthy write returns OK, and the map has the data at its path. -/
theorem Kept.write (hb : 0 < blockSize) (h : Kept dns d s) {data : Buffer} {env : Nat → ChunkEnv}
    (hs : d.cluster.ns.inSafeMode = false) (hw : HealthyWrite blockSize d.cluster path data env) (hp : PlainPath path) :
    ∃ c', d.cluster.writeFile blockSize path data true env = some (c', .OK) ∧
      Kept dns { d with cluster := c' } { s with live := s.live.write (splitPath path) data.1 } := by
  have hk := chunkLen_pos hb
  obtain ⟨c', hrun, hplaced, ht', hent⟩ := writeFile_accepted hk h.live.tree (hw.admissible.accepts hs) hw.nonempty
    (fun i hi => (hw.healthy i hi).rpc) hw.fresh
  have hlen : (chunks (chunkLen blockSize) data.1).length = blockCount blockSize data := length_chunks _ _
  have hturn : ∀ j chunk, (chunks (chunkLen blockSize) data.1)[j]? = some chunk → _ :=
    fun j chunk hj => hplaced.healthy (fun i hi => hw.healthy i (hlen ▸ hi)) hs hj
  -- a new block was nowhere before
  have hnew : ∀ id, (∃ address, ((d.cluster.stores address).held id).isSome) →
      id ∉ turnIds env 0 (blockCount blockSize data) := by
    rintro id ⟨address, hheld⟩ hid
    obtain ⟨i, hi, rfl⟩ := mem_turnIds.1 hid
    rw [(hw.fresh.fresh i hi).stores address] at hheld
    cases hheld
  have hkept : ∀ id, id ∉ turnIds env 0 (blockCount blockSize data) → ∀ address,
      (c'.stores address).held id = (d.cluster.stores address).held id :=
    fun id hid => hplaced.keptBlocks id (by rw [hlen]; exact hid)
  have hstored : ∀ {t m}, Stored d.cluster.stores dns t m → Stored c'.stores dns t m := by
    intro t m hstored
    refine hstored.congr fun q bl hq id hid => hkept id (hnew id ?_)
    obtain ⟨data', hdisk⟩ := hstored.onDisk hq id hid
    obtain ⟨dn, -, hheld⟩ := hdisk.somewhere
    exact ⟨dn.address, by rw [hheld]; rfl⟩
  have hdisk : List.Forall₂ (OnDisk c'.stores dns) (turnIds env 0 (blockCount blockSize data))
      (chunks (chunkLen blockSize) data.1) := by
    have hlen' : (turnIds env 0 (blockCount blockSize data)).length = (chunks (chunkLen blockSize) data.1).length := by
      rw [hlen, turnIds, List.length_map, List.length_range]
    refine List.forall₂_iff_get.2 ⟨hlen', fun i hi hi' => ?_⟩
    obtain ⟨⟨info, -, htarget, hheld⟩, honly⟩ := hturn i _ (List.getElem?_eq_getElem hi')
    have hid : (turnIds env 0 (blockCount blockSize data)).get ⟨i, hi⟩ = (env i).id := by simp [turnIds]
    rw [hid]
    refine ⟨?_, honly⟩
    rw [Cluster.targets, FsNamesystem.chooseTargets_eq] at htarget
    obtain ⟨name, hl⟩ := HashMap.Enumeration.mem_values.1 (List.mem_of_mem_take htarget)
    obtain ⟨dn, hdn, -, -, haddress⟩ := h.registry name info hl
    exact ⟨dn, hdn, by rw [← haddress]; exact hheld⟩
  have hfresh : ∀ q bl, entryAt d.cluster.ns.tree q = some ⟨.kFile, bl⟩ → ∀ id ∈ bl,
      id ∉ turnIds env 0 (blockCount blockSize data) := by
    intro q bl hq id hid hmem
    obtain ⟨i, hi, rfl⟩ := mem_turnIds.1 hmem
    exact (hw.fresh.fresh i hi).tree q bl hq hid
  have hlive := (hstored h.live).write ht' hw.admissible.notDir hp hw.admissible.proper hent hfresh hdisk
  rw [flatten_chunks hk] at hlive
  have hlocated : ∀ id ∈ turnIds env 0 (blockCount blockSize data),
      ∃ info ∈ c'.ns.locations id, ((c'.stores info.address).held id).isSome := by
    intro id hid
    obtain ⟨i, hi, rfl⟩ := mem_turnIds.1 hid
    rw [Nat.zero_add]
    obtain ⟨⟨info, hinfo, -, hheld⟩, -⟩ := hturn i _ (List.getElem?_eq_getElem (hlen ▸ hi))
    exact ⟨info, hinfo, by rw [hheld]; rfl⟩
  refine ⟨c', hrun, hlive, ?_, fun dn hdn => ?_, ?_, fun id hne => ?_, fun dn hdn q bl hq id hid hheld => ?_⟩
  · obtain ⟨t, ht, hsaved⟩ := h.saved
    exact ⟨t, ht, hstored hsaved⟩
  · exact tidy_writeLoop _ _ _ _ (h.tidy dn hdn) c' .OK hrun
  · show RegistryOf dns c'.ns
    unfold RegistryOf
    rw [hplaced.datanodes]
    exact h.registry
  · by_cases hid : id ∈ turnIds env 0 (blockCount blockSize data)
    · exact hlocated id hid
    · have hloc : c'.ns.locations id = d.cluster.ns.locations id :=
        hplaced.keptLocations id (by rw [hlen]; exact hid)
      rw [show FsNamesystem.locations _ id = _ from hloc] at hne ⊢
      obtain ⟨info, hinfo, hheld⟩ := h.holder id hne
      exact ⟨info, hinfo, by rw [hkept id hid]; exact hheld⟩
  · by_cases hmem : id ∈ turnIds env 0 (blockCount blockSize data)
    · obtain ⟨info, hinfo, -⟩ := hlocated id hmem
      exact List.ne_nil_of_mem hinfo
    · have hloc : c'.ns.locations id = d.cluster.ns.locations id :=
        hplaced.keptLocations id (by rw [hlen]; exact hmem)
      rw [show FsNamesystem.locations _ id = _ from hloc]
      rw [show ((c'.stores dn.address).held id) = _ from hkept id hmem dn.address] at hheld
      -- a file with an old block is an old file
      have hold : entryAt d.cluster.ns.tree q = some ⟨.kFile, bl⟩ := by
        refine (file_elsewhere h.live.tree hw.admissible.notDir (hent q) ?_).1 hq
        rintro rfl
        rw [hent, if_pos rfl] at hq
        cases hq
        exact hmem hid
      exact h.booted dn hdn q bl hold id hid hheld

/-- One incident keeps the deployment and the abstract machine together. -/
theorem Kept.step (hb : 0 < blockSize) (d : Deployment) (i : Incident) (d' : Deployment) (s : Snapshots)
    (h : Kept dns d s) (hstep : DeploymentStep blockSize dns d i d') : Kept dns d' (s.apply i) := by
  obtain ⟨hok, hrun⟩ := hstep
  cases i with
  | call k =>
    cases k with
    | write path data env =>
      obtain ⟨c', hwrite, hkept⟩ := h.write hb hok.1 hok.2.1 hok.2.2
      rw [Deployment.step_write hwrite] at hrun
      cases hrun
      exact hkept
    | mkdirs path =>
      cases hrun
      exact h.mkdirs hok
    | delete path =>
      cases hrun
      exact h.delete path
  | heartbeat dn now capacity remaining rpc =>
    cases hrun
    exact h.heartbeat hok now capacity remaining rpc
  | boot dn boot =>
    obtain ⟨c, hc, hkept⟩ := h.boot hok boot
    rw [Deployment.step_boot hc] at hrun
    cases hrun
    exact hkept
  | save o =>
    cases hrun
    exact h.save hok
  | restart =>
    obtain ⟨t, ht, hkept⟩ := h.restart
    rw [Deployment.step_restart ht] at hrun
    cases hrun
    exact hkept

/-- A healthy incident happens. -/
theorem Kept.happens (hb : 0 < blockSize) (h : Kept dns d s) {i : Incident} (hok : i.Healthy blockSize dns d) :
    ∃ d', DeploymentStep blockSize dns d i d' := by
  cases i with
  | call k =>
    cases k with
    | write path data env =>
      obtain ⟨c', hwrite, -⟩ := h.write hb hok.1 hok.2.1 hok.2.2
      exact ⟨_, hok, Deployment.step_write hwrite⟩
    | mkdirs path => exact ⟨_, hok, rfl⟩
    | delete path => exact ⟨_, hok, rfl⟩
  | heartbeat dn now capacity remaining rpc => exact ⟨_, hok, rfl⟩
  | boot dn boot =>
    obtain ⟨c, hc, -⟩ := h.boot hok boot
    exact ⟨_, hok, Deployment.step_boot hc⟩
  | save o => exact ⟨_, hok, rfl⟩
  | restart =>
    obtain ⟨t, ht, -⟩ := h.restart
    exact ⟨_, hok, Deployment.step_restart ht⟩

/-- A run of which every next incident is healthy wherever the run before it has led goes on to its end. -/
theorem exists_run (hb : 0 < blockSize) {d₀ : Deployment} (h₀ : d₀.New dns) {before : List Incident}
    (h : Run (DeploymentStep blockSize dns) d₀ before d) :
    ∀ {more : List Incident}, (∀ i ∈ more, ∀ d, i.Healthy blockSize dns d) →
      ∃ d', Run (DeploymentStep blockSize dns) d₀ (before ++ more) d' := by
  intro more
  induction more using List.reverseRecOn with
  | nil => exact fun _ => ⟨d, by rwa [List.append_nil]⟩
  | append_singleton more i ih =>
    intro hmore
    obtain ⟨d', hrun⟩ := ih fun i' hi' => hmore i' (List.mem_append_left _ hi')
    have hkept : Kept dns d' (after Snapshots.apply {} (before ++ more)) := hrun.simulation (Kept.step hb) h₀.kept
    obtain ⟨d'', hstep⟩ := hkept.happens hb (hmore i (by simp) d')
    exact ⟨d'', by rw [← List.append_assoc]; exact hrun.snoc hstep⟩

/-! ## Reads -/

/-- A block on disk that one of its locations has reads as its bytes. -/
theorem OnDisk.blockData {c : Cluster} {id : Int64} {data : Bytes} (h : OnDisk c.stores dns id data)
    (hheld : ∃ info ∈ c.ns.locations id, ((c.stores info.address).held id).isSome) : c.blockData id = some data := by
  cases hdata : c.blockData id with
  | none =>
    obtain ⟨info, hinfo, hsome⟩ := hheld
    rw [List.findSome?_eq_none_iff.1 hdata info hinfo] at hsome
    cases hsome
  | some data' =>
    obtain ⟨info, -, hheld'⟩ := List.exists_of_findSome?_eq_some hdata
    rw [h.only _ _ hheld']

/-- What a file on disk reads as: its bytes, if every block has a location. -/
theorem content_onDisk {c : Cluster} {bl : List Int64} {ds : List Bytes} {data : Bytes}
    (h : List.Forall₂ (OnDisk c.stores dns) bl ds)
    (hheld : ∀ id ∈ bl, c.ns.locations id ≠ [] →
      ∃ info ∈ c.ns.locations id, ((c.stores info.address).held id).isSome) :
    c.content bl = some data ↔ (∀ id ∈ bl, c.ns.locations id ≠ []) ∧ data = ds.flatten := by
  induction h generalizing data with
  | nil =>
    constructor
    · intro hcontent
      exact ⟨fun id hid => absurd hid List.not_mem_nil, (Option.some.inj hcontent).symm⟩
    · rintro ⟨-, rfl⟩
      rfl
  | @cons id d bl ds hid _ ih =>
    rw [Cluster.content, List.flatten_cons, List.forall_mem_cons]
    by_cases hne : c.ns.locations id = []
    · have hnone : c.blockData id = none := by
        rw [Cluster.blockData, hne, List.findSome?_nil]
      simp [hnone, hne]
    · have ih := fun {data} => @ih data fun id' hid' => hheld id' (List.mem_cons_of_mem _ hid')
      rw [hid.blockData (hheld id (List.mem_cons_self ..) hne), Option.bind_some, Option.map_eq_some_iff]
      constructor
      · rintro ⟨data', hdata', rfl⟩
        obtain ⟨hall, rfl⟩ := ih.1 hdata'
        exact ⟨⟨hne, hall⟩, rfl⟩
      · rintro ⟨⟨-, hall⟩, rfl⟩
        exact ⟨ds.flatten, ih.2 ⟨hall, rfl⟩, rfl⟩

theorem Kept.isFile_iff (h : Kept dns d s) (q : List Bytes) : IsFile d.cluster.ns.tree q ↔ (s.live q).isSome := by
  refine ⟨?_, h.live.files q⟩
  rintro ⟨bl, hbl⟩
  obtain ⟨ds, hm, -⟩ := h.live.data q bl hbl
  rw [hm]
  rfl

/-- A read that returns OK gives the data of the live map. -/
theorem Kept.read_ok (h : Kept dns d s) {data : Bytes} (hread : d.cluster.read path = (.OK, data)) :
    data = (s.live (splitPath path)).getD [] := by
  by_cases hfile : IsFile d.cluster.ns.tree (splitPath path)
  · obtain ⟨bl, hbl⟩ := hfile
    obtain ⟨ds, hm, hds⟩ := h.live.data _ bl hbl
    obtain ⟨-, rfl⟩ := (content_onDisk hds fun id _ => h.holder id).1 ((read_file hbl data).1 hread)
    rw [hm]
    rfl
  · rw [read_not_file hfile] at hread
    rw [h.isFile_iff, Bool.not_eq_true, Option.isSome_eq_false_iff, Option.isNone_iff_eq_none] at hfile
    rw [hfile]
    exact (congrArg Prod.snd hread).symm

/-- Once all DataNodes have started every file reads. -/
theorem Kept.read (h : Kept dns d s) (hall : ∀ dn ∈ dns, dn ∈ s.booted) {data : Bytes}
    (hm : s.live (splitPath path) = some data) : d.cluster.read path = (.OK, data) := by
  obtain ⟨bl, hbl⟩ := (h.isFile_iff (splitPath path)).2 (by rw [hm]; rfl)
  obtain ⟨ds, hm', hds⟩ := h.live.data _ bl hbl
  rw [hm] at hm'
  cases hm'
  refine (read_file hbl _).2 ((content_onDisk hds fun id _ => h.holder id).2 ⟨?_, rfl⟩)
  intro id hid
  obtain ⟨data, hdisk⟩ := h.live.onDisk hbl id hid
  obtain ⟨dn, hdn, hheld⟩ := hdisk.somewhere
  exact h.booted dn (hall dn hdn) _ bl hbl id hid (by rw [hheld]; rfl)

/-- After any history of calls, heartbeats, DataNode starts, saves and restarts the files are those of the abstract
machine; what a read returns with OK is the data of its file; once every DataNode has started since the NameNode has,
every file can be read; and the NameNode comes up again at any time. -/
theorem history_persists {d₀ : Deployment} {incidents : List Incident} (hb : 0 < blockSize) (h₀ : d₀.New dns)
    (h : Run (DeploymentStep blockSize dns) d₀ incidents d) :
    (∀ q, IsFile d.cluster.ns.tree q ↔ ((after Snapshots.apply {} incidents).live q).isSome) ∧
    (∀ path data, d.cluster.read path = (.OK, data) →
      data = ((after Snapshots.apply {} incidents).live (splitPath path)).getD []) ∧
    ((∀ dn ∈ dns, dn ∈ (after Snapshots.apply {} incidents).booted) →
      ∀ path data, (after Snapshots.apply {} incidents).live (splitPath path) = some data →
        d.cluster.read path = (.OK, data)) ∧
    ∃ d', d.step blockSize .restart = some d' := by
  have hkept : Kept dns d (after Snapshots.apply {} incidents) := h.simulation (Kept.step hb) h₀.kept
  refine ⟨hkept.isFile_iff, fun path data => hkept.read_ok, fun hall path data => hkept.read hall, ?_⟩
  obtain ⟨t, ht, -⟩ := hkept.restart
  exact ⟨_, Deployment.step_restart ht⟩

end Steps

/-- A NameNode and a DataNode with an empty directory. -/
def newDeployment : Deployment :=
  { cluster := { ns := {}, stores := fun _ => { dataDir := bytes "/data" } }, image := none }

def plainBoot : Boot :=
  { now := 0, capacity := 100, remaining := 100, order := .insertion, heartbeat := .answered, report := .answered }

/-- A DataNode starts, and a file is written. -/
def firstWrite : List Incident :=
  [.boot ⟨9000⟩ plainBoot, .call (.write (bytes "/d/f") threeBytes healthyTurn)]

theorem newDeployment_new : newDeployment.New [⟨9000⟩] :=
  ⟨rfl, rfl, fun _ _ path hpath => absurd hpath (AList.notMem_empty path)⟩

theorem run_firstWrite : ∃ d, Run (DeploymentStep 2 [⟨9000⟩]) newDeployment firstWrite d := by
  have hmem : (⟨9000⟩ : DataNode) ∈ [(⟨9000⟩ : DataNode)] := List.mem_singleton_self _
  obtain ⟨c, hc, hkept⟩ := newDeployment_new.kept.boot hmem plainBoot
  have hempty : c.Empty := by
    have hns : c.ns = (({} : FsNamesystem).heartbeat 0 (DataNode.name ⟨9000⟩) DataNode.host 9000 100 100).blockReport
        (DataNode.name ⟨9000⟩) [] := by
      cases hc
      rfl
    refine ⟨?_, ?_, ?_⟩
    · rw [hns, FsNamesystem.blockReport_tree]
      rfl
    · rw [hns, FsNamesystem.blockReport_datanodes]
      exact HashMap.entries_insert_ne_nil (∅ : HashMap Bytes DataNodeInfo) _ _
    · rw [hns]
      unfold FsNamesystem.blockReport
      split <;> rfl
  have hheld : ∀ address id, (c.stores address).held id = none := by
    cases hc
    exact fun _ _ => rfl
  have hproper : ProperPath (bytes "/d/f") :=
    @properPath_joinPath [bytes "d", bytes "f"] (by decide) (by simp only [Component]; decide)
  have hw : HealthyWrite 2 c (bytes "/d/f") threeBytes healthyTurn := by
    refine ⟨hempty.admissible hproper, by decide, fun i _ => healthyTurn_healthy i, ?_, ?_⟩
    · exact fun i _ => Cluster.fresh_of_empty hempty.tree hheld _
    · exact (freshIds_two [] (show blockCount 2 threeBytes ≤ 2 by decide)).distinct
  have hplain : PlainPath (bytes "/d/f") := isSpace_of_all (by decide)
  have hwrite : (Incident.call (.write (bytes "/d/f") threeBytes healthyTurn)).Healthy 2 [⟨9000⟩]
      { newDeployment with cluster := c } := ⟨hempty.holds.writable, hw, hplain⟩
  have hboot : DeploymentStep 2 [⟨9000⟩] newDeployment (.boot ⟨9000⟩ plainBoot) _ := ⟨hmem, Deployment.step_boot hc⟩
  obtain ⟨d, hstep⟩ := hkept.happens (by decide) hwrite
  exact ⟨d, (Run.nil.snoc hboot).snoc hstep⟩

/-- The file is saved and removed, and the NameNode starts again. -/
def removedAndRestarted : List Incident :=
  firstWrite ++ [.save .renamed, .call (.delete (bytes "/d/f")), .restart, .boot ⟨9000⟩ plainBoot]

/-- The file is there again. -/
theorem history_persists_removed : ∃ d, Run (DeploymentStep 2 [⟨9000⟩]) newDeployment removedAndRestarted d ∧
    d.cluster.read (bytes "/d/f") = (.OK, [1, 2, 3]) := by
  obtain ⟨d₁, hfirst⟩ := run_firstWrite
  have hrest : ∀ i ∈ [Incident.save .renamed, .call (.delete (bytes "/d/f")), .restart, .boot ⟨9000⟩ plainBoot],
      ∀ d, i.Healthy 2 [⟨9000⟩] d := by
    simp only [List.forall_mem_cons]
    exact ⟨fun _ _ => SaveOutcome.noConfusion, fun _ => trivial, fun _ => trivial, fun _ => List.mem_singleton_self _,
      fun _ hi => absurd hi List.not_mem_nil⟩
  obtain ⟨d, hrun⟩ := exists_run (by decide) newDeployment_new hfirst hrest
  refine ⟨d, hrun, (history_persists (by decide) newDeployment_new hrun).2.2.1 ?_ (bytes "/d/f") [1, 2, 3] rfl⟩
  exact fun dn hdn => hdn

end MiniHadoop.Ndfs

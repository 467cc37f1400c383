/-
What the file system is for: a map from paths to bytes. In a healthy cluster every history of writes,
`Mkdirs` and `Delete` is one of the map, and every file reads as the map has it.
-/
import MiniHadoop.Base.Runs
import MiniHadoop.Ndfs.WriteOutcome

namespace MiniHadoop.Ndfs

open Text Wire Chunks Runs

/-! ## The abstract map -/

/-- The files, by their components, with their data. -/
abbrev FileMap := List Bytes → Option Bytes

namespace FileMap

def write (m : FileMap) (parts : List Bytes) (data : Bytes) : FileMap := Function.update m parts (some data)

/-- A path goes with everything below it; the root stays. -/
def delete (m : FileMap) (parts : List Bytes) : FileMap :=
  fun q => if parts ≠ [] ∧ parts <+: q then none else m q

end FileMap

/-! ## Calls -/

/-- A call of the client; a write comes with what its turns meet. -/
inductive Call where
  | write (path : Bytes) (data : Buffer) (env : Nat → ChunkEnv)
  | mkdirs (path : Bytes)
  | delete (path : Bytes)

/-- The call against a cluster whose NameNode answers. -/
def Cluster.call (blockSize : Int64) (c : Cluster) : Call → Option (Cluster × Status)
  | .write path data env => c.writeFile blockSize path data true env
  | .mkdirs path => some (c.mkdirs .answered path)
  | .delete path => some (c.delete .answered path)

/-- The call on the map. -/
def FileMap.call (m : FileMap) : Call → FileMap
  | .write path data _ => m.write (splitPath path) data.1
  | .mkdirs _ => m
  | .delete path => m.delete (splitPath path)

/-- The files after a history: each with the data of its last write that was not deleted since. -/
def FileMap.after (calls : List Call) : FileMap := calls.foldl FileMap.call fun _ => none

/-- A path to write to: not empty and without a trailing slash, not a directory, and without a file above
it. -/
structure Admissible (c : Cluster) (path : Bytes) : Prop where
  proper : ProperPath path
  notDir : ¬ IsDir c.ns.tree (splitPath path)
  parents : ∀ q, q <+: splitPath path → q ≠ splitPath path → ¬ IsFile c.ns.tree q

/-- A write of data to an admissible path, in a healthy cluster and with fresh ids. -/
structure HealthyWrite (blockSize : Int64) (c : Cluster) (path : Bytes) (data : Buffer) (env : Nat → ChunkEnv) :
    Prop where
  admissible : Admissible c path
  nonempty : data.1 ≠ []
  healthy : ∀ i < blockCount blockSize data, (env i).Healthy
  fresh : FreshIds c env 0 (blockCount blockSize data)

def HealthyCall (blockSize : Int64) (c : Cluster) : Call → Prop
  | .write path data env => HealthyWrite blockSize c path data env
  | .mkdirs _ => True
  | .delete _ => True

/-- A healthy call that returns. -/
def CallStep (blockSize : Int64) (c : Cluster) (k : Call) (c' : Cluster) : Prop :=
  HealthyCall blockSize c k ∧ ∃ st, c.call blockSize k = some (c', st)

/-- A cluster to start from: no files, at least one DataNode, and no count of the blocks taken yet. The
stores may hold anything. -/
structure Cluster.Empty (c : Cluster) : Prop where
  tree : c.ns.tree = emptyTree
  datanodes : c.ns.datanodes.entries ≠ []
  uncounted : c.ns.totalBlocks = 0

/-! ## The simulation -/

/-- The cluster holds the files of the map: the same paths are files, each reads as its data, and no two
files share a block. -/
structure Holds (c : Cluster) (m : FileMap) : Prop where
  tree : TreeOk c.ns.tree
  writable : c.ns.inSafeMode = false
  files : ∀ q, (m q).isSome → IsFile c.ns.tree q
  data : ∀ q bl, entryAt c.ns.tree q = some ⟨.kFile, bl⟩ → ∃ d, m q = some d ∧ c.content bl = some d
  apart : ∀ q q' bl bl' id, entryAt c.ns.tree q = some ⟨.kFile, bl⟩ → entryAt c.ns.tree q' = some ⟨.kFile, bl'⟩ →
    id ∈ bl → id ∈ bl' → q = q'

section Holds

variable {blockSize : Int64} {c : Cluster} {m : FileMap} {path : Bytes} {data : Buffer} {env : Nat → ChunkEnv}

theorem Cluster.Empty.no_file (h : c.Empty) (q : List Bytes) : ¬ IsFile c.ns.tree q := by
  rw [h.tree]
  exact noFileOn_new [] q q (List.prefix_refl q)

theorem Cluster.Empty.holds (h : c.Empty) : Holds c fun _ => none := by
  have hno := h.no_file
  refine ⟨by rw [h.tree]; exact emptyTree_ok, ?_, fun q hq => (by cases hq), fun q bl hq => absurd ⟨bl, hq⟩ (hno q),
    fun q _ bl _ _ hq => absurd ⟨bl, hq⟩ (hno q)⟩
  rw [FsNamesystem.inSafeMode, if_neg h.datanodes, if_pos h.uncounted]

/-- `StartFile` accepts an admissible path. -/
theorem Holds.accepts (h : Holds c m) (ha : Admissible c path) : c.ns.Accepts path true := by
  refine ⟨h.writable, .inl rfl, ha.proper, fun q hq => ?_⟩
  refine ha.parents q (hq.trans ha.proper.parent_isPrefix) ?_
  rintro rfl
  exact ha.proper.not_prefix_parent hq

/-- A new file at a path that was no directory, with the directories it needs, leaves the files elsewhere as
they were. -/
theorem file_elsewhere {t t' : INode} {p d q : List Bytes} {ids bl : List Int64} (ht : TreeOk t) (hdir : ¬ IsDir t p)
    (hent : entryAt t' q = if q = p then some ⟨.kFile, ids⟩ else if p <+: q then none
      else if q <+: d ∧ entryAt t q = none then some dirEntry else entryAt t q) (hq : q ≠ p) :
    entryAt t' q = some ⟨.kFile, bl⟩ ↔ entryAt t q = some ⟨.kFile, bl⟩ := by
  rw [hent, if_neg hq]
  constructor
  · intro he
    split at he
    · cases he
    · split at he
      · cases he
      · exact he
  · intro he
    rw [if_neg, if_neg]
    · exact he
    · rintro ⟨-, hnone⟩
      rw [he] at hnone; cases hnone
    · -- a file below the path would make it a directory
      intro hpre
      exact hdir ⟨_, entryAt_above ht.nodes hpre (Ne.symm hq) (by rw [he]; rfl)⟩

/-- A healthy write to an admissible path: it returns OK, the path has a block for every chunk and reads as
the data, and every other file is as it was. -/
theorem Holds.write (h : Holds c m) (hb : 0 < blockSize) (hw : HealthyWrite blockSize c path data env) :
    ∃ c', c.writeFile blockSize path data true env = some (c', .OK) ∧
      Holds c' (m.write (splitPath path) data.1) ∧
      (c'.ns.getBlocks path).blocks.length = blockCount blockSize data := by
  have hk := chunkLen_pos hb
  have hacc := h.accepts hw.admissible
  obtain ⟨c', hrun, hplaced, ht', hent⟩ := writeFile_accepted hk h.tree hacc hw.nonempty
    (fun i hi => (hw.healthy i hi).rpc) hw.fresh
  have hlen : (chunks (chunkLen blockSize) data.1).length = blockCount blockSize data := length_chunks _ _
  have hfile : entryAt c'.ns.tree (splitPath path) = some ⟨.kFile, turnIds env 0 (blockCount blockSize data)⟩ := by
    rw [hent, if_pos rfl]
  -- a file elsewhere is an old file
  have hother : ∀ q bl, q ≠ splitPath path →
      (entryAt c'.ns.tree q = some ⟨.kFile, bl⟩ ↔ entryAt c.ns.tree q = some ⟨.kFile, bl⟩) :=
    fun q bl hq => file_elsewhere h.tree hw.admissible.notDir (hent q) hq
  have hnew : ∀ q bl, entryAt c.ns.tree q = some ⟨.kFile, bl⟩ →
      ∀ id ∈ bl, id ∉ turnIds env 0 (blockCount blockSize data) := by
    intro q bl hq id hid hmem
    obtain ⟨i, hi, rfl⟩ := mem_turnIds.1 hmem
    exact (hw.fresh.fresh i hi).tree q bl hq hid
  have hcontent : c'.content (turnIds env 0 (blockCount blockSize data)) = some data.1 := by
    rw [← hlen, hplaced.content (datanodes_of_not_safe h.writable)]
    have hall := (pieces_eq_flatten env 0 (chunks (chunkLen blockSize) data.1)).2 fun j ch hj => by
      rw [Nat.zero_add]
      exact (hw.healthy j (by rw [← hlen]; exact (List.getElem?_eq_some_iff.1 hj).1)).stored ch
    rw [hall, flatten_chunks hk]
  refine ⟨c', hrun, ⟨ht', hplaced.safeMode.trans h.writable, fun q hq => ?_, fun q bl hq => ?_,
    fun q q' bl bl' id hq hq' hid hid' => ?_⟩, ?_⟩
  · by_cases hqp : q = splitPath path
    · rw [hqp]; exact ⟨_, hfile⟩
    · rw [FileMap.write, Function.update_of_ne hqp] at hq
      obtain ⟨bl, hbl⟩ := h.files q hq
      exact ⟨bl, (hother q bl hqp).2 hbl⟩
  · by_cases hqp : q = splitPath path
    · subst hqp
      rw [hfile] at hq
      cases hq
      exact ⟨data.1, Function.update_self .., hcontent⟩
    · have hold := (hother q bl hqp).1 hq
      obtain ⟨d, hd, hcd⟩ := h.data q bl hold
      refine ⟨d, (Function.update_of_ne hqp ..).trans hd, ?_⟩
      rw [content_congr fun id hid => hplaced.blockData_kept (by rw [hlen]; exact hnew q bl hold id hid)]
      exact hcd
  · by_cases hqp : q = splitPath path <;> by_cases hqp' : q' = splitPath path
    · rw [hqp, hqp']
    · subst hqp
      rw [hfile] at hq
      cases hq
      exact absurd hid (hnew q' bl' ((hother q' bl' hqp').1 hq') id hid')
    · subst hqp'
      rw [hfile] at hq'
      cases hq'
      exact absurd hid' (hnew q bl ((hother q bl hqp).1 hq) id hid)
    · exact h.apart q q' bl bl' id ((hother q bl hqp).1 hq) ((hother q' bl' hqp').1 hq') hid hid'
  · rw [FsNamesystem.getBlocks_file hfile, List.length_map, turnIds, List.length_map, List.length_range]

/-- `Mkdirs` makes no file and removes none. -/
theorem Holds.mkdirs (h : Holds c m) (path : Bytes) : Holds (c.mkdirs .answered path).1 m := by
  have hns : (c.mkdirs .answered path).1 = { c with ns := { c.ns with tree := (Ndfs.mkdirs c.ns.tree path).1 } } := rfl
  rw [hns]
  refine ⟨h.tree.mkdirs path, h.writable, fun q hq => ?_, fun q bl hq => ?_, fun q q' bl bl' id hq hq' => ?_⟩
  · obtain ⟨bl, hbl⟩ := h.files q hq
    exact ⟨bl, (file_mkdirsFrom h.tree).2 hbl⟩
  · obtain ⟨d, hd, hcd⟩ := h.data q bl ((file_mkdirsFrom h.tree).1 hq)
    refine ⟨d, hd, ?_⟩
    rw [← hcd]; exact content_congr fun id _ => rfl
  · exact h.apart q q' bl bl' id ((file_mkdirsFrom h.tree).1 hq) ((file_mkdirsFrom h.tree).1 hq')

/-- `Delete` takes away the path and what is below it; the other files keep their blocks, and the NameNode
keeps their locations. -/
theorem Holds.delete (h : Holds c m) (path : Bytes) :
    Holds (c.delete .answered path).1 (m.delete (splitPath path)) := by
  have hns : (c.delete .answered path).1 = { c with ns := (c.ns.delete path).1 } := rfl
  obtain ⟨ht', hent⟩ := FsNamesystem.delete_tree h.tree path
  have hkept : ∀ q bl, entryAt (c.ns.delete path).1.tree q = some ⟨.kFile, bl⟩ →
      ¬ (splitPath path ≠ [] ∧ splitPath path <+: q) ∧ entryAt c.ns.tree q = some ⟨.kFile, bl⟩ := by
    intro q bl hq
    rw [hent] at hq
    split at hq
    · cases hq
    · rename_i hout; exact ⟨hout, hq⟩
  rw [hns]
  refine ⟨ht', (FsNamesystem.delete_inSafeMode path).trans h.writable, fun q hq => ?_, fun q bl hq => ?_,
    fun q q' bl bl' id hq hq' => ?_⟩
  · rw [FileMap.delete] at hq
    split at hq
    · cases hq
    · rename_i hout
      obtain ⟨bl, hbl⟩ := h.files q hq
      exact ⟨bl, (hent q).trans ((if_neg hout).trans hbl)⟩
  · obtain ⟨hout, hold⟩ := hkept q bl hq
    obtain ⟨d, hd, hcd⟩ := h.data q bl hold
    refine ⟨d, (if_neg hout).trans hd, ?_⟩
    rw [← hcd]
    refine content_congr fun id hid => ?_
    -- the id is not of the file removed, so its locations are still there
    have hlook := @FsNamesystem.delete_blockToDatanodes c.ns path id fun bl' hbl' hid' => hout (by
      obtain rfl := h.apart q _ bl bl' id hold hbl' hid hid'
      refine ⟨fun hnil => ?_, List.prefix_refl _⟩
      rw [hnil] at hbl'
      exact not_isFile_root h.tree ⟨bl', hbl'⟩)
    unfold Cluster.blockData FsNamesystem.locations HashMap.slot
    rw [show ({ c with ns := (c.ns.delete path).1 } : Cluster).ns.blockToDatanodes.lookup id = _ from hlook]
  · exact h.apart q q' bl bl' id (hkept q bl hq).2 (hkept q' bl' hq').2

/-- One call keeps the cluster and the map together. -/
theorem Holds.call (hb : 0 < blockSize) (c : Cluster) (k : Call) (c' : Cluster) (m : FileMap) (h : Holds c m)
    (hk : CallStep blockSize c k c') : Holds c' (m.call k) := by
  obtain ⟨hok, st, hrun⟩ := hk
  cases k with
  | write path data env =>
    obtain ⟨c'', hrun', hholds, -⟩ := h.write hb hok
    rw [show c.call blockSize (.write path data env) = c.writeFile blockSize path data true env from rfl, hrun'] at hrun
    cases hrun
    exact hholds
  | mkdirs path => cases hrun; exact h.mkdirs path
  | delete path => cases hrun; exact h.delete path

/-- After every history of healthy calls the files are those of the map, each reads as its data, and the
next write returns OK and leaves a block for every chunk, the last one possibly short. -/
theorem history_refines_fileMap {c₀ : Cluster} {calls : List Call} (hb : 0 < blockSize) (h₀ : c₀.Empty)
    (h : Run (CallStep blockSize) c₀ calls c) :
    (∀ path, IsFile c.ns.tree (splitPath path) ↔ (FileMap.after calls (splitPath path)).isSome) ∧
    (∀ path d, FileMap.after calls (splitPath path) = some d → c.read path = (.OK, d)) ∧
    ∀ path data env, HealthyWrite blockSize c path data env →
      ∃ c', c.writeFile blockSize path data true env = some (c', .OK) ∧
        (c'.ns.getBlocks path).blocks.length =
          (data.1.length + blockSize.toUInt64.toNat - 1) / blockSize.toUInt64.toNat := by
  have hholds : Holds c (FileMap.after calls) := h.simulation (Holds.call hb) h₀.holds
  refine ⟨fun path => ⟨?_, hholds.files _⟩, fun path d hd => ?_, fun path data env hw => ?_⟩
  · rintro ⟨bl, hbl⟩
    obtain ⟨d, hd, -⟩ := hholds.data _ bl hbl
    rw [hd]; rfl
  · obtain ⟨bl, hbl⟩ := hholds.files (splitPath path) (by rw [hd]; rfl)
    obtain ⟨d', hd', hcontent⟩ := hholds.data _ bl hbl
    rw [hd] at hd'
    cases hd'
    exact (read_file hbl d).2 hcontent
  · obtain ⟨c', hrun, -, hlen⟩ := hholds.write hb hw
    exact ⟨c', hrun, hlen⟩

/-- In an empty cluster every path that names something is admissible. -/
theorem Cluster.Empty.admissible (h : c.Empty) (hp : ProperPath path) : Admissible c path := by
  refine ⟨hp, ?_, fun q _ _ => h.no_file q⟩
  rintro ⟨bl, hbl⟩
  rw [h.tree, emptyTree] at hbl
  cases hs : splitPath path with
  | nil => exact absurd hs hp.splitPath_ne_nil
  | cons k q => rw [hs, entryAt_new_cons] at hbl; cases hbl

end Holds

theorem freshCluster_empty (dn : DataNodeInfo) : (freshCluster [dn]).Empty :=
  ⟨rfl, fun h => (by cases h), rfl⟩

theorem history_threeBytes :
    ∃ c calls, Run (CallStep 2) (freshCluster [localNode 9000]) calls c ∧
      FileMap.after calls [bytes "d", bytes "f"] = some [1, 2, 3] ∧ c.read (bytes "/d/f") = (.OK, [1, 2, 3]) := by
  have h₀ := freshCluster_empty (localNode 9000)
  have hproper : ProperPath (bytes "/d/f") :=
    @properPath_joinPath [bytes "d", bytes "f"] (by decide) (by simp only [Component]; decide)
  have hw : HealthyWrite 2 (freshCluster [localNode 9000]) (bytes "/d/f") threeBytes healthyTurn :=
    ⟨h₀.admissible hproper, by decide, fun i _ => healthyTurn_healthy i, freshIds_two _ (by decide)⟩
  obtain ⟨c, hrun, -⟩ := h₀.holds.write (by decide) hw
  have hone : Run (CallStep 2) (freshCluster [localNode 9000]) [.write (bytes "/d/f") threeBytes healthyTurn] c :=
    Run.snoc .nil ⟨hw, .OK, hrun⟩
  have hafter : FileMap.after [.write (bytes "/d/f") threeBytes healthyTurn] [bytes "d", bytes "f"] =
      some [1, 2, 3] := rfl
  exact ⟨c, _, hone, hafter, (history_refines_fileMap (by decide) h₀ hone).2.1 (bytes "/d/f") _ hafter⟩

end MiniHadoop.Ndfs

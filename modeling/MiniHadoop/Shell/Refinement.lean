/-
What the program is for: a tree of directories and files that all runs share, and the files of the local machine. Against
a healthy cluster every session of runs is one of these two maps, with what it prints and with its exit codes.
-/
import MiniHadoop.Mapred.FullChain
import MiniHadoop.Ndfs.TreeRefinement
import MiniHadoop.Shell.Main

namespace MiniHadoop.Shell

open Text Words Wire Runs Ndfs

/-! ## The two maps -/

inductive Node where
  | dir
  | file (data : Bytes)
  deriving DecidableEq, Repr

/-- What is at a path of NDFS, by its components, and what is in a local file. -/
@[ext] structure State where
  remote : List Bytes → Option Node
  files : Bytes → Option Bytes

namespace State

/-- A file, in the directories that it needs. -/
def write (s : State) (p : List Bytes) (data : Bytes) : State :=
  { s with remote := fun q =>
      if q = p then some (.file data) else if p <+: q then none
      else if q <+: p.dropLast ∧ (s.remote q).isNone then some .dir else s.remote q }

/-- The directories on a path that are missing. -/
def mkdirs (s : State) (p : List Bytes) : State :=
  { s with remote := fun q => if q <+: p ∧ (s.remote q).isNone then some .dir else s.remote q }

/-- A path goes with what is below it. -/
def remove (s : State) (p : List Bytes) : State :=
  { s with remote := fun q => if p <+: q then none else s.remote q }

/-- A local file. -/
def store (s : State) (path content : Bytes) : State :=
  { s with files := Function.update s.files path (some content) }

/-- The data of a file, and nothing for what is no file. -/
def data (s : State) (p : List Bytes) : Bytes :=
  match s.remote p with
  | some (.file d) => d
  | _ => []

/-- There is a file on the path. -/
def Blocked (s : State) (p : List Bytes) : Prop := ∃ q d, q <+: p ∧ s.remote q = some (.file d)

theorem data_file {s : State} {p : List Bytes} {d : Bytes} (h : s.remote p = some (.file d)) : s.data p = d := by
  rw [data, h]

theorem data_not_file {s : State} {p : List Bytes} (h : ¬ ∃ d, s.remote p = some (.file d)) : s.data p = [] := by
  unfold data
  split
  · rename_i d hd
    exact absurd ⟨d, hd⟩ h
  · rfl

end State

/-! ## The commands on the maps -/

/-- An operation of `dfs`. What is not there reads as an empty file; an empty file is not written. -/
def DfsOp.Effect (s s' : State) (exit : Exit) : DfsOp → Prop
  | .put localPath remotePath =>
    match s.files localPath with
    | none => s' = s ∧ exit = { code := 1, err := bytes "Cannot open: " ++ localPath ++ bytes "\n" }
    | some content =>
      s' = (if content = [] then s else s.write (splitPath remotePath) content) ∧
        exit = { out := bytes "Written " ++ decimal content.length ++ bytes " bytes to " ++ remotePath ++ bytes "\n" }
  | .get remotePath localPath =>
    s' = s.store localPath (s.data (splitPath remotePath)) ∧
      exit = { out := bytes "Read " ++ decimal (s.data (splitPath remotePath)).length ++ bytes " bytes from " ++
        remotePath ++ bytes "\n" }
  | .ls path =>
    s' = s ∧ ∃ names : List Bytes, names.Nodup ∧
      (∀ k, k ∈ names ↔ (s.remote (splitPath path ++ [k])).isSome) ∧
      exit = { out := names.flatMap fun k =>
        (if s.remote (splitPath path ++ [k]) = some .dir then k ++ bytes "/" else k) ++ bytes "\n" }
  | .rm path =>
    if splitPath path ≠ [] ∧ (s.remote (splitPath path)).isSome then
      s' = s.remove (splitPath path) ∧ exit = { out := bytes "Deleted\n" }
    else s' = s ∧ exit = { err := bytes "Delete failed: " ++ (bytes "delete failed: " ++ path) ++ bytes "\n" }
  | .mkdir path =>
    (¬ s.Blocked (splitPath path) ∧ s' = s.mkdirs (splitPath path) ∧ exit = { out := bytes "Created\n" }) ∨
      (s.Blocked (splitPath path) ∧ s' = s ∧
        exit = { err := bytes "Mkdir failed: " ++ (bytes "mkdirs failed: " ++ path) ++ bytes "\n" })
  | .nothing => s' = s ∧ exit = {}

/-- A command that returns; one that starts a server returns when it has failed. -/
def Command.Effect (s s' : State) (exit : Exit) : Command → Prop
  | .print text => s' = s ∧ exit = { out := text }
  | .refuse message => s' = s ∧ exit = { code := 1, err := message }
  | .namenode _ => s' = s ∧ exit = { code := 1 }
  | .datanode .. => s' = s ∧ exit = { code := 1 }
  | .dfs op => op.Effect s s' exit
  | .wordcount inputPath outputPath =>
    ∃ counts, Mapred.CountsOf ((s.files inputPath).getD []) counts ∧ s' = s.store outputPath counts ∧
      exit = { out := bytes "WordCount done, output: " ++ outputPath ++ bytes "\n" }

/-! ## The view of a world -/

/-- What is at a path of a cluster. -/
def nodeAt (c : Cluster) (q : List Bytes) : Option Node :=
  (entryAt c.ns.tree q).map fun e => if e.type = .kDirectory then .dir else .file ((c.content e.blocks).getD [])

def World.view (w : World) : State := { remote := nodeAt w.cluster, files := fun path => w.files.lookup path }

/-- The cluster holds the files of some map, and its DataNodes' names fit into messages. -/
def World.Sound (w : World) : Prop := (∃ m, Holds w.cluster m) ∧ NamesFit w.cluster.ns

section Views

variable {c c' : Cluster} {m : FileMap} {q : List Bytes}

/-- In a cluster that holds a map its files have the data of the map. -/
theorem nodeAt_holds (h : Holds c m) (q : List Bytes) : nodeAt c q =
    (entryAt c.ns.tree q).map fun e => if e.type = .kDirectory then .dir else .file ((m q).getD []) := by
  unfold nodeAt
  cases he : entryAt c.ns.tree q with
  | none => rfl
  | some e =>
    obtain ⟨type, bl⟩ := e
    cases type with
    | kDirectory => rfl
    | kFile =>
      obtain ⟨d, hd, hcontent⟩ := h.data q bl he
      rw [Option.map_some, Option.map_some, hcontent, hd]

theorem nodeAt_isSome : (nodeAt c q).isSome = (entryAt c.ns.tree q).isSome := Option.isSome_map

theorem nodeAt_isNone : (nodeAt c q).isNone ↔ entryAt c.ns.tree q = none := by
  rw [nodeAt, Option.isNone_map, Option.isNone_iff_eq_none]

theorem nodeAt_file (h : Holds c m) : (∃ d, nodeAt c q = some (.file d)) ↔ IsFile c.ns.tree q := by
  rw [nodeAt_holds h]
  constructor
  · rintro ⟨d, hd⟩
    obtain ⟨⟨type, bl⟩, he, hnode⟩ := Option.map_eq_some_iff.1 hd
    cases type with
    | kDirectory => cases hnode
    | kFile => exact ⟨bl, he⟩
  · rintro ⟨bl, he⟩
    rw [he]
    exact ⟨_, rfl⟩

/-- What a path reads as, whatever is there. -/
theorem data_view {w : World} (h : Holds w.cluster m) (path : Bytes) :
    w.cluster.read path = (.OK, w.view.data (splitPath path)) := by
  by_cases hfile : IsFile w.cluster.ns.tree (splitPath path)
  · obtain ⟨bl, hbl⟩ := hfile
    obtain ⟨d, hd, hcontent⟩ := h.data _ bl hbl
    have hnode : w.view.remote (splitPath path) = some (.file d) := by
      refine (nodeAt_holds h _).trans ?_
      rw [hbl, hd]
      rfl
    rw [(read_file hbl d).2 hcontent, State.data_file hnode]
  · rw [read_not_file hfile, State.data_not_file fun hnode => hfile ((nodeAt_file h).1 hnode)]

end Views

/-! ## Listings -/

section Listing

variable {t n : INode} {path : Bytes}

theorem entryAt_listed (ht : TreeOk t) (hn : n ∈ listDir t path) :
    entryAt t (splitPath path ++ [n.name]) = some n.entry := by
  unfold listDir at hn
  split at hn
  · cases hn
  · rename_i dir hdir
    split at hn
    · cases hn
    · have hwalk : INode.shape.walk t (splitPath path) = some dir := hdir
      rw [entryAt, Forest.Shape.walk_append, hwalk, Option.bind_some, Forest.Shape.walk_cons,
        show INode.shape.findChild dir n.name = some n from Forest.find_of_mem (ht.nodes _ _ hwalk).nodup hn]
      rfl

/-- The names are those of what is directly below the path. -/
theorem mem_names_iff (ht : TreeOk t) (path k : Bytes) :
    k ∈ (listDir t path).map INode.name ↔ (entryAt t (splitPath path ++ [k])).isSome := by
  constructor
  · intro hk
    obtain ⟨n, hn, rfl⟩ := List.mem_map.1 hk
    rw [entryAt_listed ht hn]
    rfl
  · intro hsome
    obtain ⟨dir, hdir, hchild⟩ : ∃ dir, INode.shape.walk t (splitPath path) = some dir ∧ (dir.findChild k).isSome := by
      rw [entryAt, Option.isSome_map, Forest.Shape.walk_append] at hsome
      cases hwalk : INode.shape.walk t (splitPath path) with
      | none =>
        rw [hwalk] at hsome
        cases hsome
      | some dir =>
        rw [hwalk, Option.bind_some, Forest.Shape.walk_cons] at hsome
        refine ⟨dir, rfl, ?_⟩
        cases hfind : dir.findChild k with
        | none =>
          rw [show INode.shape.findChild dir k = none from hfind] at hsome
          cases hsome
        | some child => rfl
    have hmem : k ∈ dir.children.map INode.name := by
      by_contra hnot
      rw [show dir.findChild k = none from Forest.find_eq_none.2 hnot] at hchild
      cases hchild
    have htype : dir.type = .kDirectory := by
      cases hty : dir.type with
      | kDirectory => rfl
      | kFile =>
        rw [(ht.nodes _ _ hdir).file hty] at hmem
        cases hmem
    unfold listDir
    rw [show getNode t path = some dir from hdir]
    simp only [htype, ne_eq, not_true_eq_false, if_false]
    exact hmem

theorem getListing_view {c : Cluster} (ht : TreeOk c.ns.tree) (path : Bytes) :
    c.ns.getListing path = ((listDir c.ns.tree path).map INode.name).map fun k =>
      if nodeAt c (splitPath path ++ [k]) = some .dir then k ++ bytes "/" else k := by
  rw [FsNamesystem.getListing, List.map_map]
  refine List.map_congr_left fun n hn => ?_
  rw [Function.comp_apply, nodeAt, entryAt_listed ht hn, Option.map_some]
  by_cases hty : n.type = .kDirectory
  · have hdir : n.entry.type = .kDirectory := hty
    rw [if_pos hty, if_pos hdir, if_pos rfl]
    rfl
  · have hfile : ¬ n.entry.type = .kDirectory := hty
    rw [if_neg hty, if_neg hfile, if_neg (by simp)]

end Listing

/-! ## One run -/

/-- A write that can be made: the local file, if it is there and has data, goes to a path where a file may be. -/
structure CanPut (w : World) (env : Env) (localPath remotePath : Bytes) : Prop where
  fits : PathFits remotePath
  size : ∀ content, w.files.lookup localPath = some content → content.length < maxSize
  write : ∀ data : Buffer, w.files.lookup localPath = some data.1 → data.1 ≠ [] →
    HealthyWrite kDefaultBlockSize w.cluster remotePath data env.turns

/-- The run meets nothing but a healthy cluster, and its messages fit. -/
def DfsOp.Healthy (w : World) (env : Env) : DfsOp → Prop
  | .put localPath remotePath => CanPut w env localPath remotePath
  | .get remotePath _ =>
    PathFits remotePath ∧ env.rpc = .answered ∧ env.attempt = (fun _ _ => .complete) ∧ env.localFile = .written ∧
      (NameNode.writeGetBlocks (w.cluster.ns.getBlocks remotePath)).length < 2 ^ 31
  | .ls path =>
    PathFits path ∧ env.rpc = .answered ∧ (NameNode.writeListing (w.cluster.ns.getListing path)).length < 2 ^ 31
  | .rm path => PathFits path ∧ env.rpc = .answered
  | .mkdir path => PathFits path ∧ env.rpc = .answered
  | .nothing => True

/-- The same for a command, whose arguments can be read; one that starts a server finds that it cannot listen. -/
def Command.Healthy (w : World) (env : Env) : Command → Prop
  | .print _ => True
  | .refuse _ => True
  | .namenode port =>
    (portArg port 9000).isOk ∧ (NameNode.construct (w.files.lookup World.imagePath)).isOk ∧ env.listens = false
  | .datanode _ nnPort bsPort =>
    (portArg nnPort 9000).isOk ∧ (portArg bsPort 9010).isOk ∧ env.directory = true ∧ env.listens = false
  | .dfs op => env.connects = true ∧ op.Healthy w env
  | .wordcount inputPath _ => ∀ word, occurrences isSpace ((w.files.lookup inputPath).getD []) word < 2 ^ 63

/-- The run returns, keeps the world sound, and does to the view what is said. -/
def Does {ε : Type} (w : World) (result : Option (Except ε (World × Exit))) (effect : State → State → Exit → Prop) :
    Prop :=
  ∃ w' exit, result = some (.ok (w', exit)) ∧ w'.Sound ∧ effect w.view w'.view exit

section Steps

variable {w : World} {env : Env} {path : Bytes}

theorem does_put {localPath remotePath : Bytes} (hw : w.Sound) (hput : CanPut w env localPath remotePath) :
    Does w (w.put env localPath remotePath) fun s s' exit =>
      (DfsOp.put localPath remotePath).Effect s s' exit := by
  obtain ⟨⟨m, hholds⟩, hnames⟩ := hw
  cases hlookup : w.files.lookup localPath with
  | none =>
    refine ⟨w, _, by rw [World.put, hlookup], ⟨⟨m, hholds⟩, hnames⟩, ?_⟩
    unfold DfsOp.Effect
    dsimp only
    rw [show w.view.files localPath = none from hlookup]
    exact ⟨rfl, rfl⟩
  | some content =>
    obtain ⟨data, rfl⟩ : ∃ data : Buffer, data.1 = content := ⟨⟨content, hput.size content hlookup⟩, rfl⟩
    have hvector : readVector data.1.length data.1 = some data := by
      have := readVector_append data []
      rwa [List.append_nil] at this
    have heq := writeFile_eq env.now kDefaultBlockSize data true env.turns hput.fits hnames
    by_cases hempty : data.1 = []
    · -- nothing is sent
      have hwrite : w.cluster.writeFile kDefaultBlockSize remotePath data true env.turns = some (w.cluster, .OK) :=
        writeFile_empty hempty
      rw [hwrite] at heq
      refine ⟨w, _, by rw [World.put, hlookup]; simp only [hvector, heq]; rfl, ⟨⟨m, hholds⟩, hnames⟩, ?_⟩
      unfold DfsOp.Effect
      dsimp only
      rw [show w.view.files localPath = some data.1 from hlookup]
      exact ⟨(if_pos hempty).symm, rfl⟩
    · have hhealthy := hput.write data hlookup hempty
      obtain ⟨c', hwrite, hholds', -⟩ := hholds.write (by decide) hhealthy
      obtain ⟨c'', hwrite', -, -, hent⟩ := writeFile_accepted (chunkLen_pos (by decide)) hholds.tree
        (hholds.accepts hhealthy.admissible) hempty (fun i hi => (hhealthy.healthy i hi).rpc) hhealthy.fresh
      obtain rfl : c' = c'' := by
        rw [hwrite] at hwrite'
        cases hwrite'
        rfl
      have hnames' := hnames.of_datanodes (writeLoop_datanodes _ _ _ _ hwrite)
      rw [hwrite] at heq
      refine ⟨{ w with cluster := c' }, _, by rw [World.put, hlookup]; simp only [hvector, heq]; rfl,
        ⟨⟨_, hholds'⟩, hnames'⟩, ?_⟩
      unfold DfsOp.Effect
      dsimp only
      rw [show w.view.files localPath = some data.1 from hlookup]
      dsimp only
      rw [if_neg hempty]
      refine ⟨State.ext (funext fun q => ?_) rfl, rfl⟩
      obtain ⟨name, hname⟩ := hhealthy.admissible.proper.splitPath
      have hparent : (splitPath remotePath).dropLast = splitPath (getParentDir remotePath) := by
        rw [hname, List.dropLast_concat]
      show nodeAt c' q = (if q = splitPath remotePath then some (Node.file data.1)
        else if splitPath remotePath <+: q then none
        else if q <+: (splitPath remotePath).dropLast ∧ (nodeAt w.cluster q).isNone then some Node.dir
        else nodeAt w.cluster q)
      rw [nodeAt_holds hholds', hent, hparent]
      simp only [nodeAt_isNone]
      by_cases hq : q = splitPath remotePath
      · subst hq
        rw [if_pos rfl, if_pos rfl, FileMap.write, Function.update_self]
        rfl
      · rw [if_neg hq, if_neg hq, FileMap.write, Function.update_of_ne hq]
        by_cases hbelow : splitPath remotePath <+: q
        · rw [if_pos hbelow, if_pos hbelow]
          rfl
        · rw [if_neg hbelow, if_neg hbelow]
          by_cases hnew : q <+: splitPath (getParentDir remotePath) ∧ entryAt w.cluster.ns.tree q = none
          · rw [if_pos hnew, if_pos hnew]
            rfl
          · rw [if_neg hnew, if_neg hnew, nodeAt_holds hholds]

theorem does_get {remotePath : Bytes} (localPath : Bytes) (hw : w.Sound) (hp : PathFits remotePath)
    (hrpc : env.rpc = .answered) (hattempt : env.attempt = fun _ _ => .complete) (hfile : env.localFile = .written)
    (hresponse : (NameNode.writeGetBlocks (w.cluster.ns.getBlocks remotePath)).length < 2 ^ 31) :
    Does w (some (w.get env remotePath localPath)) fun s s' exit => (DfsOp.get remotePath localPath).Effect s s' exit := by
  obtain ⟨⟨m, hholds⟩, hnames⟩ := hw
  have hread : DfsClient.readFile w.cluster env.now .answered (fun _ _ => .complete) remotePath [] =
      .ok (.OK, w.view.data (splitPath remotePath)) := by
    rw [readFile_eq w.cluster env.now .answered _ [] hp hresponse]
    exact congrArg Except.ok (data_view hholds remotePath)
  refine ⟨{ w with files := w.files.insert localPath (w.view.data (splitPath remotePath)) }, _, ?_,
    ⟨⟨m, hholds⟩, hnames⟩, State.ext rfl (funext fun path => ?_), rfl⟩
  · rw [World.get, hrpc, hattempt, hread, hfile]
    rfl
  · show (w.files.insert localPath _).lookup path = Function.update (fun path => w.files.lookup path) localPath _ path
    rw [HashMap.lookup_insert_eq]
    by_cases hpath : path = localPath
    · rw [if_pos hpath, hpath, Function.update_self]
    · rw [if_neg hpath, Function.update_of_ne hpath]

theorem does_ls (hw : w.Sound) (hp : PathFits path) (hrpc : env.rpc = .answered)
    (hresponse : (NameNode.writeListing (w.cluster.ns.getListing path)).length < 2 ^ 31) :
    Does w (some (w.ls env path)) fun s s' exit => (DfsOp.ls path).Effect s s' exit := by
  obtain ⟨⟨m, hholds⟩, hnames⟩ := hw
  have hlist := list_eq w.cluster env.now .answered hp hresponse
  rw [if_pos rfl, getListing_view hholds.tree path] at hlist
  refine ⟨w, _, by rw [World.ls, hrpc, hlist]; rfl, ⟨⟨m, hholds⟩, hnames⟩, rfl,
    (listDir w.cluster.ns.tree path).map INode.name, listDir_nodup hholds.tree path, fun k => ?_, ?_⟩
  · rw [mem_names_iff hholds.tree]
    exact (congrArg (· = true) nodeAt_isSome.symm).to_iff
  · rw [List.flatMap_map]
    rfl

/-- `Delete` says whether there was something to remove. -/
theorem delete_done (ns : FsNamesystem) (path : Bytes) :
    (ns.delete path).2 = true ↔ splitPath path ≠ [] ∧ (entryAt ns.tree (splitPath path)).isSome := by
  have hsome : (Ndfs.delete ns.tree path).isSome ↔ splitPath path ≠ [] ∧ (entryAt ns.tree (splitPath path)).isSome :=
    deleteFrom_isSome
  rw [← hsome, FsNamesystem.delete]
  cases hnode : getNode ns.tree path with
  | none =>
    rw [hsome, entryAt, show INode.shape.walk ns.tree (splitPath path) = none from hnode]
    simp
  | some node => cases Ndfs.delete ns.tree path <;> simp

theorem does_rm (hw : w.Sound) (hp : PathFits path) (hrpc : env.rpc = .answered) :
    Does w (some (w.rm env path)) fun s s' exit => (DfsOp.rm path).Effect s s' exit := by
  obtain ⟨⟨m, hholds⟩, hnames⟩ := hw
  have hdelete := delete_eq w.cluster env.now .answered hp
  have hholds' := hholds.delete path
  have hnames' := hnames.of_datanodes (FsNamesystem.delete_datanodes path)
  obtain ⟨-, hent⟩ := FsNamesystem.delete_tree hholds.tree path
  have hcluster : (w.cluster.delete .answered path).1 = { w.cluster with ns := (w.cluster.ns.delete path).1 } := rfl
  have hstatus : (w.cluster.delete .answered path).2 =
      if (w.cluster.ns.delete path).2 then .OK else .ioError (bytes "delete failed: " ++ path) := rfl
  -- what there is afterwards, whether something was removed or not
  have hview : ∀ q, nodeAt (w.cluster.delete .answered path).1 q =
      if splitPath path ≠ [] ∧ splitPath path <+: q then none else nodeAt w.cluster q := by
    intro q
    rw [nodeAt_holds hholds', nodeAt_holds hholds, show entryAt (w.cluster.delete .answered path).1.ns.tree q = _ from
      hent q, FileMap.delete]
    split
    · rfl
    · rfl
  refine ⟨{ w with cluster := (w.cluster.delete .answered path).1 },
    if (w.cluster.ns.delete path).2 then { out := bytes "Deleted\n" }
      else { err := bytes "Delete failed: " ++ (bytes "delete failed: " ++ path) ++ bytes "\n" }, ?_,
    ⟨⟨_, hholds'⟩, hnames'⟩, ?_⟩
  · rw [World.rm, hrpc, hdelete]
    show some (if (w.cluster.delete .answered path).2.code = .kOk then _ else _) = _
    rw [hstatus]
    cases (w.cluster.ns.delete path).2 <;> rfl
  · have hdone : (w.cluster.ns.delete path).2 = true ↔
        splitPath path ≠ [] ∧ (w.view.remote (splitPath path)).isSome := by
      rw [delete_done]
      exact and_congr_right fun _ => (congrArg (· = true) nodeAt_isSome.symm).to_iff
    unfold DfsOp.Effect
    dsimp only
    by_cases hthere : splitPath path ≠ [] ∧ (w.view.remote (splitPath path)).isSome
    · rw [if_pos hthere, if_pos (hdone.2 hthere)]
      refine ⟨State.ext (funext fun q => ?_) rfl, rfl⟩
      refine (hview q).trans ?_
      simp only [hthere.1, ne_eq, not_false_eq_true, true_and]
      rfl
    · rw [if_neg hthere, if_neg fun h => hthere (hdone.1 h)]
      refine ⟨State.ext (funext fun q => ?_) rfl, rfl⟩
      refine (hview q).trans ?_
      split
      · -- below a path that is not there is nothing
        rename_i hbelow
        have hnone : entryAt w.cluster.ns.tree (splitPath path) = none := by
          by_contra hne
          exact hthere ⟨hbelow.1, nodeAt_isSome.trans (Option.isSome_iff_ne_none.2 hne)⟩
        exact (nodeAt_isNone.2 (entryAt_below_none hbelow.2 hnone) |> Option.isNone_iff_eq_none.1).symm
      · rfl

theorem does_mkdir (hw : w.Sound) (hp : PathFits path) (hrpc : env.rpc = .answered) :
    Does w (some (w.mkdir env path)) fun s s' exit => (DfsOp.mkdir path).Effect s s' exit := by
  obtain ⟨⟨m, hholds⟩, hnames⟩ := hw
  have hmkdirs := mkdirs_eq w.cluster env.now .answered hp
  have hholds' := hholds.mkdirs path
  have hstatus : (w.cluster.mkdirs .answered path).2 =
      if (w.cluster.ns.mkdirs path).2 then .OK else .ioError (bytes "mkdirs failed: " ++ path) := rfl
  have htrue : (w.cluster.ns.mkdirs path).2 = true ↔ NoFileOn w.cluster.ns.tree (splitPath path) :=
    mkdirsFrom_true hholds.tree.rootType
  have hblocked : w.view.Blocked (splitPath path) ↔ ¬ NoFileOn w.cluster.ns.tree (splitPath path) := by
    unfold NoFileOn
    push Not
    constructor
    · rintro ⟨q, d, hq, hnode⟩
      exact ⟨q, hq, (nodeAt_file hholds).1 ⟨d, hnode⟩⟩
    · rintro ⟨q, hq, hfile⟩
      obtain ⟨d, hnode⟩ := (nodeAt_file hholds).2 hfile
      exact ⟨q, d, hq, hnode⟩
  refine ⟨{ w with cluster := (w.cluster.mkdirs .answered path).1 },
    if (w.cluster.ns.mkdirs path).2 then { out := bytes "Created\n" }
      else { err := bytes "Mkdir failed: " ++ (bytes "mkdirs failed: " ++ path) ++ bytes "\n" }, ?_,
    ⟨⟨_, hholds'⟩, hnames⟩, ?_⟩
  · rw [World.mkdir, hrpc, hmkdirs]
    show some (if (w.cluster.mkdirs .answered path).2.code = .kOk then _ else _) = _
    rw [hstatus]
    cases (w.cluster.ns.mkdirs path).2 <;> rfl
  · by_cases hno : NoFileOn w.cluster.ns.tree (splitPath path)
    · rw [if_pos (htrue.2 hno)]
      refine .inl ⟨fun h => hblocked.1 h hno, State.ext (funext fun q => ?_) rfl, rfl⟩
      show nodeAt (w.cluster.mkdirs .answered path).1 q =
        if q <+: splitPath path ∧ (nodeAt w.cluster q).isNone then some Node.dir else nodeAt w.cluster q
      rw [nodeAt_holds hholds', show entryAt (w.cluster.mkdirs .answered path).1.ns.tree q = _ from
        entryAt_mkdirsFrom hno hholds.tree.rootType q]
      simp only [nodeAt_isNone]
      split
      · rfl
      · rw [nodeAt_holds hholds]
    · have hfalse : (w.cluster.ns.mkdirs path).2 = false := Bool.eq_false_iff.2 fun h => hno (htrue.1 h)
      rw [hfalse, if_neg (by simp)]
      refine .inr ⟨hblocked.2 hno, State.ext (funext fun q => ?_) rfl, rfl⟩
      show nodeAt (w.cluster.mkdirs .answered path).1 q = nodeAt w.cluster q
      rw [nodeAt_holds hholds', nodeAt_holds hholds, show (w.cluster.mkdirs .answered path).1.ns.tree = _ from
        mkdirsFrom_false hfalse]

theorem does_dfs {op : DfsOp} (hw : w.Sound) (hconnects : env.connects = true) (hop : op.Healthy w env) :
    Does w (w.dfs env op) fun s s' exit => op.Effect s s' exit := by
  unfold World.dfs
  rw [if_pos hconnects]
  cases op with
  | put localPath remotePath => exact does_put hw hop
  | get remotePath localPath =>
    obtain ⟨hp, hrpc, hattempt, hfile, hresponse⟩ := hop
    exact does_get localPath hw hp hrpc hattempt hfile hresponse
  | ls path =>
    obtain ⟨hp, hrpc, hresponse⟩ := hop
    exact does_ls hw hp hrpc hresponse
  | rm path =>
    obtain ⟨hp, hrpc⟩ := hop
    exact does_rm hw hp hrpc
  | mkdir path =>
    obtain ⟨hp, hrpc⟩ := hop
    exact does_mkdir hw hp hrpc
  | nothing => exact ⟨w, {}, rfl, hw, rfl, rfl⟩

/-- The word count writes the counts of its input; a file that is not there has no words. -/
theorem does_wordcount {inputPath : Bytes} (outputPath : Bytes) (hw : w.Sound)
    (hcounts : ∀ word, occurrences isSpace ((w.files.lookup inputPath).getD []) word < 2 ^ 63) :
    Does w (some (.ok (w.wordcount env inputPath outputPath) : Except Death _)) fun s s' exit =>
      (Command.wordcount inputPath outputPath).Effect s s' exit := by
  obtain ⟨counts, hcountsOf, hfile⟩ := @Mapred.countsOf_outputFile { inputPath, outputPath, numReduceTasks := 1 }
    env.hash env.sort (w.files.insert inputPath ((w.files.lookup inputPath).getD [])) _ (le_refl 1)
    (AList.lookup_insert _) hcounts
  refine ⟨_, _, rfl, hw, counts, hcountsOf, State.ext rfl (funext fun path => ?_), rfl⟩
  have hlookup : (w.files.insert inputPath ((w.files.lookup inputPath).getD [])).lookup
      (Mapred.JobTracker.submitJob { inputPath, outputPath, numReduceTasks := 1 } Mapred.wordCountMapper
        Mapred.wordCountReducer none).config.inputPath = some ((w.files.lookup inputPath).getD []) :=
    AList.lookup_insert _
  rw [Mapred.JobTracker.outputFile_eq, hlookup] at hfile
  show (w.files.insert outputPath _).lookup path = Function.update (fun path => w.files.lookup path) outputPath _ path
  rw [HashMap.lookup_insert_eq]
  by_cases hpath : path = outputPath
  · rw [if_pos hpath, hpath, Function.update_self]
    exact hfile
  · rw [if_neg hpath, Function.update_of_ne hpath]

theorem exists_ok {ε α : Type} {result : Except ε α} (h : result.isOk) : ∃ a, result = .ok a := by
  cases result with
  | error e => cases h
  | ok a => exact ⟨a, rfl⟩

theorem namenode_healthy {port : Option Bytes} (h : (Command.namenode port).Healthy w env) :
    w.namenode env port = .ok (some { code := 1 }) := by
  obtain ⟨hport, himage, hlistens⟩ := h
  obtain ⟨p, hp⟩ := exists_ok hport
  obtain ⟨ns, hns⟩ := exists_ok himage
  rw [World.namenode, hp, hns, hlistens]
  rfl

theorem datanode_healthy {nnHost nnPort bsPort : Option Bytes}
    (h : (Command.datanode nnHost nnPort bsPort).Healthy w env) :
    w.datanode env nnPort bsPort = .ok (some { code := 1 }) := by
  obtain ⟨hnn, hbs, hdirectory, hlistens⟩ := h
  obtain ⟨p, hp⟩ := exists_ok hnn
  obtain ⟨p', hp'⟩ := exists_ok hbs
  rw [World.datanode, hp, hp', hdirectory, hlistens]
  rfl

theorem does_main {args : List Bytes} (hw : w.Sound) (hok : (Command.parse args).Healthy w env) :
    Does w (w.main env args) fun s s' exit => (Command.parse args).Effect s s' exit := by
  unfold World.main
  cases hcommand : Command.parse args with
  | print text => exact ⟨w, _, rfl, hw, rfl, rfl⟩
  | refuse message => exact ⟨w, _, rfl, hw, rfl, rfl⟩
  | namenode port =>
    rw [hcommand] at hok
    exact ⟨w, _, congrArg w.served (namenode_healthy hok), hw, rfl, rfl⟩
  | datanode nnHost nnPort bsPort =>
    rw [hcommand] at hok
    exact ⟨w, _, congrArg w.served (datanode_healthy hok), hw, rfl, rfl⟩
  | dfs op =>
    rw [hcommand] at hok
    obtain ⟨w', exit, hdfs, hdoes⟩ := does_dfs hw hok.1 hok.2
    exact ⟨w', exit, congrArg (Option.map (Except.mapError Death.throws)) hdfs, hdoes⟩
  | wordcount inputPath outputPath =>
    rw [hcommand] at hok
    exact does_wordcount outputPath hw hok

end Steps

/-! ## Sessions -/

/-- A run of the program: its arguments, what it met, and how it ended. -/
structure Invocation where
  args : List Bytes
  env : Env
  exit : Exit

/-- A run that meets nothing but a healthy cluster, and returns. -/
def Invocation.Step (w : World) (run : Invocation) (w' : World) : Prop :=
  (Command.parse run.args).Healthy w run.env ∧ w.main run.env run.args = some (.ok (w', run.exit))

/-- The command on the maps, with the exit that the user sees. -/
def State.Step (s : State) (run : List Bytes × Exit) (s' : State) : Prop := (Command.parse run.1).Effect s s' run.2

/-- Every session of healthy runs is one of the two maps, with the same arguments, the same output and the same exit
codes; and the next healthy run returns. -/
theorem session_refines {w₀ w : World} {runs : List Invocation} (h₀ : w₀.cluster.Empty) (hnames : NamesFit w₀.cluster.ns)
    (h : Run Invocation.Step w₀ runs w) :
    Run State.Step w₀.view (runs.map fun run => (run.args, run.exit)) w.view ∧
      ∀ env args, (Command.parse args).Healthy w env → ∃ w' exit, w.main env args = some (.ok (w', exit)) := by
  have hboth : w.Sound ∧ Run State.Step w₀.view (runs.map fun run => (run.args, run.exit)) w.view := by
    refine Run.map (fun w run w' hw hstep => ?_) h ⟨⟨_, h₀.holds⟩, hnames⟩
    obtain ⟨hok, hmain⟩ := hstep
    obtain ⟨w'', exit, hmain', hw'', heffect⟩ := does_main hw hok
    rw [hmain] at hmain'
    cases hmain'
    exact ⟨hw'', heffect⟩
  obtain ⟨hw, hrun⟩ := hboth
  refine ⟨hrun, fun env args hok => ?_⟩
  obtain ⟨w', exit, hmain, -⟩ := does_main hw hok
  exact ⟨w', exit, hmain⟩

/-- A NameNode and a DataNode, and a local file of three bytes. -/
def threeBytesWorld : World :=
  { cluster := freshCluster [localNode 9000]
    files := (∅ : HashMap Bytes Bytes).insert (bytes "in") threeBytes.1 }

def plainEnv : Env :=
  { now := 0, connects := true, rpc := .answered, turns := healthyTurn, attempt := fun _ _ => .complete
    localFile := .written, hash := fun _ => 0, sort := Mapred.JobTracker.recordSort, listens := true, directory := true
    boot := { now := 0, capacity := 0, remaining := 0, order := .insertion, heartbeat := .answered, report := .answered } }

def putArgs : List Bytes := [bytes "dfs", bytes "put", bytes "in", bytes "/d/f"]

def getArgs : List Bytes := [bytes "dfs", bytes "get", bytes "/d/f", bytes "out"]

/-- The file is put and got under another name. -/
theorem session_putGet : ∃ runs w, Run Invocation.Step threeBytesWorld runs w ∧
    runs.map (·.args) = [putArgs, getArgs] ∧
    Run State.Step threeBytesWorld.view (runs.map fun run => (run.args, run.exit)) w.view := by
  have h₀ := freshCluster_empty (localNode 9000)
  have hproper : ProperPath (bytes "/d/f") :=
    @properPath_joinPath [bytes "d", bytes "f"] (by decide) (by simp only [Component]; decide)
  have hlookup : threeBytesWorld.files.lookup (bytes "in") = some threeBytes.1 := AList.lookup_insert _
  have hput : (Command.parse putArgs).Healthy threeBytesWorld plainEnv := by
    refine ⟨rfl, pathFits_df, fun content hcontent => ?_, fun data hdata _ => ?_⟩
    · obtain rfl : threeBytes.1 = content := Option.some.inj (hlookup.symm.trans hcontent)
      exact threeBytes.2
    · obtain rfl : threeBytes = data := Subtype.ext (Option.some.inj (hlookup.symm.trans hdata))
      exact ⟨h₀.admissible hproper, by decide, fun i _ => healthyTurn_healthy i, freshIds_two _ (by decide)⟩
  obtain ⟨w₁, exit₁, hmain₁, hw₁, -⟩ := does_main ⟨⟨_, h₀.holds⟩, namesFit_local⟩ hput
  have hresponse : (threeBytesWorld.main plainEnv putArgs).map
      (Except.map fun r => (NameNode.writeGetBlocks (r.1.cluster.ns.getBlocks (bytes "/d/f"))).length) =
        some (.ok 91) := by
    decide +kernel
  rw [hmain₁] at hresponse
  have hsize : (NameNode.writeGetBlocks (w₁.cluster.ns.getBlocks (bytes "/d/f"))).length = 91 :=
    Except.ok.inj (Option.some.inj hresponse)
  have hfits : (NameNode.writeGetBlocks (w₁.cluster.ns.getBlocks (bytes "/d/f"))).length < 2 ^ 31 := by
    rw [hsize]
    decide
  have hget : (Command.parse getArgs).Healthy w₁ plainEnv := ⟨rfl, pathFits_df, rfl, rfl, rfl, hfits⟩
  obtain ⟨w₂, exit₂, hmain₂, -⟩ := does_main hw₁ hget
  have hrun : Run Invocation.Step threeBytesWorld
      [⟨putArgs, plainEnv, exit₁⟩, ⟨getArgs, plainEnv, exit₂⟩] w₂ :=
    Run.snoc (Run.snoc .nil ⟨hput, hmain₁⟩) ⟨hget, hmain₂⟩
  exact ⟨_, w₂, hrun, rfl, (session_refines h₀ namesFit_local hrun).1⟩

end MiniHadoop.Shell

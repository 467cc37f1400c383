/-
What a call of `StartFile` can leave behind that the caller did not ask for: a refused call may have
removed what was at the path and made directories, and an overwriting call takes everything below its
path along. For each of the two, exactly when it does not happen.
-/
import MiniHadoop.Ndfs.BlockMap

namespace MiniHadoop.Ndfs

open Text Forest Runs

/-! ## Removing a directory and making it again -/

/-- The path names an empty directory, the last child of its parent. -/
def LastEmptyDir (t : INode) (c : List Bytes) : Prop :=
  ∃ parent k, INode.shape.walk t c.dropLast = some parent ∧ c.getLast? = some k ∧
    parent.children.getLast? = some (INode.new .kDirectory k)

/-- The directory with its child `k` removed and a directory of that name made. -/
def remake (k : Bytes) (n : INode) : Option INode := (n.removeChild k).bind fun n' => some (mkdirsFrom n' [k]).1

theorem remake_name {k : Bytes} (n n' : INode) (h : remake k n = some n') : n'.name = n.name := by
  obtain ⟨m, hm, h⟩ := Option.bind_eq_some_iff.1 h
  rw [← Option.some.inj h]
  exact (mkdirsFrom_meta [k] m).1.trans (removeChild_name n m hm)

/-- The new directory stands behind its siblings, so nothing has changed exactly when the old one did too and was
empty. -/
theorem remake_eq_iff {n : INode} {k : Bytes} (hn : NodeOk n) (hk : (n.findChild k).isSome) :
    remake k n = some n ↔ n.children.getLast? = some (INode.new .kDirectory k) := by
  obtain ⟨l, hl⟩ : ∃ l, remove INode.name k n.children = some l :=
    Option.isSome_iff_exists.1 (remove_isSome.trans hk)
  have hgone : (n.withChildren l).findChild k = none := (find_remove k hn.nodup hl).trans (if_pos rfl)
  have hmade : remake k n = some (n.withChildren (l ++ [INode.new .kDirectory k])) := by
    rw [remake, INode.removeChild, hl, Option.map_some, Option.bind_some, mkdirsFrom_missing hgone]
    rfl
  have hname : (INode.new .kDirectory k).name = k := rfl
  rw [hmade, ← remove_append_self_iff hname hn.nodup hl]
  constructor
  · intro h
    exact congrArg INode.children (Option.some.inj h)
  · intro h
    rw [h]
    exact congrArg some (INode.shape.with_self n)

/-- `Delete` and `Mkdirs` of one path work on its parent alone. -/
theorem deleteFrom_mkdirsFrom {t t' : INode} (ht : TreeOk t) {init : List Bytes} {k : Bytes}
    (hdel : deleteFrom t (init ++ [k]) = some t') :
    INode.shape.alter (remake k) t init = some (mkdirsFrom t' (init ++ [k])).1 := by
  have hpresent : (entryAt t (init ++ [k])).isSome := (deleteFrom_isSome.1 (by rw [hdel]; rfl)).2
  have hdir : entryAt t' init = some dirEntry := by
    rw [entryAt_deleteFrom ht.nodes hdel, if_neg (not_concat_isPrefix init k)]
    exact entryAt_above ht.nodes (List.prefix_append init [k]) (by simp) hpresent
  obtain ⟨n, hw, -⟩ := Option.map_eq_some_iff.1 hdir
  have hno : NoFileOn t' init := noFileOn_of_isDir (deleteFrom_ok ht.nodes hdel) ⟨[], hdir⟩
  rw [← mkdirsFrom_append hno hw [k],
    Shape.alter_congr (g := fun n => some (mkdirsFrom n [k]).1) init hw rfl]
  rw [deleteFrom_concat] at hdel
  rw [Shape.alter_alter removeChild_name init hdel]
  rfl

/-- What is at the path is removed and a directory is made there: the tree is as before exactly when the path
named an empty directory, the last child of its parent. -/
theorem delete_mkdirsFrom_eq_iff {t : INode} (ht : TreeOk t) {c : List Bytes} (hne : c ≠ [])
    (hc : (entryAt t c).isSome) :
    (mkdirsFrom ((deleteFrom t c).getD t) c).1 = t ↔ LastEmptyDir t c := by
  obtain ⟨init, k, rfl⟩ : ∃ init k, c = init ++ [k] := ⟨_, _, (List.dropLast_append_getLast hne).symm⟩
  obtain ⟨t', hdel⟩ := Option.isSome_iff_exists.1 (deleteFrom_isSome.2 ⟨hne, hc⟩)
  obtain ⟨child, hchild⟩ : ∃ child, INode.shape.walk t (init ++ [k]) = some child := by
    unfold entryAt at hc
    rw [Option.isSome_map] at hc
    exact Option.isSome_iff_exists.1 hc
  rw [Shape.walk_append] at hchild
  obtain ⟨parent, hw, hchild⟩ := Option.bind_eq_some_iff.1 hchild
  have hfound : (parent.findChild k).isSome := by
    rw [Shape.walk_cons] at hchild
    obtain ⟨found, hf, -⟩ := Option.bind_eq_some_iff.1 hchild
    exact Option.isSome_iff_exists.2 ⟨found, hf⟩
  have hlast : LastEmptyDir t (init ++ [k]) ↔ parent.children.getLast? = some (INode.new .kDirectory k) := by
    unfold LastEmptyDir
    rw [List.dropLast_concat, List.getLast?_concat, hw]
    constructor
    · rintro ⟨_, _, ⟨⟩, ⟨⟩, h⟩; exact h
    · exact fun h => ⟨parent, k, rfl, rfl, h⟩
  have hparent := deleteFrom_mkdirsFrom ht hdel
  rw [hdel, Option.getD_some, hlast, ← remake_eq_iff (ht.nodes init parent hw) hfound]
  constructor
  · intro h
    rw [h] at hparent
    rw [← Shape.walk_alter_same remake_name init hparent hw, hw]
  · intro h
    exact Option.some.inj (hparent.symm.trans (Shape.alter_same init hw h))

theorem LastEmptyDir.present {t : INode} {c : List Bytes} (h : LastEmptyDir t c) : (entryAt t c).isSome := by
  obtain ⟨parent, k, hw, hk, hlast⟩ := h
  obtain ⟨init, rfl⟩ := List.getLast?_eq_some_iff.1 hk
  rw [List.dropLast_concat] at hw
  unfold entryAt
  rw [Option.isSome_map, Shape.walk_append, hw, Option.bind_some, Shape.walk_cons]
  have hmem : k ∈ parent.children.map INode.name :=
    List.mem_map.2 ⟨INode.new .kDirectory k, List.mem_of_getLast? hlast, rfl⟩
  cases hf : INode.shape.findChild parent k with
  | none => exact absurd hmem (find_eq_none.1 hf)
  | some child => rfl

/-- Clearing a path and making it a directory leaves the tree as it was exactly when a file above the path is in
the way, or the same directory is made again in the same place. -/
theorem clear_mkdirsFrom_eq_iff {t : INode} (ht : TreeOk t) {c : List Bytes} (hne : c ≠ []) :
    (mkdirsFrom ((deleteFrom t c).getD t) c).1 = t ↔
      (∃ d, d <+: c ∧ d ≠ c ∧ IsFile t d) ∨ LastEmptyDir t c := by
  cases hc : entryAt t c with
  | some e =>
    have hsome : (entryAt t c).isSome := by rw [hc]; rfl
    rw [delete_mkdirsFrom_eq_iff ht hne hsome, or_iff_right]
    rintro ⟨d, hd, hdc, hf⟩
    rw [entryAt_below_file ht.nodes hf hd hdc] at hsome; cases hsome
  | none =>
    have hdel : deleteFrom t c = none := Option.not_isSome_iff_eq_none.1 fun h => by
      have := (deleteFrom_isSome.1 h).2
      rw [hc] at this; cases this
    rw [hdel, Option.getD_none, or_iff_left fun h => by
      have := h.present
      rw [hc] at this; cases this]
    constructor
    · intro heq
      by_contra hno
      have hfree : NoFileOn t c := fun d hd hf => by
        by_cases hdc : d = c
        · obtain ⟨bl, hb⟩ := hf
          rw [hdc, hc] at hb; cases hb
        · exact hno ⟨d, hd, hdc, hf⟩
      obtain ⟨bl, hb⟩ := (isDir_mkdirsFrom ht).2 hfree
      rw [heq, hc] at hb; cases hb
    · rintro ⟨d, hd, -, hf⟩
      refine mkdirsFrom_false (Bool.eq_false_iff.2 fun hm => ?_)
      exact (mkdirsFrom_true ht.rootType).1 hm d hd hf

namespace FsNamesystem

variable {s : FsNamesystem} {path : Bytes} {overwrite : Bool}

/-! ## All or nothing -/

/-- A call that returned the empty result left the tree and the block map as they were. -/
def AllOrNothing (s : FsNamesystem) (r : FsNamesystem × Allocation) : Prop :=
  r.2 = {} → r.1.tree = s.tree ∧ r.1.blockToDatanodes = s.blockToDatanodes

/-- When a call of `StartFile` that is refused leaves no trace. -/
inductive LeavesNoTrace (s : FsNamesystem) (path : Bytes) (overwrite : Bool) : Prop
  | safeMode : s.inSafeMode = true → LeavesNoTrace s path overwrite
  | present : overwrite = false → entryAt s.tree (splitPath path) ≠ none → LeavesNoTrace s path overwrite
  | proper : ProperPath path → LeavesNoTrace s path overwrite
  | root : splitPath path = [] → LeavesNoTrace s path overwrite
  | blocked {d : List Bytes} : d <+: splitPath path → d ≠ splitPath path → IsFile s.tree d →
      LeavesNoTrace s path overwrite
  | remade : LastEmptyDir s.tree (splitPath path) → LeavesNoTrace s path overwrite

/-- An accepted call has targets to return. -/
theorem startFile_accepted_ne (ht : TreeOk s.tree) (h : s.Accepts path overwrite) (id : Int64) (order : DataNodeOrder) :
    (s.startFile id order path overwrite).2 ≠ {} := by
  obtain ⟨t, -, heq, -⟩ := startFile_accepted ht h id order
  have hsome : s.datanodes.entries ≠ [] := by
    intro hnone
    have := h.writable
    unfold inSafeMode at this
    rw [if_pos hnone] at this; cases this
  rw [heq]
  exact fun hempty => chooseTargets_ne_nil hsome order (congrArg Allocation.targets hempty)

/-- A refused call on a proper path changes nothing: a file above the path is in the way of both steps. -/
theorem refused_proper_tree (ht : TreeOk s.tree) (hp : ProperPath path)
    (hno : ¬ NoFileOn s.tree (splitPath (getParentDir path))) :
    (Ndfs.mkdirs (s.clearedTree path) (getParentDir path)).1 = s.tree := by
  have hnone : entryAt s.tree (splitPath path) = none := by
    unfold NoFileOn at hno
    push Not at hno
    obtain ⟨d, hd, hf⟩ := hno
    refine entryAt_below_file ht.nodes hf (hd.trans hp.parent_isPrefix) ?_
    rintro rfl
    exact hp.not_prefix_parent hd
  have hcl : s.clearedTree path = s.tree := by
    unfold clearedTree
    rw [getNode_eq_none_iff.2 hnone]; rfl
  rw [hcl]
  exact mkdirsFrom_false (Bool.eq_false_iff.2 fun hm => hno ((mkdirsFrom_true ht.rootType).1 hm))

/-- What a refused call on a path with a slash at its end leaves. -/
theorem refused_improper_tree_iff (ht : TreeOk s.tree) (hp : ¬ ProperPath path) (hne : splitPath path ≠ []) :
    (Ndfs.mkdirs (s.clearedTree path) (getParentDir path)).1 = s.tree ↔
      (∃ d, d <+: splitPath path ∧ d ≠ splitPath path ∧ IsFile s.tree d) ∨ LastEmptyDir s.tree (splitPath path) := by
  rw [clearedTree_eq, Ndfs.mkdirs, ← (splitPath_of_not_proper hp).resolve_left hne, Ndfs.delete]
  exact clear_mkdirsFrom_eq_iff ht hne

/-- The root is neither removed nor made. -/
theorem refused_root_tree (hroot : splitPath path = []) :
    (Ndfs.mkdirs (s.clearedTree path) (getParentDir path)).1 = s.tree := by
  have hparent : splitPath (getParentDir path) = [] := by
    by_cases hne : path = []
    · rw [hne, getParentDir_bare List.not_mem_nil, splitPath_slash]
    · have hlast : path.getLast? = some slash := by
        by_contra hl
        obtain ⟨name, hn⟩ := splitPath_getParentDir hne hl
        rw [hroot] at hn
        exact List.append_ne_nil_of_right_ne_nil _ (List.cons_ne_nil _ _) hn.symm
      rw [splitPath_getParentDir_slash hlast, hroot]
  rw [Ndfs.mkdirs, hparent, clearedTree_eq, Ndfs.delete, hroot]
  rfl

/-- A call of `StartFile` that tries and fails leaves the tree as it was exactly under one of these conditions. -/
theorem refused_tree_iff (ht : TreeOk s.tree) (hs : s.inSafeMode = false)
    (hf : overwrite = true ∨ entryAt s.tree (splitPath path) = none) (h : ¬ s.Accepts path overwrite) :
    (Ndfs.mkdirs (s.clearedTree path) (getParentDir path)).1 = s.tree ↔ s.LeavesNoTrace path overwrite := by
  by_cases hp : ProperPath path
  · exact ⟨fun _ => .proper hp, fun _ => refused_proper_tree ht hp fun hno => h ⟨hs, hf, hp, hno⟩⟩
  · by_cases hroot : splitPath path = []
    · exact ⟨fun _ => .root hroot, fun _ => refused_root_tree hroot⟩
    · rw [refused_improper_tree_iff ht hp hroot]
      constructor
      · rintro (⟨d, hd, hne, hfile⟩ | hlast)
        · exact .blocked hd hne hfile
        · exact .remade hlast
      · intro htrace
        cases htrace with
        | safeMode hsafe => rw [hs] at hsafe; cases hsafe
        | present how hent =>
          rcases hf with hover | hnone
          · rw [how] at hover; cases hover
          · exact absurd hnone hent
        | proper hproper => exact absurd hproper hp
        | root hnil => exact absurd hnil hroot
        | blocked hd hne hfile => exact .inl ⟨_, hd, hne, hfile⟩
        | remade hlast => exact .inr hlast

/-- `StartFile` is all or nothing exactly when it is refused before its first change, when it accepts, or when what
it changes before it fails is nothing or made again. -/
theorem startFile_allOrNothing_iff (h : Reachable s) (id : Int64) (order : DataNodeOrder) (path : Bytes)
    (overwrite : Bool) :
    s.AllOrNothing (s.startFile id order path overwrite) ↔ s.LeavesNoTrace path overwrite := by
  by_cases ha : s.Accepts path overwrite
  · exact ⟨fun _ => .proper ha.proper, fun _ hempty => absurd hempty (startFile_accepted_ne h.tree_ok ha id order)⟩
  · rcases s.locked_or_tries path overwrite with hl | ⟨hs, hf⟩
    · rw [startFile_locked hl]
      refine ⟨fun _ => ?_, fun _ _ => ⟨rfl, rfl⟩⟩
      rcases hl with hsafe | ⟨how, hent⟩
      · exact .safeMode hsafe
      · exact .present how hent
    · rw [(startFile_tried h.tree_ok hs hf ha id order).1, ← refused_tree_iff h.tree_ok hs hf ha]
      constructor
      · exact fun hall => (hall rfl).1
      · exact fun htree _ => ⟨htree, rfl⟩

/-- One DataNode and one file of one block. -/
def oneFile : FsNamesystem :=
  after perform {} [announce (bytes "a") 1, .startFile 7 .insertion (bytes "/f") false]

theorem oneFile_reachable : Reachable oneFile := Reachable.fresh.after _

theorem startFile_allOrNothing_oneFile :
    oneFile.AllOrNothing (oneFile.startFile 8 .insertion (bytes "/f/g/") true) ↔
      oneFile.LeavesNoTrace (bytes "/f/g/") true :=
  startFile_allOrNothing_iff oneFile_reachable 8 .insertion (bytes "/f/g/") true

/-- A slash at the end of the path: the file is gone, a directory has its name, and the call was refused. -/
theorem refused_removes_file : ¬ ∀ s, Reachable s → ∀ id order path overwrite,
    s.AllOrNothing (s.startFile id order path overwrite) := by
  intro h
  have hempty : (oneFile.startFile 8 .insertion (bytes "/f/") true).2 = {} := by decide +kernel
  obtain ⟨htree, -⟩ := h oneFile oneFile_reachable 8 .insertion (bytes "/f/") true hempty
  have hfile := congrArg (fun t => entryAt t [bytes "f"]) htree
  revert hfile
  decide +kernel

/-! ## The other files -/

/-- Every file at another path is still there, with its blocks and their locations. -/
def KeepsOthers (s s' : FsNamesystem) (path : Bytes) : Prop :=
  ∀ q, splitPath q ≠ splitPath path → IsFile s.tree (splitPath q) →
    IsFile s'.tree (splitPath q) ∧ s'.getBlocks q = s.getBlocks q

/-- When an overwriting call concerns its own path only: no file is below the path, and the id of the new block is
not that of a block of another file, unless that block is listed at the first three DataNodes of the walk. -/
structure TouchesOne (s : FsNamesystem) (id : Int64) (order : DataNodeOrder) (path : Bytes) : Prop where
  noneBelow : splitPath path ≠ [] → ∀ c, splitPath path <+: c → c ≠ splitPath path → ¬ IsFile s.tree c
  newBlock : s.Accepts path true → ∀ c bl, c ≠ splitPath path → entryAt s.tree c = some ⟨.kFile, bl⟩ → id ∈ bl →
    s.locations id = (order.values s.datanodes).take 3

/-- An overwriting call outside safe mode takes away the files below its path and leaves all others. -/
theorem startFile_other (ht : TreeOk s.tree) (hs : s.inSafeMode = false) (id : Int64) (order : DataNodeOrder)
    {c : List Bytes} (hc : c ≠ splitPath path) {bl : List Int64} :
    entryAt (s.startFile id order path true).1.tree c = some ⟨.kFile, bl⟩ ↔
      entryAt s.tree c = some ⟨.kFile, bl⟩ ∧ ¬ (splitPath path ≠ [] ∧ splitPath path <+: c) := by
  rw [file_startFile ht, or_iff_right fun h => hc h.2.1]
  refine and_congr_right fun _ => not_congr ?_
  exact ⟨fun h => h.2.2, fun h => ⟨hs, rfl, h⟩⟩

/-- The location lists after an overwriting call: those of the new block are the targets, if there is one. -/
theorem startFile_locations (ht : TreeOk s.tree) (hs : s.inSafeMode = false) (id : Int64) (order : DataNodeOrder)
    (path : Bytes) [Decidable (s.Accepts path true)] (id' : Int64) :
    (s.startFile id order path true).1.locations id' =
      if s.Accepts path true ∧ id' = id then s.chooseTargets order kDefaultReplication else s.locations id' := by
  by_cases ha : s.Accepts path true
  · obtain ⟨t, -, heq, -⟩ := startFile_accepted ht ha id order
    rw [heq]
    simp only [ha, true_and]
    exact locations_insert { s with tree := t } s.blockToDatanodes id _ id'
  · rw [(startFile_tried ht hs (.inl rfl) ha id order).1, if_neg fun h => ha h.1]
    rfl

/-- Two states return the same for a file exactly when it has the same blocks in them, at the same locations. -/
theorem getBlocks_eq_iff {s' : FsNamesystem} {q : Bytes} {bl bl' : List Int64}
    (h : entryAt s.tree (splitPath q) = some ⟨.kFile, bl⟩) (h' : entryAt s'.tree (splitPath q) = some ⟨.kFile, bl'⟩) :
    s'.getBlocks q = s.getBlocks q ↔ bl' = bl ∧ ∀ id ∈ bl, s'.locations id = s.locations id := by
  rw [getBlocks_file h, getBlocks_file h', GetBlocksResult.mk.injEq]
  constructor
  · rintro ⟨hblocks, hlocs⟩
    have hinj : Function.Injective fun bid : Int64 => ({ blockId := bid, numBytes := 0 } : Block) :=
      fun _ _ heq => congrArg Block.blockId heq
    obtain rfl := List.map_injective_iff.2 hinj hblocks
    exact ⟨rfl, List.map_inj_left.1 hlocs⟩
  · rintro ⟨rfl, hlocs⟩
    exact ⟨rfl, List.map_inj_left.2 hlocs⟩

/-- The other files, path by path. -/
theorem keepsOthers_iff (ht : TreeOk s.tree) {s' : FsNamesystem} :
    s.KeepsOthers s' path ↔ ∀ c bl, c ≠ splitPath path → entryAt s.tree c = some ⟨.kFile, bl⟩ →
      entryAt s'.tree c = some ⟨.kFile, bl⟩ ∧ ∀ id ∈ bl, s'.locations id = s.locations id := by
  constructor
  · intro hkeep c bl hc hb
    have hsplit := splitPath_joinPath_of_entryAt ht.nodes hb
    rw [← hsplit] at hc hb
    obtain ⟨⟨bl', hb'⟩, hblocks⟩ := hkeep (joinPath c) hc ⟨bl, hb⟩
    obtain ⟨rfl, hlocs⟩ := (getBlocks_eq_iff hb hb').1 hblocks
    exact ⟨hsplit ▸ hb', hlocs⟩
  · rintro hall q hq ⟨bl, hb⟩
    obtain ⟨hb', hlocs⟩ := hall _ bl hq hb
    exact ⟨⟨bl, hb'⟩, (getBlocks_eq_iff hb hb').2 ⟨rfl, hlocs⟩⟩

/-- An overwriting call keeps all other files exactly in safe mode or when it concerns its own path only. -/
theorem startFile_keepsOthers_iff (h : Reachable s) (id : Int64) (order : DataNodeOrder) (path : Bytes) :
    s.KeepsOthers (s.startFile id order path true).1 path ↔
      s.inSafeMode = true ∨ s.TouchesOne id order path := by
  classical
  have ht := h.tree_ok
  cases hs : s.inSafeMode with
  | true =>
    rw [startFile_locked (.inl hs)]
    exact ⟨fun _ => .inl rfl, fun _ q _ hf => ⟨hf, rfl⟩⟩
  | false =>
    simp only [Bool.false_eq_true, false_or]
    rw [keepsOthers_iff ht]
    constructor
    · intro hall
      refine ⟨fun hne c hpre hc => ?_, fun ha c bl hc hb hid => ?_⟩
      · rintro ⟨bl, hb⟩
        exact ((startFile_other ht hs id order hc).1 (hall c bl hc hb).1).2 ⟨hne, hpre⟩
      · have hloc := (hall c bl hc hb).2 id hid
        rw [startFile_locations ht hs, if_pos ⟨ha, rfl⟩, chooseTargets_eq] at hloc
        exact hloc.symm
    · rintro ⟨hbelow, hnew⟩ c bl hc hb
      refine ⟨?_, fun b hbl => ?_⟩
      · exact (startFile_other ht hs id order hc).2 ⟨hb, fun hpre => hbelow hpre.1 c hpre.2 hc ⟨bl, hb⟩⟩
      · rw [startFile_locations ht hs]
        split
        · rename_i hid
          obtain ⟨ha, rfl⟩ := hid
          rw [chooseTargets_eq]
          exact (hnew ha c bl hc hb hbl).symm
        · rfl

/-- A file in a directory, on one DataNode. -/
def oneFileInDirectory : FsNamesystem :=
  after perform {} [announce (bytes "a") 1, .startFile 7 .insertion (bytes "/d/f") false]

theorem oneFileInDirectory_reachable : Reachable oneFileInDirectory := Reachable.fresh.after _

theorem startFile_keepsOthers_besideFile :
    oneFileInDirectory.KeepsOthers (oneFileInDirectory.startFile 8 .insertion (bytes "/d/g") true).1 (bytes "/d/g") ↔
      oneFileInDirectory.inSafeMode = true ∨ oneFileInDirectory.TouchesOne 8 .insertion (bytes "/d/g") :=
  startFile_keepsOthers_iff oneFileInDirectory_reachable 8 .insertion (bytes "/d/g")

/-- Overwriting a directory by a file takes the files of the directory along. -/
theorem overwrite_removes_directory : ¬ ∀ s, Reachable s → ∀ id order path,
    s.KeepsOthers (s.startFile id order path true).1 path := by
  intro h
  have hfile : IsFile oneFileInDirectory.tree (splitPath (bytes "/d/f")) := ⟨[7], by decide +kernel⟩
  obtain ⟨⟨bl, hb⟩, -⟩ := h oneFileInDirectory oneFileInDirectory_reachable 8 .insertion (bytes "/d") (bytes "/d/f")
    (by decide +kernel) hfile
  have hgone : entryAt (oneFileInDirectory.startFile 8 .insertion (bytes "/d") true).1.tree
      (splitPath (bytes "/d/f")) = none := by decide +kernel
  rw [hgone] at hb
  cases hb

end FsNamesystem

end MiniHadoop.Ndfs

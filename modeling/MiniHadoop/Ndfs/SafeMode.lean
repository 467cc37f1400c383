/-
Safe mode: what it is for, that nothing is allocated while the DataNodes have not reported enough of the
namespace's blocks, and when the two allocating calls keep to it. `InSafeMode` looks at counters that
`UpdateSafeMode` takes from the block map, not from the tree, and `AddBlock` does not look at all. A message
of an unknown DataNode can get into these counters too.
-/
import MiniHadoop.Ndfs.BlockMap
import Mathlib.Algebra.Order.BigOperators.Group.List

namespace MiniHadoop.Ndfs

open Text Forest Runs

/-! ## The blocks of a tree -/

mutual

/-- The block ids of the files of a tree. -/
def fileBlocks : INode → List Int64
  | .mk type _ blocks children => (if type = .kFile then blocks else []) ++ childFileBlocks children

def childFileBlocks : List INode → List Int64
  | [] => []
  | child :: rest => fileBlocks child ++ childFileBlocks rest

end

/-- A block of a tree is one of its root or of a child. -/
theorem referenced_iff_child {t : INode} (ht : INode.shape.Every NodeOk t) {id : Int64} :
    Referenced t id ↔ (t.type = .kFile ∧ id ∈ t.blocks) ∨ ∃ child ∈ t.children, Referenced child id := by
  constructor
  · rintro ⟨c, bl, hbl, hid⟩
    cases c with
    | nil =>
      rw [entryAt_nil] at hbl
      injection hbl with hent
      have hty : t.type = .kFile := congrArg Entry.type hent
      have hblocks : t.blocks = bl := congrArg Entry.blocks hent
      exact .inl ⟨hty, hblocks ▸ hid⟩
    | cons k c =>
      rw [entryAt_cons] at hbl
      obtain ⟨child, hc, hbl⟩ := Option.bind_eq_some_iff.1 hbl
      exact .inr ⟨child, mem_of_find hc, c, bl, hbl, hid⟩
  · rintro (⟨hty, hid⟩ | ⟨child, hc, c, bl, hbl, hid⟩)
    · exact ⟨[], t.blocks, by rw [entryAt_nil, INode.entry, hty], hid⟩
    · refine ⟨child.name :: c, bl, ?_, hid⟩
      rw [entryAt_cons, show t.findChild child.name = some child from find_of_mem ht.self.nodup hc]
      exact hbl

mutual

theorem mem_fileBlocks {id : Int64} : ∀ t : INode, INode.shape.Every NodeOk t → (id ∈ fileBlocks t ↔ Referenced t id)
  | .mk type name blocks children, ht => by
    have hchildren : ∀ child ∈ children, INode.shape.Every NodeOk child := fun child hc =>
      ht.child (k := child.name) (find_of_mem ht.self.nodup hc)
    rw [referenced_iff_child ht, fileBlocks, List.mem_append, mem_childFileBlocks children hchildren]
    refine or_congr_left ?_
    split
    · rename_i hty; exact ⟨fun hid => ⟨hty, hid⟩, fun h => h.2⟩
    · rename_i hty; exact ⟨fun hid => (by cases hid), fun h => absurd h.1 hty⟩

theorem mem_childFileBlocks {id : Int64} : ∀ cs : List INode, (∀ c ∈ cs, INode.shape.Every NodeOk c) →
    (id ∈ childFileBlocks cs ↔ ∃ c ∈ cs, Referenced c id)
  | [], _ => by simp [childFileBlocks]
  | c :: cs, h => by
    rw [childFileBlocks, List.mem_append, mem_fileBlocks c (h c (List.mem_cons_self ..)),
      mem_childFileBlocks cs fun x hx => h x (List.mem_cons_of_mem _ hx), List.exists_mem_cons_iff]

end

namespace FsNamesystem

variable {s : FsNamesystem}

/-! ## What safe mode is for -/

/-- The block ids the namespace refers to. -/
def neededBlocks (s : FsNamesystem) : Finset Int64 := (fileBlocks s.tree).toFinset

/-- Those of them for which a DataNode is known. -/
def locatedBlocks (s : FsNamesystem) : Finset Int64 := s.neededBlocks.filter fun id => s.locations id ≠ []

/-- Nothing may be allocated: no DataNode is registered, or there are blocks and fewer than 99.9% of them are
located. -/
def Unsafe (s : FsNamesystem) : Prop :=
  s.datanodes.entries = [] ∨
    (s.neededBlocks.Nonempty ∧ 1000 * s.locatedBlocks.card < 999 * s.neededBlocks.card)

/-- The call returned the empty result and left the tree and the block map as they were. -/
def Refused (s : FsNamesystem) (r : FsNamesystem × Allocation) : Prop :=
  r.2 = {} ∧ r.1.tree = s.tree ∧ r.1.blockToDatanodes = s.blockToDatanodes

/-- Neither allocating call allocates, whatever it is called with. -/
structure RefusesAll (s : FsNamesystem) : Prop where
  startFile : ∀ id order path overwrite, s.Refused (s.startFile id order path overwrite)
  addBlock : ∀ id order path, s.Refused (s.addBlock id order path)

/-! ## What the calls do -/

/-- There is a name that no child of a directory has. -/
theorem exists_free_name (n : INode) : ∃ name, Component name ∧ n.findChild name = none := by
  refine ⟨List.replicate ((n.children.map fun c => c.name.length).sum + 1) 97, ⟨by simp, ?_⟩, ?_⟩
  · rw [List.mem_replicate]
    exact fun h => absurd h.2 (by decide)
  · refine find_eq_none.2 fun hmem => ?_
    obtain ⟨c, hc, hname⟩ := List.mem_map.1 (show _ ∈ n.children.map INode.name from hmem)
    have hle := List.le_sum_of_mem (List.mem_map_of_mem (f := fun c => c.name.length) hc)
    rw [show c.name = _ from hname, List.length_replicate] at hle
    omega

/-- Outside safe mode `StartFile` accepts a new name in the root directory. -/
theorem exists_accepted (ht : TreeOk s.tree) (hs : s.inSafeMode = false) :
    ∃ path, s.Accepts path false ∧ entryAt s.tree (splitPath path) = none := by
  obtain ⟨name, hcomp, hfree⟩ := exists_free_name s.tree
  have hone : ∀ p ∈ [name], Component p := fun p hp => List.mem_singleton.1 hp ▸ hcomp
  have hsplit : splitPath (joinPath [name]) = [name] := splitPath_joinPath hone
  have hnone : entryAt s.tree (splitPath (joinPath [name])) = none := by
    rw [hsplit, entryAt_cons, hfree]; rfl
  have hparent : splitPath (getParentDir (joinPath [name])) = [] := by
    rw [joinPath, joinPath, List.append_nil, getParentDir_top hcomp.2, splitPath_slash]
  refine ⟨joinPath [name], ⟨hs, .inr hnone, properPath_joinPath (by simp) hone, ?_⟩, hnone⟩
  rw [hparent]
  exact noFileOn_nil ht

theorem startFile_refusesAll_iff (ht : TreeOk s.tree) :
    (∀ id order path overwrite, s.Refused (s.startFile id order path overwrite)) ↔ s.inSafeMode = true := by
  constructor
  · intro h
    by_contra hs
    obtain ⟨path, ha, hnone⟩ := exists_accepted ht (Bool.eq_false_iff.2 hs)
    obtain ⟨t, -, heq, hent⟩ := startFile_accepted ht ha 0 .insertion
    have htree := (h 0 .insertion path false).2.1
    rw [heq] at htree
    have hfile := hent (splitPath path)
    rw [if_pos rfl, show t = s.tree from htree, hnone] at hfile
    cases hfile
  · intro hs id order path overwrite
    rw [startFile_locked (.inl hs)]
    exact ⟨rfl, rfl, rfl⟩

theorem addBlock_refusesAll_iff (ht : TreeOk s.tree) :
    (∀ id order path, s.Refused (s.addBlock id order path)) ↔ ∀ c, ¬ IsFile s.tree c := by
  constructor
  · rintro h c ⟨bl, hbl⟩
    have hsplit : splitPath (joinPath c) = c := splitPath_joinPath_of_entryAt ht.nodes hbl
    have htree := (h 0 .insertion (joinPath c)).2.1
    rw [addBlock_file (by rw [hsplit]; exact ⟨bl, hbl⟩), hsplit] at htree
    have hent := entryAt_pushBlockAt s.tree c 0 c
    rw [show pushBlockAt s.tree c 0 = s.tree from htree, if_pos rfl, hbl] at hent
    simp at hent
  · intro h id order path
    rw [addBlock_not_file (h _)]
    exact ⟨rfl, rfl, rfl⟩

theorem refusesAll_iff (ht : TreeOk s.tree) : s.RefusesAll ↔ s.inSafeMode = true ∧ ∀ c, ¬ IsFile s.tree c := by
  rw [← startFile_refusesAll_iff ht, ← addBlock_refusesAll_iff ht]
  exact ⟨fun h => ⟨h.startFile, h.addBlock⟩, fun h => ⟨h.1, h.2⟩⟩

theorem neededBlocks_eq_empty (ht : TreeOk s.tree) (h : ∀ c, ¬ IsFile s.tree c) : s.neededBlocks = ∅ := by
  refine Finset.eq_empty_of_forall_notMem fun id hid => ?_
  obtain ⟨c, bl, hbl, -⟩ := (mem_fileBlocks s.tree ht.nodes).1 (List.mem_toFinset.1 hid)
  exact h c ⟨bl, hbl⟩

theorem unsafe_refusesAll_iff (ht : TreeOk s.tree) :
    (s.Unsafe → s.RefusesAll) ↔ (s.Unsafe → s.datanodes.entries = [] ∧ ∀ c, ¬ IsFile s.tree c) := by
  refine imp_congr_right fun hlow => ?_
  rw [refusesAll_iff ht]
  constructor
  · rintro ⟨-, hno⟩
    refine ⟨hlow.resolve_right fun h => ?_, hno⟩
    rw [neededBlocks_eq_empty ht hno] at h
    exact absurd h.1 (by simp)
  · rintro ⟨hnone, hno⟩
    refine ⟨?_, hno⟩
    unfold inSafeMode
    rw [if_pos hnone]

/-- In every state after a start from an image, nothing is allocated while the state is unsafe exactly when, if
it is, no DataNode is registered and there is no file that `AddBlock` could extend. -/
theorem safeMode_blocks_iff {image : Bytes} (hload : (load emptyTree image).2 = none) (ops : List Operation) :
    ((after perform { tree := (load emptyTree image).1 } ops).Unsafe →
        (after perform { tree := (load emptyTree image).1 } ops).RefusesAll) ↔
      ((after perform { tree := (load emptyTree image).1 } ops).Unsafe →
        (after perform { tree := (load emptyTree image).1 } ops).datanodes.entries = [] ∧
          ∀ c, ¬ IsFile (after perform { tree := (load emptyTree image).1 } ops).tree c) :=
  unsafe_refusesAll_iff ((Reachable.start image hload).after ops).tree_ok

/-- An image with one file, of one block. -/
def oneFileImage : Bytes := bytes "# mini-hadoop FsImage v1\nFILE /f blocks=5\n"

theorem safeMode_blocks_oneFileImage :
    ((after perform { tree := (load emptyTree oneFileImage).1 } []).Unsafe →
        (after perform { tree := (load emptyTree oneFileImage).1 } []).RefusesAll) ↔
      ((after perform { tree := (load emptyTree oneFileImage).1 } []).Unsafe →
        (after perform { tree := (load emptyTree oneFileImage).1 } []).datanodes.entries = [] ∧
          ∀ c, ¬ IsFile (after perform { tree := (load emptyTree oneFileImage).1 } []).tree c) :=
  safeMode_blocks_iff (by decide +kernel) []

/-- A DataNode that has announced itself and not reported its block yet is enough for new files and new
blocks. -/
theorem allocates_before_reports : ¬ ∀ image, (load emptyTree image).2 = none → ∀ ops,
    (after perform { tree := (load emptyTree image).1 } ops).Unsafe →
      (after perform { tree := (load emptyTree image).1 } ops).RefusesAll := by
  intro h
  have hrefuses := h oneFileImage (by decide +kernel) [announce (bytes "a") 1] (.inr (by decide +kernel))
  have hnew := (hrefuses.startFile 9 .insertion (bytes "/g") false).1
  revert hnew
  decide +kernel

/-! ## Messages of unknown DataNodes -/

/-- Two states that differ at most in how their hash maps list the entries. -/
structure Same (s s' : FsNamesystem) : Prop where
  tree : s.tree = s'.tree
  datanodes : s.datanodes.Same s'.datanodes
  blockToDatanodes : s.blockToDatanodes.Same s'.blockToDatanodes
  dnToBlocks : s.dnToBlocks.Same s'.dnToBlocks
  totalBlocks : s.totalBlocks = s'.totalBlocks
  safeBlocks : s.safeBlocks = s'.safeBlocks
  safeModeCountdown : s.safeModeCountdown = s'.safeModeCountdown
  leases : s.leases.Same s'.leases

/-- The state is as before, and so are the counts that safe mode will be decided by. -/
structure Unchanged (s s' : FsNamesystem) : Prop where
  same : s.Same s'
  totalBlocks : s.updateSafeMode.totalBlocks = s'.updateSafeMode.totalBlocks
  safeBlocks : s.updateSafeMode.safeBlocks = s'.updateSafeMode.safeBlocks

theorem Same.refl (s : FsNamesystem) : s.Same s :=
  ⟨rfl, fun _ => rfl, fun _ => rfl, fun _ => rfl, rfl, rfl, rfl, fun _ => rfl⟩

/-- The counts depend on the block map only. -/
theorem Same.unchanged {s' : FsNamesystem} (h : s.Same s') : s.Unchanged s' := by
  have hperm := h.blockToDatanodes.perm
  exact ⟨h, hperm.length_eq, (hperm.filter _).length_eq⟩

theorem blockReceived_unregistered {dnName : Bytes} (hl : s.datanodes.lookup dnName = none) (b : Block) (hint : Bytes) :
    s.blockReceived dnName b hint =
      { s with blockToDatanodes := s.blockToDatanodes.insert b.blockId (s.blockToDatanodes.slot b.blockId []) } := by
  unfold blockReceived
  rw [hl]

theorem blockReceived_unregistered_same_iff {dnName : Bytes} (hl : s.datanodes.lookup dnName = none) (b : Block)
    (hint : Bytes) : s.Same (s.blockReceived dnName b hint) ↔ (s.blockToDatanodes.lookup b.blockId).isSome := by
  rw [blockReceived_unregistered hl, ← HashMap.same_insert_slot_iff]
  constructor
  · exact fun h => h.blockToDatanodes
  · exact fun h => ⟨rfl, fun _ => rfl, h, fun _ => rfl, rfl, rfl, rfl, fun _ => rfl⟩

/-- The messages of an unknown DataNode change nothing exactly when the confirmed block has an entry in the block
map: `BlockReceived` makes the entry before it looks for the DataNode. -/
theorem unknown_unchanged_iff {dnName : Bytes} (hl : s.datanodes.lookup dnName = none) (blocks : List Block) (b : Block)
    (hint : Bytes) :
    s.Unchanged (s.blockReport dnName blocks) ∧ s.Unchanged (s.blockReceived dnName b hint) ↔
      (s.blockToDatanodes.lookup b.blockId).isSome := by
  rw [blockReport_unregistered hl, ← blockReceived_unregistered_same_iff hl b hint]
  constructor
  · exact fun h => h.2.same
  · exact fun h => ⟨(Same.refl s).unchanged, h.unchanged⟩

/-- A NameNode that knows one DataNode, which holds nothing. -/
def oneDataNode : FsNamesystem := after perform {} [announce (bytes "a") 1]

theorem unknown_unchanged_oneDataNode :
    oneDataNode.Unchanged (oneDataNode.blockReport (bytes "x") [{ blockId := 5 }]) ∧
        oneDataNode.Unchanged (oneDataNode.blockReceived (bytes "x") { blockId := 5 } []) ↔
      (oneDataNode.blockToDatanodes.lookup 5).isSome :=
  unknown_unchanged_iff (by decide +kernel) [{ blockId := 5 }] { blockId := 5 } []

/-- A confirmation from nowhere counts as a block that no DataNode has. -/
theorem unknown_counts : ¬ ∀ s, Reachable s → ∀ dnName, s.datanodes.lookup dnName = none → ∀ blocks block hint,
    s.Unchanged (s.blockReport dnName blocks) ∧ s.Unchanged (s.blockReceived dnName block hint) := by
  intro h
  have hunchanged := h oneDataNode (Reachable.fresh.after _) (bytes "x") (by decide +kernel) [] { blockId := 5 } []
  have htotal := hunchanged.2.totalBlocks
  revert htotal
  decide +kernel

end FsNamesystem

end MiniHadoop.Ndfs

/-
What the client operations of the NameNode do to the namespace, path by path: when `StartFile` accepts
a path and what it leaves there, what `AddBlock` appends, what `Delete` removes, and which DataNodes a
block is sent to. The trees of all reachable states are well formed.
-/
import MiniHadoop.Ndfs.FsNamesystem

namespace MiniHadoop.Ndfs

open Text Forest

/-! ## Lookup by path -/

theorem entryAt_of_getNode {t n : INode} {path : Bytes} (h : getNode t path = some n) :
    entryAt t (splitPath path) = some n.entry := by
  unfold entryAt
  rw [show INode.shape.walk t (splitPath path) = some n from h]; rfl

theorem getNode_eq_none_iff {t : INode} {path : Bytes} :
    getNode t path = none ↔ entryAt t (splitPath path) = none := by
  unfold entryAt getNode
  rw [Option.map_eq_none_iff]

/-- The path names an entry that `CreateFile` can make: it is not empty and does not end in a slash. -/
def ProperPath (path : Bytes) : Prop := path ≠ [] ∧ path.getLast? ≠ some slash

instance (path : Bytes) : Decidable (ProperPath path) := inferInstanceAs (Decidable (_ ∧ _))

theorem ProperPath.splitPath {path : Bytes} (h : ProperPath path) :
    ∃ name, splitPath path = splitPath (getParentDir path) ++ [name] :=
  splitPath_getParentDir h.1 h.2

theorem ProperPath.parent_isPrefix {path : Bytes} (h : ProperPath path) :
    Ndfs.splitPath (getParentDir path) <+: Ndfs.splitPath path := by
  obtain ⟨name, hn⟩ := h.splitPath
  rw [hn]
  exact List.prefix_append _ _

theorem ProperPath.not_prefix_parent {path : Bytes} (h : ProperPath path) :
    ¬ Ndfs.splitPath path <+: Ndfs.splitPath (getParentDir path) := by
  obtain ⟨name, hn⟩ := h.splitPath
  rw [hn]
  exact not_concat_isPrefix _ name

theorem ProperPath.splitPath_ne_nil {path : Bytes} (h : ProperPath path) : Ndfs.splitPath path ≠ [] := by
  intro hnil
  exact h.not_prefix_parent (hnil ▸ List.nil_prefix)

theorem splitPath_of_not_proper {path : Bytes} (h : ¬ ProperPath path) :
    splitPath path = [] ∨ splitPath path = splitPath (getParentDir path) := by
  by_cases hne : path = []
  · exact .inl (by rw [hne, splitPath_nil])
  · refine .inr (splitPath_getParentDir_slash ?_).symm
    by_contra hl
    exact h ⟨hne, hl⟩

theorem properPath_joinPath {parts : List Bytes} (hne : parts ≠ []) (h : ∀ p ∈ parts, Component p) :
    ProperPath (joinPath parts) := by
  rcases List.eq_nil_or_concat parts with rfl | ⟨init, k, rfl⟩
  · exact absurd rfl hne
  · rw [List.concat_eq_append] at h ⊢
    have hk := h k (by simp)
    rw [ProperPath, joinPath_append]
    refine ⟨by simp [joinPath], ?_⟩
    rw [joinPath, joinPath, List.append_nil]
    rw [List.getLast?_append, List.getLast?_cons_of_ne_nil hk.1]
    obtain ⟨b, hb⟩ := List.getLast?_isSome.2 hk.1 |> Option.isSome_iff_exists.1
    rw [hb, Option.some_or]
    intro heq
    exact hk.2 (Option.some.inj heq ▸ List.mem_of_getLast? hb)

namespace FsNamesystem

/-! ## Targets -/

theorem chooseLoop_eq {r : Nat} : ∀ (infos acc : List DataNodeInfo), acc.length < r →
    chooseLoop r acc infos = acc ++ infos.take (r - acc.length)
  | [], acc, _ => by simp [chooseLoop]
  | info :: rest, acc, h => by
    have hlen : (acc ++ [info]).length = acc.length + 1 := by simp
    rw [chooseLoop]
    by_cases hr : r ≤ (acc ++ [info]).length
    · have : r - acc.length = 1 := by omega
      simp only [hr, if_true, this, List.take_succ_cons, List.take_zero]
    · have e : r - acc.length = (r - (acc ++ [info]).length) + 1 := by omega
      simp only [hr, if_false]
      rw [chooseLoop_eq rest _ (by omega), e, List.take_succ_cons, List.append_assoc]; rfl

/-- A block goes to the first three DataNodes of the walk. -/
theorem chooseTargets_eq (s : FsNamesystem) (order : DataNodeOrder) :
    s.chooseTargets order kDefaultReplication = (order.values s.datanodes).take 3 := by
  rw [chooseTargets, chooseLoop_eq _ _ (by decide)]; rfl

theorem chooseTargets_ne_nil {s : FsNamesystem} (h : s.datanodes.entries ≠ []) (order : DataNodeOrder) :
    s.chooseTargets order kDefaultReplication ≠ [] := by
  rw [chooseTargets_eq]
  intro hn
  rcases List.take_eq_nil_iff.1 hn with h3 | hv
  · cases h3
  · exact h (HashMap.Enumeration.values_eq_nil.1 hv)

theorem chooseTargets_of_empty {s : FsNamesystem} (h : s.datanodes.entries = []) (order : DataNodeOrder) :
    s.chooseTargets order kDefaultReplication = [] := by
  rw [chooseTargets_eq, HashMap.Enumeration.values_eq_nil.2 h]; rfl

theorem length_chooseTargets (s : FsNamesystem) (order : DataNodeOrder) :
    (s.chooseTargets order kDefaultReplication).length = min 3 s.datanodes.entries.length := by
  rw [chooseTargets_eq, List.length_take, order.length_values]

/-! ## StartFile -/

section StartFile

variable {s : FsNamesystem} {path : Bytes} {overwrite : Bool}

/-- `StartFile` accepts the path. -/
structure Accepts (s : FsNamesystem) (path : Bytes) (overwrite : Bool) : Prop where
  writable : s.inSafeMode = false
  free : overwrite = true ∨ entryAt s.tree (splitPath path) = none
  proper : ProperPath path
  parents : NoFileOn s.tree (splitPath (getParentDir path))

/-- The tree after the first step of `StartFile`: what was at the path is gone. -/
def clearedTree (s : FsNamesystem) (path : Bytes) : INode :=
  if (getNode s.tree path).isSome then (Ndfs.delete s.tree path).getD s.tree else s.tree

theorem clearedTree_eq (s : FsNamesystem) (path : Bytes) :
    s.clearedTree path = (Ndfs.delete s.tree path).getD s.tree := by
  unfold clearedTree
  cases hn : getNode s.tree path with
  | some n => rfl
  | none =>
    have hnone : Ndfs.delete s.tree path = none := by
      refine Option.not_isSome_iff_eq_none.1 fun hsome => ?_
      have := (deleteFrom_isSome.1 hsome).2
      rw [getNode_eq_none_iff.1 hn] at this; cases this
    rw [hnone]; rfl

theorem clearedTree_ok (ht : TreeOk s.tree) : TreeOk (s.clearedTree path) := by
  rw [clearedTree_eq]
  exact ht.delete_getD path

theorem entryAt_clearedTree (ht : TreeOk s.tree) (hne : splitPath path ≠ []) (c : List Bytes) :
    entryAt (s.clearedTree path) c = if splitPath path <+: c then none else entryAt s.tree c := by
  rw [clearedTree_eq, entryAt_delete_getD ht]
  simp only [hne, ne_eq, not_false_eq_true, true_and]

/-- What was on the way to the path is not touched by removing what is at it. -/
theorem noFileOn_clearedTree (ht : TreeOk s.tree) (hp : ProperPath path) :
    NoFileOn (s.clearedTree path) (splitPath (getParentDir path)) ↔
      NoFileOn s.tree (splitPath (getParentDir path)) := by
  have heq : ∀ d, d <+: splitPath (getParentDir path) →
      entryAt (s.clearedTree path) d = entryAt s.tree d := by
    intro d hd
    rw [entryAt_clearedTree ht hp.splitPath_ne_nil, if_neg]
    exact fun hpre => hp.not_prefix_parent (hpre.trans hd)
  unfold NoFileOn IsFile
  constructor
  · intro h d hd; rw [← heq d hd]; exact h d hd
  · intro h d hd; rw [heq d hd]; exact h d hd

theorem startFile_eq (id : Int64) (order : DataNodeOrder) (hs : s.inSafeMode = false)
    (hf : overwrite = true ∨ entryAt s.tree (splitPath path) = none) :
    s.startFile id order path overwrite =
      match createFile (Ndfs.mkdirs (s.clearedTree path) (getParentDir path)).1 path with
      | none => ({ s with tree := (Ndfs.mkdirs (s.clearedTree path) (getParentDir path)).1 }, {})
      | some t3 => s.allocate t3 id order path := by
  have hcond : ((getNode s.tree path).isSome && !overwrite) = false := by
    rcases hf with rfl | hn
    · simp
    · rw [getNode_eq_none_iff.2 hn]; rfl
  have hcl : (if ((getNode s.tree path).isSome && overwrite) = true then (Ndfs.delete s.tree path).getD s.tree
      else s.tree) = s.clearedTree path := by
    unfold clearedTree
    cases overwrite with
    | true => simp only [Bool.and_true]
    | false =>
      have : (getNode s.tree path).isSome = false := by simpa using hcond
      simp [this]
  cases hc : createFile (Ndfs.mkdirs (s.clearedTree path) (getParentDir path)).1 path with
  | none => simp only [startFile, hs, Bool.false_eq_true, if_false, hcond, hcl, hc]
  | some t3 => simp only [startFile, hs, Bool.false_eq_true, if_false, hcond, hcl, hc]

/-- The tree an accepted `StartFile` leaves: the path is a file with one block, nothing else is at or below
it, and its missing parents are directories. -/
theorem startFile_accepted (ht : TreeOk s.tree) (h : s.Accepts path overwrite) (id : Int64) (order : DataNodeOrder) :
    ∃ t, TreeOk t ∧
      s.startFile id order path overwrite =
        ({ s with
            tree := t
            blockToDatanodes := s.blockToDatanodes.insert id (s.chooseTargets order kDefaultReplication) },
          { block := Block.generate id 0, targets := s.chooseTargets order kDefaultReplication }) ∧
      ∀ c, entryAt t c =
        if c = splitPath path then some ⟨.kFile, [id]⟩
        else if splitPath path <+: c then none
        else if c <+: splitPath (getParentDir path) ∧ entryAt s.tree c = none then some dirEntry
        else entryAt s.tree c := by
  obtain ⟨name, hn⟩ := h.proper.splitPath
  have hne : splitPath path ≠ [] := h.proper.splitPath_ne_nil
  have hcl : TreeOk (s.clearedTree path) := clearedTree_ok ht
  have hno := (noFileOn_clearedTree ht h.proper).2 h.parents
  have hcomp : ∀ p ∈ splitPath (getParentDir path), Component p := fun _ hp => component_of_mem_splitPath hp
  have hgone : entryAt (s.clearedTree path) (splitPath (getParentDir path) ++ [name]) = none := by
    rw [entryAt_clearedTree ht hne, ← hn, if_pos (List.prefix_refl _)]
  obtain ⟨t3, h3⟩ := Option.isSome_iff_exists.1 ((createFrom_mkdirsFrom_isSome hcl hcomp name).2 ⟨hno, hgone⟩)
  rw [← hn] at h3
  have hok3 : TreeOk t3 := (hcl.mkdirs _).createFile h3
  have hfile3 : entryAt t3 (splitPath path) = some ⟨.kFile, []⟩ := by
    rw [entryAt_createFrom h3, if_pos rfl]
  refine ⟨pushBlockAt t3 (splitPath path) id, hok3.pushBlockAt ⟨[], hfile3⟩ id, ?_, fun c => ?_⟩
  · rw [startFile_eq id order h.writable h.free,
      show createFile (Ndfs.mkdirs (s.clearedTree path) (getParentDir path)).1 path = some t3 from h3]
    rfl
  · rw [entryAt_pushBlockAt]
    by_cases hc : c = splitPath path
    · rw [if_pos hc, if_pos hc, hfile3]; rfl
    · rw [if_neg hc, if_neg hc, entryAt_createFrom h3, if_neg hc, entryAt_mkdirsFrom hno hcl.rootType,
        entryAt_clearedTree ht hne]
      by_cases hp : splitPath path <+: c
      · -- the path itself is no prefix of its parent
        have hlong : ¬ c <+: splitPath (getParentDir path) := fun hpre => h.proper.not_prefix_parent (hp.trans hpre)
        rw [if_pos hp, if_pos hp, if_neg fun h => hlong h.1]
      · rw [if_neg hp, if_neg hp]

/-- A file above the path keeps `StartFile` from creating it, and then nothing is at the path. -/
theorem refused_blocked (ht : TreeOk s.tree) (hp : ProperPath path)
    (hno : ¬ NoFileOn s.tree (splitPath (getParentDir path))) :
    createFile (Ndfs.mkdirs (s.clearedTree path) (getParentDir path)).1 path = none ∧
      ¬ IsFile (Ndfs.mkdirs (s.clearedTree path) (getParentDir path)).1 (splitPath path) := by
  obtain ⟨name, hn⟩ := hp.splitPath
  have hne : splitPath path ≠ [] := hp.splitPath_ne_nil
  have hcl : TreeOk (s.clearedTree path) := clearedTree_ok ht
  have hlong := hp.not_prefix_parent
  constructor
  · by_contra hsome
    have hsome' := Option.isSome_iff_ne_none.2 hsome
    rw [createFile, hn, Ndfs.mkdirs, createFrom_mkdirsFrom_isSome hcl fun _ h => component_of_mem_splitPath h,
      noFileOn_clearedTree ht hp] at hsome'
    exact hno hsome'.1
  · rintro ⟨bl, hb⟩
    rw [Ndfs.mkdirs, entryAt_mkdirsFrom_other hcl hlong, entryAt_clearedTree ht hne, if_pos (List.prefix_refl _)] at hb
    cases hb

/-- A path that ends in a slash, or is empty, is never created; `Mkdirs` of its parent makes it a
directory. -/
theorem refused_improper (ht : TreeOk s.tree) (hp : ¬ ProperPath path) :
    createFile (Ndfs.mkdirs (s.clearedTree path) (getParentDir path)).1 path = none ∧
      ¬ IsFile (Ndfs.mkdirs (s.clearedTree path) (getParentDir path)).1 (splitPath path) := by
  have hcl : TreeOk (s.clearedTree path) := clearedTree_ok ht
  have hpre : splitPath path <+: splitPath (getParentDir path) := by
    rcases splitPath_of_not_proper hp with h | h
    · rw [h]; exact List.nil_prefix
    · exact ⟨[], by rw [List.append_nil, h]⟩
  refine ⟨createFrom_mkdirsFrom_above hcl (fun _ h => component_of_mem_splitPath h) hpre, ?_⟩
  by_cases hne : splitPath path = []
  · rw [hne]; exact not_isFile_root (hcl.mkdirs _)
  · have heq := (splitPath_of_not_proper hp).resolve_left hne
    by_cases hno : NoFileOn (s.clearedTree path) (splitPath (getParentDir path))
    · rw [heq]; exact not_isFile_of_isDir ((isDir_mkdirsFrom hcl).2 hno)
    · rintro ⟨bl, hb⟩
      rw [Ndfs.mkdirs, mkdirsFrom_false (Bool.eq_false_iff.2 fun hm => hno ((mkdirsFrom_true hcl.rootType).1 hm)),
        entryAt_clearedTree ht hne, if_pos (List.prefix_refl _)] at hb
      cases hb

/-- In safe mode, or when the path exists and may not be overwritten, `StartFile` changes nothing. -/
theorem startFile_locked (h : s.inSafeMode = true ∨ (overwrite = false ∧ entryAt s.tree (splitPath path) ≠ none))
    (id : Int64) (order : DataNodeOrder) : s.startFile id order path overwrite = (s, {}) := by
  unfold startFile
  by_cases hs : s.inSafeMode = true
  · rw [if_pos hs]
  · obtain ⟨how, hent⟩ := h.resolve_left hs
    have hex : (getNode s.tree path).isSome = true :=
      Option.isSome_iff_ne_none.2 fun hn => hent (getNode_eq_none_iff.1 hn)
    rw [if_neg hs]
    simp only [hex, how, Bool.not_false, Bool.and_true, if_true]

/-- A `StartFile` that tries and fails has cleared the path and made its parents. -/
theorem startFile_tried (ht : TreeOk s.tree) (hs : s.inSafeMode = false)
    (hf : overwrite = true ∨ entryAt s.tree (splitPath path) = none) (h : ¬ s.Accepts path overwrite) (id : Int64)
    (order : DataNodeOrder) :
    s.startFile id order path overwrite =
        ({ s with tree := (Ndfs.mkdirs (s.clearedTree path) (getParentDir path)).1 }, {}) ∧
      ¬ IsFile (Ndfs.mkdirs (s.clearedTree path) (getParentDir path)).1 (splitPath path) := by
  obtain ⟨hnone, hnot⟩ :
      createFile (Ndfs.mkdirs (s.clearedTree path) (getParentDir path)).1 path = none ∧
        ¬ IsFile (Ndfs.mkdirs (s.clearedTree path) (getParentDir path)).1 (splitPath path) := by
    by_cases hp : ProperPath path
    · exact refused_blocked ht hp fun hno => h ⟨hs, hf, hp, hno⟩
    · exact refused_improper ht hp
  exact ⟨by rw [startFile_eq id order hs hf, hnone], hnot⟩

/-- When `StartFile` tries and fails, the path is not a file afterwards. -/
theorem startFile_refused (ht : TreeOk s.tree) (hs : s.inSafeMode = false)
    (hf : overwrite = true ∨ entryAt s.tree (splitPath path) = none) (h : ¬ s.Accepts path overwrite) (id : Int64)
    (order : DataNodeOrder) :
    ∃ t, TreeOk t ∧ s.startFile id order path overwrite = ({ s with tree := t }, {}) ∧
      ¬ IsFile t (splitPath path) := by
  have hcl : TreeOk (s.clearedTree path) := clearedTree_ok ht
  obtain ⟨heq, hnot⟩ := startFile_tried ht hs hf h id order
  exact ⟨_, hcl.mkdirs _, heq, hnot⟩

/-- A call is locked out, or it tries to create the file. -/
theorem locked_or_tries (s : FsNamesystem) (path : Bytes) (overwrite : Bool) :
    (s.inSafeMode = true ∨ (overwrite = false ∧ entryAt s.tree (splitPath path) ≠ none)) ∨
      (s.inSafeMode = false ∧ (overwrite = true ∨ entryAt s.tree (splitPath path) = none)) := by
  cases hs : s.inSafeMode with
  | true => exact .inl (.inl rfl)
  | false =>
    by_cases hf : overwrite = true ∨ entryAt s.tree (splitPath path) = none
    · exact .inr ⟨rfl, hf⟩
    · rw [not_or] at hf
      exact .inl (.inr ⟨by simpa using hf.1, hf.2⟩)

/-- A call that tries to create a file at an existing path is not locked out. -/
theorem not_locked {e : Entry} (hs : s.inSafeMode = false)
    (hfree : overwrite = true ∨ entryAt s.tree (splitPath path) = none) (he : entryAt s.tree (splitPath path) = some e) :
    ¬ (s.inSafeMode = true ∨ overwrite = false) := by
  rintro (h | how)
  · rw [hs] at h; cases h
  · rcases hfree with hover | hnone
    · rw [how] at hover; cases hover
    · rw [he] at hnone; cases hnone

/-- The only file that `StartFile` can make is the one it is called for, with the new block. -/
theorem startFile_files (ht : TreeOk s.tree) {id : Int64} {order : DataNodeOrder} {q : List Bytes} {bl : List Int64}
    (h : entryAt (s.startFile id order path overwrite).1.tree q = some ⟨.kFile, bl⟩) :
    (q = splitPath path ∧ bl = [id]) ∨ entryAt s.tree q = some ⟨.kFile, bl⟩ := by
  rcases s.locked_or_tries path overwrite with hl | ⟨hs, htry⟩
  · rw [startFile_locked hl] at h
    exact .inr h
  have hcleared : ∀ {bl : List Int64}, entryAt (s.clearedTree path) q = some ⟨.kFile, bl⟩ →
      entryAt s.tree q = some ⟨.kFile, bl⟩ := by
    intro bl hbl
    by_cases hne : splitPath path = []
    · rw [clearedTree, Ndfs.delete, hne, show deleteFrom s.tree [] = none from rfl] at hbl
      simpa using hbl
    · rw [entryAt_clearedTree ht hne] at hbl
      split at hbl
      · cases hbl
      · exact hbl
  have hmade : ∀ {bl : List Int64}, entryAt (Ndfs.mkdirs (s.clearedTree path) (getParentDir path)).1 q =
      some ⟨.kFile, bl⟩ → entryAt s.tree q = some ⟨.kFile, bl⟩ :=
    fun hbl => hcleared ((file_mkdirsFrom (clearedTree_ok ht)).1 hbl)
  rw [startFile_eq id order hs htry] at h
  cases hc : createFile (Ndfs.mkdirs (s.clearedTree path) (getParentDir path)).1 path with
  | none => rw [hc] at h; exact .inr (hmade h)
  | some t3 =>
    rw [hc] at h
    change entryAt (pushBlockAt t3 (splitPath path) id) q = _ at h
    have hent := entryAt_createFrom hc
    rw [entryAt_pushBlockAt] at h
    by_cases hq : q = splitPath path
    · left
      rw [if_pos hq, hent, if_pos rfl, Option.map_some] at h
      cases h
      exact ⟨hq, rfl⟩
    · rw [if_neg hq, hent, if_neg hq] at h
      exact .inr (hmade h)

end StartFile

/-! ## AddBlock, GetBlocks, Delete -/

section Blocks

variable {s : FsNamesystem} {path : Bytes}

/-- The locations the NameNode lists for a block id. -/
def locations (s : FsNamesystem) (id : Int64) : List DataNodeInfo := s.blockToDatanodes.slot id []

theorem getNode_file {bl : List Int64} (h : entryAt s.tree (splitPath path) = some ⟨.kFile, bl⟩) :
    ∃ n, getNode s.tree path = some n ∧ n.type = .kFile ∧ n.blocks = bl := by
  obtain ⟨n, hn, he⟩ := Option.map_eq_some_iff.1 h
  exact ⟨n, hn, congrArg Entry.type he, congrArg Entry.blocks he⟩

theorem getNode_not_file (h : ¬ IsFile s.tree (splitPath path)) {n : INode} (hn : getNode s.tree path = some n) :
    n.type ≠ .kFile := by
  intro hf
  exact h ⟨n.blocks, by rw [entryAt_of_getNode hn, INode.entry, hf]⟩

/-- `AddBlock` on a file appends the new block to it and changes no other path. -/
theorem addBlock_file (h : IsFile s.tree (splitPath path)) (id : Int64) (order : DataNodeOrder) :
    s.addBlock id order path =
      ({ s with
          tree := pushBlockAt s.tree (splitPath path) id
          blockToDatanodes := s.blockToDatanodes.insert id (s.chooseTargets order kDefaultReplication) },
        { block := Block.generate id 0, targets := s.chooseTargets order kDefaultReplication }) := by
  obtain ⟨bl, hb⟩ := h
  obtain ⟨n, hn, hty, -⟩ := getNode_file hb
  rw [addBlock, hn]
  simp only [hty, ne_eq, not_true_eq_false, if_false]
  rfl

theorem addBlock_not_file (h : ¬ IsFile s.tree (splitPath path)) (id : Int64) (order : DataNodeOrder) :
    s.addBlock id order path = (s, {}) := by
  rw [addBlock]
  cases hn : getNode s.tree path with
  | none => rfl
  | some n => simp only [getNode_not_file h hn, ne_eq, not_false_eq_true, if_true]

theorem getBlocks_file {bl : List Int64} (h : entryAt s.tree (splitPath path) = some ⟨.kFile, bl⟩) :
    s.getBlocks path = { blocks := bl.map fun bid => { blockId := bid, numBytes := 0 },
                         locations := bl.map s.locations } := by
  obtain ⟨n, hn, hty, rfl⟩ := getNode_file h
  rw [getBlocks, hn]
  simp only [hty, ne_eq, not_true_eq_false, if_false]
  rfl

theorem getBlocks_not_file (h : ¬ IsFile s.tree (splitPath path)) : s.getBlocks path = {} := by
  rw [getBlocks]
  cases hn : getNode s.tree path with
  | none => rfl
  | some n => simp only [getNode_not_file h hn, ne_eq, not_false_eq_true, if_true]

theorem lookup_eraseAll (ids : List Int64) (m : HashMap Int64 (List DataNodeInfo)) (id : Int64) :
    (ids.foldl (fun m bid => m.erase bid) m).lookup id = if id ∈ ids then none else m.lookup id := by
  induction ids generalizing m with
  | nil => simp
  | cons a ids ih =>
    rw [List.foldl_cons, ih]
    by_cases h : id ∈ ids
    · rw [if_pos h, if_pos (List.mem_cons_of_mem _ h)]
    · rw [if_neg h]
      by_cases ha : id = a
      · subst ha; rw [AList.lookup_erase, if_pos (List.mem_cons_self ..)]
      · rw [AList.lookup_erase_ne ha, if_neg]
        rw [List.mem_cons, not_or]; exact ⟨ha, h⟩

/-- The blocks that `Delete` takes out of the map: those of a file at the path. -/
def blocksAt (s : FsNamesystem) (path : Bytes) : List Int64 :=
  match getNode s.tree path with
  | none => []
  | some node => if node.type = .kFile then node.blocks else []

/-- All that `Delete` changes. -/
theorem delete_eq (path : Bytes) : (s.delete path).1 =
    { s with
        tree := (Ndfs.delete s.tree path).getD s.tree
        blockToDatanodes := (s.blocksAt path).foldl (fun m bid => m.erase bid) s.blockToDatanodes } := by
  rw [delete, blocksAt]
  cases hn : getNode s.tree path with
  | none =>
    have hcl := clearedTree_eq s path
    rw [clearedTree, hn] at hcl
    rw [← hcl]; rfl
  | some node => cases Ndfs.delete s.tree path <;> by_cases hty : node.type = .kFile <;> simp only [hty] <;> rfl

theorem blocksAt_file {bl : List Int64} (h : entryAt s.tree (splitPath path) = some ⟨.kFile, bl⟩) :
    s.blocksAt path = bl := by
  obtain ⟨n, hn, hty, rfl⟩ := getNode_file h
  rw [blocksAt, hn]
  exact if_pos hty

theorem file_of_mem_blocksAt {id : Int64} (h : id ∈ s.blocksAt path) :
    ∃ bl, entryAt s.tree (splitPath path) = some ⟨.kFile, bl⟩ ∧ id ∈ bl := by
  unfold blocksAt at h
  cases hn : getNode s.tree path with
  | none => rw [hn] at h; cases h
  | some node =>
    rw [hn] at h
    by_cases hty : node.type = .kFile
    · exact ⟨node.blocks, by rw [entryAt_of_getNode hn, INode.entry, hty], by simpa [hty] using h⟩
    · simp [hty] at h

/-- `Delete` removes a present path with everything below it. -/
theorem delete_tree (ht : TreeOk s.tree) (path : Bytes) : TreeOk (s.delete path).1.tree ∧
    ∀ c, entryAt (s.delete path).1.tree c =
      if splitPath path ≠ [] ∧ splitPath path <+: c then none else entryAt s.tree c := by
  rw [delete_eq]
  exact ⟨ht.delete_getD path, entryAt_delete_getD ht path⟩

/-- `Delete` forgets the locations of no block but those of the file it removes. -/
theorem delete_blockToDatanodes (path : Bytes) {id : Int64}
    (h : ∀ bl, entryAt s.tree (splitPath path) = some ⟨.kFile, bl⟩ → id ∉ bl) :
    (s.delete path).1.blockToDatanodes.lookup id = s.blockToDatanodes.lookup id := by
  rw [delete_eq]
  refine (lookup_eraseAll (s.blocksAt path) s.blockToDatanodes id).trans (if_neg fun hid => ?_)
  obtain ⟨bl, hbl, hin⟩ := file_of_mem_blocksAt hid
  exact h bl hbl hin

@[simp] theorem delete_inSafeMode (path : Bytes) : (s.delete path).1.inSafeMode = s.inSafeMode := by
  rw [delete_eq]; rfl

end Blocks

/-! ## Messages from DataNodes -/

section Messages

variable (s : FsNamesystem)

theorem locations_insert (m : HashMap Int64 (List DataNodeInfo)) (id : Int64) (dns : List DataNodeInfo) (id' : Int64) :
    ({ s with blockToDatanodes := m.insert id dns } : FsNamesystem).locations id' =
      if id' = id then dns else ({ s with blockToDatanodes := m } : FsNamesystem).locations id' := by
  unfold locations HashMap.slot
  rw [HashMap.lookup_insert_eq]
  split <;> rfl

@[simp] theorem blockReceived_tree (dnName : Bytes) (b : Block) (hint : Bytes) :
    (s.blockReceived dnName b hint).tree = s.tree := by
  unfold blockReceived
  cases s.datanodes.lookup dnName <;> rfl

@[simp] theorem blockReceived_datanodes (dnName : Bytes) (b : Block) (hint : Bytes) :
    (s.blockReceived dnName b hint).datanodes = s.datanodes := by
  unfold blockReceived
  cases s.datanodes.lookup dnName <;> rfl

@[simp] theorem blockReceived_inSafeMode (dnName : Bytes) (b : Block) (hint : Bytes) :
    (s.blockReceived dnName b hint).inSafeMode = s.inSafeMode := by
  unfold blockReceived
  cases s.datanodes.lookup dnName <;> rfl

/-- A confirmation adds at most the DataNode it comes from to the locations of its block. -/
theorem blockReceived_locations (dnName : Bytes) (b : Block) (hint : Bytes) (id : Int64) :
    s.locations id <+: (s.blockReceived dnName b hint).locations id := by
  unfold blockReceived
  cases s.datanodes.lookup dnName with
  | none =>
    simp only
    rw [locations_insert]
    split
    · rename_i h; rw [h]; exact List.prefix_refl _
    · exact List.prefix_refl _
  | some dn =>
    simp only
    rw [locations_insert]
    split
    · rename_i h
      subst h
      split
      · exact List.prefix_append _ _
      · exact List.prefix_refl _
    · exact List.prefix_refl _

/-- A confirmation from a DataNode that is listed already changes no location. -/
theorem blockReceived_listed {dn : DataNodeInfo} {b : Block} (h : dn ∈ s.locations b.blockId) (hint : Bytes)
    (id : Int64) : (s.blockReceived dn.name b hint).locations id = s.locations id := by
  have hfound : (s.locations b.blockId).any (·.name = dn.name) = true := List.any_eq_true.2 ⟨dn, h, by simp⟩
  unfold blockReceived
  cases s.datanodes.lookup dn.name with
  | none =>
    simp only
    rw [locations_insert]
    split
    · rename_i h; rw [h]; rfl
    · rfl
  | some info =>
    simp only
    rw [locations_insert]
    split
    · rename_i hid
      subst hid
      rw [show (s.blockToDatanodes.slot b.blockId []).any (·.name = dn.name) = true from hfound]
      rfl
    · rfl

theorem reportBlock_locations (dnName : Bytes) (dn : DataNodeInfo) (b : Block) (id : Int64) :
    s.locations id <+: ({ s with blockToDatanodes := reportBlock dnName dn s.blockToDatanodes b } :
      FsNamesystem).locations id := by
  unfold reportBlock
  simp only
  rw [locations_insert]
  split
  · rename_i h
    subst h
    split
    · exact List.prefix_append _ _
    · exact List.prefix_refl _
  · exact List.prefix_refl _

theorem reportBlocks_locations (dnName : Bytes) (dn : DataNodeInfo) (id : Int64) : ∀ (blocks : List Block)
    (s : FsNamesystem), s.locations id <+:
      ({ s with blockToDatanodes := blocks.foldl (reportBlock dnName dn) s.blockToDatanodes } :
        FsNamesystem).locations id
  | [], _ => List.prefix_refl _
  | b :: blocks, s => (reportBlock_locations s dnName dn b id).trans
      (reportBlocks_locations dnName dn id blocks
        { s with blockToDatanodes := reportBlock dnName dn s.blockToDatanodes b })

@[simp] theorem blockReport_tree (dnName : Bytes) (blocks : List Block) :
    (s.blockReport dnName blocks).tree = s.tree := by
  unfold blockReport
  cases s.datanodes.lookup dnName <;> rfl

@[simp] theorem blockReport_inSafeMode (dnName : Bytes) (blocks : List Block) :
    (s.blockReport dnName blocks).inSafeMode = s.inSafeMode := by
  unfold blockReport
  cases s.datanodes.lookup dnName <;> rfl

/-- A block report adds locations and takes none away. -/
theorem blockReport_locations (dnName : Bytes) (blocks : List Block) (id : Int64) :
    s.locations id <+: (s.blockReport dnName blocks).locations id := by
  unfold blockReport
  cases s.datanodes.lookup dnName with
  | none => exact List.prefix_refl _
  | some dn => exact reportBlocks_locations dnName dn id blocks s

/-- A heartbeat never puts the NameNode into safe mode. -/
theorem heartbeat_inSafeMode (now : Int64) (dnName host : Bytes) (port : Int32) (capacity remaining : Int64)
    (h : s.inSafeMode = false) : (s.heartbeat now dnName host port capacity remaining).inSafeMode = false := by
  unfold inSafeMode at h ⊢
  rw [if_neg]
  · split at h
    · cases h
    · exact h
  · exact HashMap.entries_insert_ne_nil _ _ _

end Messages

/-! ## Reachable states -/

/-- The states the NameNode can get into: it starts from the image it finds, and runs its operations in any
order, with any arguments. -/
inductive Reachable : FsNamesystem → Prop
  | start (image : Bytes) : (load emptyTree image).2 = none → Reachable { tree := (load emptyTree image).1 }
  | fresh : Reachable {}
  | startFile {s : FsNamesystem} (id : Int64) (order : DataNodeOrder) (path : Bytes) (overwrite : Bool) :
      Reachable s → Reachable (s.startFile id order path overwrite).1
  | addBlock {s : FsNamesystem} (id : Int64) (order : DataNodeOrder) (path : Bytes) :
      Reachable s → Reachable (s.addBlock id order path).1
  | delete {s : FsNamesystem} (path : Bytes) : Reachable s → Reachable (s.delete path).1
  | mkdirs {s : FsNamesystem} (path : Bytes) : Reachable s → Reachable (s.mkdirs path).1
  | registerDataNode {s : FsNamesystem} (now : Int64) (info : DataNodeInfo) :
      Reachable s → Reachable (s.registerDataNode now info)
  | heartbeat {s : FsNamesystem} (now : Int64) (dnName host : Bytes) (port : Int32) (capacity remaining : Int64) :
      Reachable s → Reachable (s.heartbeat now dnName host port capacity remaining)
  | blockReport {s : FsNamesystem} (dnName : Bytes) (blocks : List Block) :
      Reachable s → Reachable (s.blockReport dnName blocks)
  | blockReceived {s : FsNamesystem} (dnName : Bytes) (block : Block) (hint : Bytes) :
      Reachable s → Reachable (s.blockReceived dnName block hint)
  | enterSafeMode {s : FsNamesystem} : Reachable s → Reachable s.enterSafeMode
  | updateSafeMode {s : FsNamesystem} : Reachable s → Reachable s.updateSafeMode
  | addLease {s : FsNamesystem} (now : Int64) (holder path : Bytes) : Reachable s → Reachable (s.addLease now holder path)
  | removeLease {s : FsNamesystem} (path : Bytes) : Reachable s → Reachable (s.removeLease path)
  | checkLeases {s : FsNamesystem} (now : Int64) (order : HashMap.Enumeration Bytes Lease) :
      Reachable s → Reachable (s.checkLeases now order)

theorem startFile_tree_ok {s : FsNamesystem} (h : TreeOk s.tree) (id : Int64) (order : DataNodeOrder) (path : Bytes)
    (overwrite : Bool) : TreeOk (s.startFile id order path overwrite).1.tree := by
  by_cases ha : s.Accepts path overwrite
  · obtain ⟨t, ht, heq, -⟩ := startFile_accepted h ha id order
    rw [heq]; exact ht
  · rcases s.locked_or_tries path overwrite with hl | ⟨hs, hf⟩
    · rw [startFile_locked hl]; exact h
    · obtain ⟨t, ht, heq, -⟩ := startFile_refused h hs hf ha id order
      rw [heq]; exact ht

theorem addBlock_tree_ok {s : FsNamesystem} (h : TreeOk s.tree) (id : Int64) (order : DataNodeOrder) (path : Bytes) :
    TreeOk (s.addBlock id order path).1.tree := by
  by_cases hf : IsFile s.tree (splitPath path)
  · rw [addBlock_file hf]; exact h.pushBlockAt hf id
  · rw [addBlock_not_file hf]; exact h

theorem checkLeasesFrom_tree_ok (now : Int64) : ∀ (es : List ((_ : Bytes) × Lease)) {s : FsNamesystem},
    TreeOk s.tree → TreeOk (checkLeasesFrom now s es).tree
  | [], _, h => h
  | e :: es, s, h => by
    rw [checkLeasesFrom]
    split
    · exact checkLeasesFrom_tree_ok now es (h.delete_getD e.2.path)
    · exact checkLeasesFrom_tree_ok now es h

/-- The tree of every reachable state is well formed. -/
theorem Reachable.tree_ok {s : FsNamesystem} (h : Reachable s) : TreeOk s.tree := by
  induction h with
  | start image _ => exact emptyTree_ok.load image
  | fresh => exact emptyTree_ok
  | startFile id order path overwrite _ ih => exact startFile_tree_ok ih id order path overwrite
  | addBlock id order path _ ih => exact addBlock_tree_ok ih id order path
  | delete path _ ih => exact (delete_tree ih path).1
  | mkdirs path _ ih => exact ih.mkdirs path
  | registerDataNode now info _ ih => exact ih
  | heartbeat now dnName host port capacity remaining _ ih => exact ih
  | blockReport dnName blocks _ ih => rw [blockReport_tree]; exact ih
  | blockReceived dnName block hint _ ih => rw [blockReceived_tree]; exact ih
  | enterSafeMode _ ih => exact ih
  | updateSafeMode _ ih => exact ih
  | addLease now holder path _ ih => exact ih
  | removeLease path _ ih => exact ih
  | checkLeases now order _ ih => exact checkLeasesFrom_tree_ok now _ ih

end FsNamesystem

end MiniHadoop.Ndfs

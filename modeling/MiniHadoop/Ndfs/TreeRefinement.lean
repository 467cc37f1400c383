/-
The inode tree against what it is for: a map from component lists to entries, closed under prefixes, that
remembers the order of insertion. Each operation on the tree does to it what the operation of the same name
on the map does, and answers as the map says. Every tree is well formed, whatever was called and whatever
image was loaded.
-/
import MiniHadoop.Base.PathMap
import MiniHadoop.Base.Runs
import MiniHadoop.Ndfs.ImageRoundTrip

namespace MiniHadoop.Ndfs

open Text Forest Runs

/-! ## The map -/

/-- The namespace as a map from component lists to entries. -/
abbrev NameMap := PathMap Bytes Entry

namespace NameMap

/-- The namespace of the empty tree: the root directory. -/
def root : NameMap := ⟨[([], dirEntry)]⟩

def isFile (m : NameMap) (c : List Bytes) : Bool := (m.find c).any (·.type = .kFile)

/-- The missing prefixes of a path as directories, shortest first. -/
def addDirs (m : NameMap) (c : List Bytes) : NameMap :=
  ⟨m.entries ++ (c.inits.filter fun d => (m.find d).isNone).map (·, dirEntry)⟩

/-- `Mkdirs`: fails on a path with a file on it, else adds the missing directories. -/
def mkdirs (m : NameMap) (c : List Bytes) : NameMap × Bool :=
  if c.inits.any m.isFile then (m, false) else (m.addDirs c, true)

/-- `CreateFile`: a new name in an existing directory. -/
def createFile (m : NameMap) (c : List Bytes) : Option NameMap :=
  if c ≠ [] ∧ m.find c = none ∧ m.find c.dropLast = some dirEntry then some (m.insert c ⟨.kFile, []⟩) else none

/-- `Delete`: a present path other than the root, with everything below it. -/
def delete (m : NameMap) (c : List Bytes) : Option NameMap :=
  if c ≠ [] ∧ (m.find c).isSome then some (m.prune c) else none

/-- A block id at the end of a file. -/
def append (m : NameMap) (c : List Bytes) (id : Int64) : NameMap :=
  if m.isFile c then m.modify c fun e => ⟨e.type, e.blocks ++ [id]⟩ else m

/-- `ListDir`: the names in a directory, oldest first. -/
def listDir (m : NameMap) (c : List Bytes) : List Bytes := if m.find c = some dirEntry then m.childKeys c else []

/-! The lines of an image on the map; they raise as they do on the tree. -/

def pushIds (c : List Bytes) : NameMap → List Bytes → NameMap × Option StollError
  | m, [] => (m, none)
  | m, bid :: rest =>
    if bid = [] then pushIds c m rest
    else match stoll bid with
      | .error e => (m, some e)
      | .ok id => pushIds c (m.append c id) rest

def applyLine (m : NameMap) : Line → NameMap × Option StollError
  | .skip => (m, none)
  | .dir path => ((m.mkdirs (splitPath path)).1, none)
  | .file path blocksToken =>
    match (m.mkdirs (splitPath (getParentDir path))).1.createFile (splitPath path) with
    | none => ((m.mkdirs (splitPath (getParentDir path))).1, none)
    | some m2 => m2.pushIds (splitPath path) (idTexts blocksToken)

def applyLines (m : NameMap) : List Line → NameMap × Option StollError
  | [] => (m, none)
  | line :: rest =>
    match m.applyLine line with
    | (m', none) => applyLines m' rest
    | (m', some e) => (m', some e)

end NameMap

/-! ## The view of a tree -/

/-- What the map says of a node: its entry and the names of its children. -/
def INode.view (n : INode) : Entry × List Bytes := (n.entry, n.children.map INode.name)

def viewAt (t : INode) (c : List Bytes) : Option (Entry × List Bytes) := (INode.shape.walk t c).map INode.view

theorem view_setChild (a : INode) (k : Bytes) (v : INode) (hv : INode.shape.key v = k) :
    (INode.shape.setChild a k v).view = a.view :=
  congrArg (Prod.mk a.entry) (map_key_set hv a.children)

theorem entryAt_eq_view (t : INode) (c : List Bytes) : entryAt t c = (viewAt t c).map Prod.fst := by
  unfold entryAt viewAt
  rw [Option.map_map]; rfl

/-- The tree shows at every path what the map has there. -/
def Refines (t : INode) (m : NameMap) : Prop := ∀ c, viewAt t c = (m.find c).map fun e => (e, m.childKeys c)

section Refines

variable {t t' n : INode} {m : NameMap} {p c : List Bytes} {k : Bytes}

theorem Refines.entryAt_eq (h : Refines t m) (c : List Bytes) : entryAt t c = m.find c := by
  rw [entryAt_eq_view, h c, Option.map_map]
  exact Option.map_id' ..

theorem Refines.walk (h : Refines t m) (hw : INode.shape.walk t p = some n) :
    m.find p = some n.entry ∧ m.childKeys p = n.children.map INode.name := by
  have hp := h p
  rw [viewAt, hw] at hp
  obtain ⟨e, he, hview⟩ := Option.map_eq_some_iff.1 hp.symm
  exact ⟨by rw [he]; exact congrArg some (congrArg Prod.fst hview), congrArg Prod.snd hview⟩

/-- Below an absent path the map has nothing. -/
theorem Refines.childKeys_absent (h : Refines t m) (hc : m.find c = none) : m.childKeys c = [] := by
  by_contra hne
  obtain ⟨k, hk⟩ := List.exists_mem_of_ne_nil _ hne
  have hsome := PathMap.mem_childKeys.1 hk
  rw [← h.entryAt_eq] at hsome
  have := entryAt_isSome_above (List.prefix_append c [k]) hsome
  rw [h.entryAt_eq, hc] at this; cases this

theorem Refines.push (h : Refines t m) (ty : INodeType) (hw : INode.shape.walk t p = some n)
    (hnew : n.findChild k = none)
    (ha : INode.shape.alter (fun n => some (n.pushChild (INode.new ty k))) t p = some t') :
    Refines t' (m.insert (p ++ [k]) ⟨ty, []⟩) := by
  intro c
  obtain ⟨hfind, hkeys⟩ := h.walk hw
  have hnone : m.find (p ++ [k]) = none := by
    rw [← h.entryAt_eq, entryAt, Shape.walk_append, hw, Option.bind_some, Shape.walk_cons,
      show INode.shape.findChild n k = none from hnew]
    rfl
  have hview := Shape.walk_alter_push (v := INode.new ty k) view_setChild hw hnew rfl ha c
  rw [viewAt, hview, PathMap.find_insert, PathMap.childKeys_insert]
  -- the directory lists one name more, the new path is a leaf, and nothing else changes
  by_cases hc : c = p
  · subst hc
    rw [if_pos rfl, if_pos rfl, hfind, hkeys]
    exact congrArg (fun names => some (n.entry, names)) (List.map_append ..)
  · rw [if_neg hc, if_neg hc, List.append_nil]
    by_cases hck : c = p ++ [k]
    · subst hck
      rw [if_pos (show p ++ [k] = p ++ [INode.shape.key (INode.new ty k)] from rfl), hnone, if_pos rfl,
        h.childKeys_absent hnone]
      rfl
    · rw [if_neg (show ¬ c = p ++ [INode.shape.key (INode.new ty k)] from hck), if_neg (Ne.symm hck), Option.or_none]
      exact h c

theorem Refines.remove (h : Refines t m) (ht : INode.shape.Every NodeOk t)
    (ha : INode.shape.alter (INode.removeChild k) t p = some t') : Refines t' (m.prune (p ++ [k])) := by
  intro c
  obtain ⟨n, n', hw, hr⟩ := Shape.walk_of_alter p ha
  obtain ⟨l, hl, rfl⟩ := Option.map_eq_some_iff.1 hr
  obtain ⟨hfind, hkeys⟩ := h.walk hw
  have hnodup : (n.children.map INode.name).Nodup := (ht p n hw).nodup
  rw [viewAt, Shape.walk_alter_remove view_setChild hw hnodup hl ha c, PathMap.find_prune]
  by_cases hc : c = p
  · subst hc
    have hself : ¬ c ++ [k] <+: c := not_concat_isPrefix c k
    rw [if_pos rfl, if_neg hself, hfind, PathMap.childKeys_prune m hself, if_pos rfl, hkeys]
    exact congrArg (fun names => some (n.entry, names)) (map_key_remove hnodup hl)
  · rw [if_neg hc]
    by_cases hck : p ++ [k] <+: c
    · rw [if_pos hck, if_pos hck]; rfl
    · rw [if_neg hck, if_neg hck, PathMap.childKeys_prune m hck, if_neg hc]
      exact h c

theorem Refines.update (h : Refines t m) (id : Int64) (hw : INode.shape.walk t p = some n)
    (ha : INode.shape.alter (fun n => some (n.pushBlock id)) t p = some t') :
    Refines t' (m.modify p fun e => ⟨e.type, e.blocks ++ [id]⟩) := by
  intro c
  obtain ⟨hfind, hkeys⟩ := h.walk hw
  have hview := Shape.walk_alter_update (g := INode.pushBlock id) view_setChild (fun _ => rfl) (fun _ => rfl) hw ha c
  rw [viewAt, hview, PathMap.find_modify, PathMap.childKeys_modify]
  by_cases hc : c = p
  · subst hc
    rw [if_pos rfl, if_pos rfl, hfind, hkeys]; rfl
  · rw [if_neg hc, if_neg hc]
    exact h c

end Refines

/-! ## Mkdirs, one directory at a time -/

section Twice

variable {t child : INode} {part : Bytes} {p : List Bytes}

theorem setChild_pushChild {v w : INode} (hv : v.name = part) (hnew : t.findChild part = none) :
    INode.shape.setChild (t.pushChild v) part w = t.pushChild w :=
  congrArg t.withChildren (set_append_one hv (find_eq_none.1 hnew))

theorem setChild_setChild {v w : INode} (hv : v.name = part) :
    INode.shape.setChild (INode.shape.setChild t part v) part w = INode.shape.setChild t part w :=
  congrArg t.withChildren (set_set hv t.children)

/-- The directories that are made put no file on their path. -/
theorem noFileOn_mkdirsFrom (hno : NoFileOn t p) (hd : t.type = .kDirectory) : NoFileOn (mkdirsFrom t p).1 p := by
  rintro d hpre ⟨bl, hf⟩
  rw [entryAt_mkdirsFrom hno hd] at hf
  split at hf
  · cases hf
  · exact hno d hpre ⟨bl, hf⟩

/-- Making a longer path after a shorter one makes what making the longer one alone makes. -/
theorem mkdirsFrom_twice (q : List Bytes) (hno : NoFileOn t p) (hd : t.type = .kDirectory) :
    (mkdirsFrom (mkdirsFrom t p).1 (p ++ q)).1 = (mkdirsFrom t (p ++ q)).1 := by
  induction p generalizing t with
  | nil => rfl
  | cons part p ih =>
    rw [List.cons_append]
    cases hc : t.findChild part with
    | none =>
      -- the first call has made the child that the second one goes into
      have hname : (mkdirsFrom (INode.new .kDirectory part) p).1.name = part := (mkdirsFrom_meta p _).1
      have htype : (mkdirsFrom (INode.new .kDirectory part) p).1.type = .kDirectory := (mkdirsFrom_meta p _).2.1
      have hfind : (mkdirsFrom t (part :: p)).1.findChild part = _ := findChild_mkdirsFrom_missing hc part
      rw [if_pos rfl] at hfind
      rw [mkdirsFrom_dir hfind htype, mkdirsFrom_missing hc, mkdirsFrom_missing hc, setChild_pushChild hname hc,
        ih (noFileOn_new part p) rfl]
    | some child =>
      have hcd : child.type = .kDirectory := child_isDir hno hc
      have hname : (mkdirsFrom child p).1.name = part := (mkdirsFrom_meta p child).1.trans (key_of_find hc)
      have htype : (mkdirsFrom child p).1.type = .kDirectory := (mkdirsFrom_meta p child).2.1.trans hcd
      have hfind : (mkdirsFrom t (part :: p)).1.findChild part = _ := findChild_mkdirsFrom_dir hc hcd part
      rw [if_pos rfl] at hfind
      rw [mkdirsFrom_dir hfind htype, mkdirsFrom_dir hc hcd, mkdirsFrom_dir hc hcd, setChild_setChild hname,
        ih (hno.tail hc) hcd]

end Twice

/-! ## The operations on both sides -/

section Operations

variable {t t' n : INode} {m : NameMap} {p : List Bytes}

theorem Refines.isFile_iff (h : Refines t m) (c : List Bytes) : m.isFile c = true ↔ IsFile t c := by
  unfold NameMap.isFile IsFile
  rw [h.entryAt_eq]
  cases m.find c with
  | none => simp
  | some e => obtain ⟨ty, bl⟩ := e; simp

theorem Refines.noFileOn_iff (h : Refines t m) (p : List Bytes) : p.inits.any m.isFile = false ↔ NoFileOn t p := by
  rw [List.any_eq_false]
  constructor
  · intro hno d hd hf
    exact hno d ((List.mem_inits _ _).2 hd) ((h.isFile_iff d).2 hf)
  · intro hno d hd hf
    exact hno d ((List.mem_inits _ _).1 hd) ((h.isFile_iff d).1 hf)

/-- Nothing is added when the path is present. -/
theorem Refines.addDirs_present (h : Refines t m) (hp : (m.find p).isSome) : m.addDirs p = m := by
  have hnone : (p.inits.filter fun d => (m.find d).isNone) = [] := by
    refine List.filter_eq_nil_iff.2 fun d hd => ?_
    rw [← h.entryAt_eq] at hp
    have habove := entryAt_isSome_above ((List.mem_inits _ _).1 hd) hp
    rw [h.entryAt_eq] at habove
    simpa [Option.isSome_iff_ne_none] using habove
  unfold NameMap.addDirs
  rw [hnone, List.map_nil, List.append_nil]

/-- A missing path is added behind the missing ones above it. -/
theorem addDirs_snoc {k : Bytes} (hnone : m.find (p ++ [k]) = none) :
    m.addDirs (p ++ [k]) = (m.addDirs p).insert (p ++ [k]) dirEntry := by
  have hinits : (p ++ [k]).inits = p.inits ++ [p ++ [k]] := by simp [List.inits_append]
  unfold NameMap.addDirs PathMap.insert
  rw [hinits, List.filter_append, List.filter_cons_of_pos (by rw [hnone]; rfl), List.filter_nil, List.map_append,
    ← List.append_assoc]
  rfl

/-- `Mkdirs` past every file adds the missing directories, shortest first. -/
theorem Refines.addDirs (h : Refines t m) (ht : TreeOk t) (hno : NoFileOn t p) :
    Refines (mkdirsFrom t p).1 (m.addDirs p) := by
  induction p using List.reverseRecOn with
  | nil =>
    rw [h.addDirs_present (by rw [← h.entryAt_eq, ht.entry_root]; rfl)]
    exact h
  | append_singleton p k ih =>
    have hno' : NoFileOn t p := fun d hd => hno d (hd.trans (List.prefix_append p [k]))
    have ih := ih hno'
    cases hpk : m.find (p ++ [k]) with
    | some e =>
      -- the whole path is there, so both sides stay as they are
      obtain ⟨n, hw, -⟩ := Option.map_eq_some_iff.1 ((h.entryAt_eq (p ++ [k])).trans hpk)
      rw [mkdirsFrom_same hno hw, h.addDirs_present (by rw [hpk]; rfl)]
      exact h
    | none =>
      -- after the shorter path its end is there, and its new child is not
      obtain ⟨bl, hend⟩ := (isDir_mkdirsFrom ht).2 hno'
      obtain ⟨n, hw, -⟩ := Option.map_eq_some_iff.1 hend
      have hnew : n.findChild k = none := by
        have hnone : entryAt (mkdirsFrom t p).1 (p ++ [k]) = none := by
          rw [entryAt_mkdirsFrom hno' ht.rootType, if_neg fun hc => not_concat_isPrefix p k hc.1, h.entryAt_eq, hpk]
        rw [entryAt, Shape.walk_append, hw, Option.bind_some, Shape.walk_cons, Option.map_eq_none_iff] at hnone
        cases hc : n.findChild k with
        | none => rfl
        | some c => rw [show INode.shape.findChild n k = some c from hc] at hnone; cases hnone
      have hno1 := noFileOn_mkdirsFrom hno' ht.rootType
      have hstep := mkdirsFrom_append hno1 hw [k]
      rw [mkdirsFrom_twice [k] hno' ht.rootType] at hstep
      rw [addDirs_snoc hpk]
      refine ih.push .kDirectory hw hnew (Eq.trans (Shape.alter_congr p hw ?_) hstep)
      rw [mkdirsFrom_missing hnew]; rfl

theorem Refines.mkdirs_step (h : Refines t m) (ht : TreeOk t) (p : List Bytes) :
    Refines (mkdirsFrom t p).1 (m.mkdirs p).1 ∧ (mkdirsFrom t p).2 = (m.mkdirs p).2 := by
  unfold NameMap.mkdirs
  cases hany : p.inits.any m.isFile with
  | false =>
    have hno := (h.noFileOn_iff p).1 hany
    exact ⟨h.addDirs ht hno, (mkdirsFrom_true ht.rootType).2 hno⟩
  | true =>
    -- a file on the path: the tree is given back as it was
    have hfalse : (mkdirsFrom t p).2 = false := by
      rw [Bool.eq_false_iff, Ne, mkdirsFrom_true ht.rootType, ← h.noFileOn_iff, hany]
      simp
    exact ⟨by rw [mkdirsFrom_false hfalse]; exact h, hfalse⟩

theorem Refines.isDir_iff (h : Refines t m) (ht : TreeOk t) (c : List Bytes) :
    IsDir t c ↔ m.find c = some dirEntry := by
  rw [Ndfs.isDir_iff ht.nodes, h.entryAt_eq]

/-- `CreateFile` succeeds on both sides or on none, and adds the file on both. -/
theorem Refines.createFile_step (h : Refines t m) (ht : TreeOk t) (p : List Bytes) :
    (createFrom t p).isSome = (m.createFile p).isSome ∧
      Refines ((createFrom t p).getD t) ((m.createFile p).getD m) := by
  have hsome : (createFrom t p).isSome ↔ _ := createFrom_isSome ht.nodes ht.rootType
  rw [h.entryAt_eq, h.isDir_iff ht] at hsome
  unfold NameMap.createFile
  cases hc : createFrom t p with
  | none =>
    rw [hc] at hsome
    rw [if_neg fun hcond => by cases hsome.2 hcond]
    exact ⟨rfl, h⟩
  | some t' =>
    have hcond := hsome.1 (by rw [hc]; rfl)
    rw [if_pos hcond]
    refine ⟨rfl, ?_⟩
    obtain ⟨hne, habsent, hparent⟩ := hcond
    obtain ⟨q, k, rfl⟩ := (List.eq_nil_or_concat p).resolve_left hne
    rw [List.concat_eq_append] at *
    rw [List.dropLast_concat] at hparent
    have hdir : IsDir t q := (h.isDir_iff ht q).2 hparent
    obtain ⟨n, hw, -⟩ := Option.map_eq_some_iff.1 ((h.entryAt_eq q).trans hparent)
    rw [createFrom_append (noFileOn_of_isDir ht.nodes hdir) hw] at hc
    -- `CreateFile` has gone past its own check for the name
    have hnew : n.findChild k = none := by
      obtain ⟨b, b', hb, hcreate⟩ := Shape.walk_of_alter q hc
      rw [hw] at hb; cases hb
      rw [createFrom] at hcreate
      split at hcreate
      · cases hcreate
      · assumption
    refine h.push .kFile hw hnew (Eq.trans (Shape.alter_congr q hw ?_) hc)
    rw [createFrom, hnew]

/-- `Delete` succeeds on both sides or on none, and removes the same paths. -/
theorem Refines.delete_step (h : Refines t m) (ht : TreeOk t) (p : List Bytes) :
    (deleteFrom t p).isSome = (m.delete p).isSome ∧
      Refines ((deleteFrom t p).getD t) ((m.delete p).getD m) := by
  have hsome : (deleteFrom t p).isSome ↔ _ := deleteFrom_isSome
  rw [h.entryAt_eq] at hsome
  unfold NameMap.delete
  cases hd : deleteFrom t p with
  | none =>
    rw [hd] at hsome
    rw [if_neg fun hcond => by cases hsome.2 hcond]
    exact ⟨rfl, h⟩
  | some t' =>
    have hcond := hsome.1 (by rw [hd]; rfl)
    rw [if_pos hcond]
    refine ⟨rfl, ?_⟩
    obtain ⟨q, k, rfl⟩ := (List.eq_nil_or_concat p).resolve_left hcond.1
    rw [List.concat_eq_append] at *
    rw [deleteFrom_concat] at hd
    exact h.remove ht.nodes hd

theorem Refines.append_step (h : Refines t m) (hf : IsFile t p) (id : Int64) :
    Refines (pushBlockAt t p id) (m.append p id) := by
  obtain ⟨bl, hb⟩ := hf
  obtain ⟨n, hw, -⟩ := Option.map_eq_some_iff.1 hb
  obtain ⟨t', ht'⟩ := Shape.alter_eq_some (f := fun n => some (n.pushBlock id)) p hw rfl
  unfold pushBlockAt NameMap.append
  rw [ht', Option.getD_some, if_pos ((h.isFile_iff p).2 ⟨bl, hb⟩)]
  exact h.update id hw ht'

end Operations

/-! ## Loading an image -/

section Load

variable {t : INode} {m : NameMap}

theorem Refines.pushIds (c : List Bytes) : ∀ (bids : List Bytes) {t : INode} {m : NameMap}, Refines t m → IsFile t c →
    Refines (pushIds c t bids).1 (m.pushIds c bids).1 ∧ (pushIds c t bids).2 = (m.pushIds c bids).2
  | [], _, _, h, _ => ⟨h, rfl⟩
  | bid :: bids, t, m, h, hf => by
    rw [Ndfs.pushIds, NameMap.pushIds]
    split
    · exact Refines.pushIds c bids h hf
    · cases hb : stoll bid with
      | error e => exact ⟨h, rfl⟩
      | ok id =>
        refine Refines.pushIds c bids (h.append_step hf id) ?_
        obtain ⟨bl, hbl⟩ := hf
        exact ⟨bl ++ [id], by rw [entryAt_pushBlockAt, if_pos rfl, hbl]; rfl⟩

/-- A line of an image does to the map what it does to the tree, and raises the same exception. -/
theorem Refines.applyLine (h : Refines t m) (ht : TreeOk t) (line : Line) :
    Refines (applyLine t line).1 (m.applyLine line).1 ∧ (applyLine t line).2 = (m.applyLine line).2 := by
  cases line with
  | skip => exact ⟨h, rfl⟩
  | dir path =>
    rw [applyLine_dir, NameMap.applyLine]
    exact ⟨(h.mkdirs_step ht (splitPath path)).1, rfl⟩
  | file path blocksToken =>
    rw [applyLine_file, NameMap.applyLine]
    have h1 : Refines (mkdirs t (getParentDir path)).1 _ := (h.mkdirs_step ht (splitPath (getParentDir path))).1
    have ht1 := ht.mkdirs (getParentDir path)
    obtain ⟨hsome, h2⟩ := h1.createFile_step ht1 (splitPath path)
    cases hc : createFile (mkdirs t (getParentDir path)).1 path with
    | none =>
      rw [show createFrom _ (splitPath path) = none from hc] at hsome
      have hnone := Option.not_isSome_iff_eq_none.1 (Bool.eq_false_iff.1 hsome.symm)
      rw [hnone]
      exact ⟨h1, rfl⟩
    | some t2 =>
      rw [show createFrom _ (splitPath path) = some t2 from hc] at hsome h2
      obtain ⟨m2, hm2⟩ := Option.isSome_iff_exists.1 hsome.symm
      rw [hm2] at h2 ⊢
      exact Refines.pushIds _ _ h2 ⟨[], by rw [entryAt_createFrom hc, if_pos rfl]⟩

theorem Refines.applyLines : ∀ (lines : List Line) {t : INode} {m : NameMap}, Refines t m → TreeOk t →
    Refines (applyLines t lines).1 (m.applyLines lines).1
  | [], _, _, h, _ => h
  | line :: lines, t, m, h, ht => by
    obtain ⟨h1, herr⟩ := h.applyLine ht line
    have ht1 := ht.applyLine line
    rw [Ndfs.applyLines, NameMap.applyLines]
    -- both sides go on or both stop, since they raise the same
    rcases hl : Ndfs.applyLine t line with ⟨t', e | e⟩
    · rcases hm : m.applyLine line with ⟨m', e' | e'⟩
      · rw [hl, hm] at h1; rw [hl] at ht1
        exact Refines.applyLines lines h1 ht1
      · rw [hl, hm] at herr; cases herr
    · rcases hm : m.applyLine line with ⟨m', e' | e'⟩
      · rw [hl, hm] at herr; cases herr
      · rw [hl, hm] at h1; exact h1

end Load

/-! ## Runs -/

/-- A call on the tree: the four operations, of which the NameNode uses the last on files it has found, and
`FsImage::Load`. -/
inductive TreeCall where
  | mkdirs (path : Bytes)
  | createFile (path : Bytes)
  | delete (path : Bytes)
  | append (path : Bytes) (id : Int64)
  | load (text : Bytes)
  deriving DecidableEq, Repr

namespace TreeCall

/-- What a call makes of the tree; a `Load` that raises leaves what it has reached. -/
def perform (t : INode) : TreeCall → INode
  | mkdirs path => (Ndfs.mkdirs t path).1
  | createFile path => (Ndfs.createFile t path).getD t
  | delete path => (Ndfs.delete t path).getD t
  | append path id =>
    match getNode t path with
    | some node => if node.type = .kFile then pushBlockAt t (splitPath path) id else t
    | none => t
  | load text => (Ndfs.load t text).1

/-- What it makes of the map. -/
def performMap (m : NameMap) : TreeCall → NameMap
  | mkdirs path => (m.mkdirs (splitPath path)).1
  | createFile path => (m.createFile (splitPath path)).getD m
  | delete path => (m.delete (splitPath path)).getD m
  | append path id => m.append (splitPath path) id
  | load text => (m.applyLines (imageLines text)).1

variable {t : INode} {m : NameMap}

theorem perform_append_file {path : Bytes} (id : Int64) (hf : IsFile t (splitPath path)) :
    perform t (append path id) = pushBlockAt t (splitPath path) id := by
  obtain ⟨bl, hb⟩ := hf
  obtain ⟨n, hw, hent⟩ := Option.map_eq_some_iff.1 hb
  have htype : n.type = .kFile := congrArg Entry.type hent
  simp only [perform, show getNode t path = some n from hw, htype, if_true]

theorem perform_append_other {path : Bytes} (id : Int64) (hf : ¬ IsFile t (splitPath path)) :
    perform t (append path id) = t := by
  rw [perform]
  split
  · rename_i n hn
    exact if_neg fun hty => hf (isFile_of_getNode hn hty)
  · rfl

theorem perform_ok (ht : TreeOk t) (call : TreeCall) : TreeOk (perform t call) := by
  cases call with
  | mkdirs path => exact ht.mkdirs path
  | createFile path =>
    rw [perform]
    cases hc : Ndfs.createFile t path with
    | none => exact ht
    | some t' => exact ht.createFile hc
  | delete path => exact ht.delete_getD path
  | append path id =>
    by_cases hf : IsFile t (splitPath path)
    · rw [perform_append_file id hf]; exact ht.pushBlockAt hf id
    · rw [perform_append_other id hf]; exact ht
  | load text => exact ht.load text

/-- A call keeps the tree and the map in step. -/
theorem perform_refines (h : Refines t m) (ht : TreeOk t) (call : TreeCall) :
    Refines (perform t call) (performMap m call) := by
  cases call with
  | mkdirs path => exact (h.mkdirs_step ht (splitPath path)).1
  | createFile path => exact (h.createFile_step ht (splitPath path)).2
  | delete path => exact (h.delete_step ht (splitPath path)).2
  | append path id =>
    by_cases hf : IsFile t (splitPath path)
    · rw [perform_append_file id hf]; exact h.append_step hf id
    · rw [perform_append_other id hf, performMap, NameMap.append,
        if_neg fun hm => hf ((h.isFile_iff _).1 hm)]
      exact h
  | load text => exact h.applyLines (imageLines text) ht

end TreeCall

theorem calls_ok (calls : List TreeCall) : TreeOk (after TreeCall.perform emptyTree calls) :=
  @after_keeps _ _ TreeCall.perform emptyTree TreeOk calls emptyTree_ok fun _ call _ ht => TreeCall.perform_ok ht call

theorem refines_root : Refines emptyTree NameMap.root := by
  intro c
  cases c with
  | nil => rfl
  | cons k c => rw [viewAt, Shape.walk_cons]; rfl

/-- The tree and the map stay in step along every run. -/
theorem calls_refine (calls : List TreeCall) :
    Refines (after TreeCall.perform emptyTree calls) (after TreeCall.performMap NameMap.root calls) := by
  induction calls using List.reverseRecOn with
  | nil => exact refines_root
  | append_singleton calls call ih =>
    rw [after_snoc, after_snoc]
    exact TreeCall.perform_refines ih (calls_ok calls) call

/-! ## Every tree is well formed -/

/-- The nodes of a tree: the root, and the children of its nodes. -/
inductive NodeOf (t : INode) : INode → Prop
  | root : NodeOf t t
  | child {n c : INode} : NodeOf t n → c ∈ n.children → NodeOf t c

/-- The representation invariant of `InodeTree`, node by node. -/
structure WellFormed (t : INode) : Prop where
  rootType : t.type = .kDirectory
  rootName : t.name = []
  names : ∀ n, NodeOf t n → ∀ c ∈ n.children, c.name ≠ [] ∧ slash ∉ c.name
  siblings : ∀ n, NodeOf t n → (n.children.map INode.name).Nodup
  files : ∀ n, NodeOf t n → n.type = .kFile → n.children = []
  dirs : ∀ n, NodeOf t n → n.type = .kDirectory → n.blocks = []

/-- With distinct siblings every node is reached by following names, so what holds along all paths holds of
all nodes. -/
theorem every_of_nodeOf {t n : INode} (ht : INode.shape.Every NodeOk t) (h : NodeOf t n) :
    INode.shape.Every NodeOk n := by
  induction h with
  | root => exact ht
  | child _ hc ih => exact ih.child (find_of_mem ih.self.nodup hc)

theorem TreeOk.wellFormed {t : INode} (h : TreeOk t) : WellFormed t := by
  have hnode : ∀ n, NodeOf t n → NodeOk n := fun n hn => (every_of_nodeOf h.nodes hn).self
  constructor
  · exact h.rootType
  · exact h.rootName
  · exact fun n hn c hc => (hnode n hn).names c hc
  · exact fun n hn => (hnode n hn).nodup
  · exact fun n hn => (hnode n hn).file
  · exact fun n hn => (hnode n hn).dir

/-- Whatever is called with whatever strings, and whatever texts are loaded, the tree is well formed. -/
theorem calls_wellFormed (calls : List TreeCall) : WellFormed (after TreeCall.perform emptyTree calls) := by
  exact (calls_ok calls).wellFormed

/-! ## Every tree is a map -/

/-- With a path, all that is above it is there. -/
def NameMap.PrefixClosed (m : NameMap) : Prop := ∀ c d, d <+: c → (m.find c).isSome → (m.find d).isSome

/-- A tree answers for a path, and changes, as a map says. What each operation leaves is given entry by entry,
block lists included. -/
structure Agrees (t : INode) (m : NameMap) (path : Bytes) : Prop where
  components : splitPath path = (getlines slash path).filter (· ≠ [])
  getNode : (getNode t path).map INode.entry = m.find (splitPath path)
  mkdirs_fails : (mkdirs t path).2 = false ↔ ∃ d, d <+: splitPath path ∧ m.isFile d
  mkdirs_failed : (mkdirs t path).2 = false → (mkdirs t path).1 = t
  mkdirs_adds : (mkdirs t path).2 = true → ∀ d, entryAt (mkdirs t path).1 d =
    if d <+: splitPath path ∧ m.find d = none then some dirEntry else m.find d
  createFile_succeeds : (createFile t path).isSome ↔
    splitPath path ≠ [] ∧ m.find (splitPath path) = none ∧ m.find (splitPath path).dropLast = some dirEntry
  createFile_adds : ∀ t', createFile t path = some t' → ∀ d, entryAt t' d =
    if d = splitPath path then some ⟨.kFile, []⟩ else m.find d
  delete_succeeds : (delete t path).isSome ↔ splitPath path ≠ [] ∧ (m.find (splitPath path)).isSome
  delete_removes : ∀ t', delete t path = some t' → ∀ d, entryAt t' d =
    if splitPath path <+: d then none else m.find d
  listDir_names : (listDir t path).map INode.name = m.listDir (splitPath path)
  listDir_exactly : m.find (splitPath path) = some dirEntry →
    ∀ k, k ∈ (listDir t path).map INode.name ↔ (m.find (splitPath path ++ [k])).isSome
  listDir_once : ((listDir t path).map INode.name).Nodup
  listDir_entries : ∀ n ∈ listDir t path, m.find (splitPath path ++ [n.name]) = some n.entry

section Agrees

variable {t : INode} {m : NameMap}

theorem Refines.prefixClosed (h : Refines t m) : m.PrefixClosed := by
  intro c d hd hc
  rw [← h.entryAt_eq] at hc ⊢
  exact entryAt_isSome_above hd hc

theorem Refines.listDir_eq (h : Refines t m) (ht : TreeOk t) (path : Bytes) :
    (listDir t path).map INode.name = m.listDir (splitPath path) := by
  have hdir := h.isDir_iff ht (splitPath path)
  unfold listDir NameMap.listDir
  split
  · rename_i hnone
    rw [if_neg]
    · rfl
    · rw [← h.entryAt_eq, entryAt, show INode.shape.walk t (splitPath path) = none from hnone]
      simp
  · rename_i n hn
    have hent : entryAt t (splitPath path) = some n.entry := congrArg (Option.map INode.entry) hn
    split
    · rename_i hty
      rw [if_neg]
      · rfl
      · rw [← h.entryAt_eq, hent]
        exact fun he => hty (congrArg Entry.type (Option.some.inj he))
    · rename_i hty
      rw [not_not] at hty
      rw [if_pos (hdir.1 ⟨n.blocks, by rw [hent, INode.entry, hty]⟩), (h.walk hn).2]

theorem listDir_nodup (ht : TreeOk t) (path : Bytes) : ((listDir t path).map INode.name).Nodup := by
  unfold listDir
  split
  · exact List.nodup_nil
  · rename_i n hn
    split
    · exact List.nodup_nil
    · exact (ht.nodes _ n hn).nodup

theorem Refines.listDir_find (h : Refines t m) (ht : TreeOk t) {path : Bytes} {n : INode} (hn : n ∈ listDir t path) :
    m.find (splitPath path ++ [n.name]) = some n.entry := by
  unfold listDir at hn
  split at hn
  · cases hn
  · rename_i dir hdir
    split at hn
    · cases hn
    · have hwalk : INode.shape.walk t (splitPath path) = some dir := hdir
      rw [← h.entryAt_eq, entryAt, Shape.walk_append, hwalk, Option.bind_some, Shape.walk_cons,
        show INode.shape.findChild dir n.name = some n from find_of_mem (ht.nodes _ _ hwalk).nodup hn]
      rfl

theorem Refines.mkdirs_fails (h : Refines t m) (ht : TreeOk t) (path : Bytes) :
    (mkdirs t path).2 = false ↔ ∃ d, d <+: splitPath path ∧ m.isFile d := by
  have htrue : (mkdirsFrom t (splitPath path)).2 = true ↔ _ := mkdirsFrom_true ht.rootType
  constructor
  · intro hfalse
    have hno : ¬ NoFileOn t (splitPath path) := by
      rw [← htrue, show (mkdirsFrom t (splitPath path)).2 = false from hfalse]
      simp
    unfold NoFileOn at hno
    push Not at hno
    obtain ⟨d, hd, hf⟩ := hno
    exact ⟨d, hd, (h.isFile_iff d).2 hf⟩
  · rintro ⟨d, hd, hf⟩
    rw [Bool.eq_false_iff]
    exact fun hok => htrue.1 hok d hd ((h.isFile_iff d).1 hf)

theorem Refines.agrees (h : Refines t m) (ht : TreeOk t) (path : Bytes) : Agrees t m path := by
  constructor
  · exact splitPath_eq path
  · exact h.entryAt_eq (splitPath path)
  · exact h.mkdirs_fails ht path
  · exact fun hfalse => mkdirsFrom_false hfalse
  · intro hok d
    have hno := (mkdirsFrom_true ht.rootType).1 hok
    rw [← h.entryAt_eq]
    exact entryAt_mkdirsFrom hno ht.rootType d
  · rw [← h.entryAt_eq, ← h.isDir_iff ht]
    exact createFrom_isSome ht.nodes ht.rootType
  · intro t' hc d
    rw [← h.entryAt_eq]
    exact entryAt_createFrom hc d
  · rw [← h.entryAt_eq]
    exact deleteFrom_isSome
  · intro t' hd d
    rw [← h.entryAt_eq]
    exact entryAt_deleteFrom ht.nodes hd d
  · exact h.listDir_eq ht path
  · intro hdir k
    rw [h.listDir_eq ht path, NameMap.listDir, if_pos hdir]
    exact PathMap.mem_childKeys
  · exact listDir_nodup ht path
  · exact fun n hn => h.listDir_find ht hn

end Agrees

/-- Every tree that calls and images make is the map that the same calls make: the map is closed under prefixes,
and the tree agrees with it on every path. The map lists what is below a path in the order in which it was
added. -/
theorem tree_refines_map (calls : List TreeCall) :
    (after TreeCall.performMap NameMap.root calls).PrefixClosed ∧ ∀ path,
      Agrees (after TreeCall.perform emptyTree calls) (after TreeCall.performMap NameMap.root calls) path :=
  ⟨(calls_refine calls).prefixClosed, fun path => (calls_refine calls).agrees (calls_ok calls) path⟩

end MiniHadoop.Ndfs

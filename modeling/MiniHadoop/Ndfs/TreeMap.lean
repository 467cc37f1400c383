/-
The inode tree as a map from component lists to entries (a kind and a block list), and what each
operation does to that map: `mkdirsFrom` adds the missing prefixes, `createFrom` adds one file,
`deleteFrom` removes a path with everything below it, `pushBlockAt` extends one block list. The node
invariant `NodeOk` is kept by all of them.
-/
import MiniHadoop.Ndfs.InodeTree

namespace MiniHadoop.Ndfs

open Text Forest

/-! ## Entries -/

/-- What a path denotes: a directory, or a file with its block ids. -/
structure Entry where
  type : INodeType
  blocks : List Int64
  deriving DecidableEq, Repr

def INode.entry (n : INode) : Entry := ⟨n.type, n.blocks⟩

def dirEntry : Entry := ⟨.kDirectory, []⟩

/-- The entry at a component list. -/
def entryAt (t : INode) (c : List Bytes) : Option Entry := (INode.shape.walk t c).map INode.entry

/-- The path denotes a file. -/
def IsFile (t : INode) (c : List Bytes) : Prop := ∃ bl, entryAt t c = some ⟨.kFile, bl⟩

/-- The path denotes a directory. -/
def IsDir (t : INode) (c : List Bytes) : Prop := ∃ bl, entryAt t c = some ⟨.kDirectory, bl⟩

/-- No prefix of the path, the path itself included, denotes a file. -/
def NoFileOn (t : INode) (c : List Bytes) : Prop := ∀ d, d <+: c → ¬ IsFile t d

/-- The invariant of one node: distinct children, named by components; files have no children,
directories no blocks. -/
structure NodeOk (n : INode) : Prop where
  nodup : (n.children.map INode.name).Nodup
  names : ∀ c ∈ n.children, Component c.name
  file : n.type = .kFile → n.children = []
  dir : n.type = .kDirectory → n.blocks = []

/-- The invariant of the whole tree: the root is a directory with the empty name, and every node
below satisfies `NodeOk`. -/
structure TreeOk (t : INode) : Prop where
  rootType : t.type = .kDirectory
  rootName : t.name = []
  nodes : INode.shape.Every NodeOk t

section Lookup

variable {t : INode} {c d : List Bytes}

theorem isFile_or_isDir {e : Entry} (h : entryAt t c = some e) : IsFile t c ∨ IsDir t c := by
  obtain ⟨ty, bl⟩ := e
  cases ty
  · exact .inr ⟨bl, h⟩
  · exact .inl ⟨bl, h⟩

theorem not_isFile_of_isDir (h : IsDir t c) : ¬ IsFile t c := by
  obtain ⟨bl, h⟩ := h
  rintro ⟨bl', h'⟩
  rw [h] at h'; cases h'

theorem entryAt_cons (k : Bytes) : entryAt t (k :: c) = (t.findChild k).bind fun n => entryAt n c := by
  unfold entryAt INode.findChild
  rw [Shape.walk_cons]
  cases INode.shape.findChild t k <;> rfl

theorem entryAt_nil : entryAt t [] = some t.entry := rfl

/-- The empty path denotes the root directory. -/
theorem TreeOk.entry_root (h : TreeOk t) : entryAt t [] = some dirEntry := by
  have h1 := h.rootType
  have h2 := h.nodes.self.dir h1
  rw [entryAt_nil, INode.entry, h1, h2]; rfl

theorem not_isFile_root (h : TreeOk t) : ¬ IsFile t [] := by
  rintro ⟨bl, hb⟩
  rw [h.entry_root] at hb; cases hb

theorem entryAt_isSome_above (h : d <+: c) (hc : (entryAt t c).isSome) : (entryAt t d).isSome := by
  unfold entryAt at hc ⊢
  rw [Option.isSome_map] at hc ⊢
  exact Shape.walk_above h hc

/-- Below an absent path there is nothing. -/
theorem entryAt_below_none (h : d <+: c) (hd : entryAt t d = none) : entryAt t c = none := by
  by_contra hc
  have := entryAt_isSome_above h (Option.isSome_iff_ne_none.2 hc)
  rw [hd] at this; cases this

/-- Below a file there is nothing. -/
theorem entryAt_below_file (ht : INode.shape.Every NodeOk t) (hd : IsFile t d) (h : d <+: c) (hne : d ≠ c) :
    entryAt t c = none := by
  obtain ⟨r, rfl⟩ := h
  obtain ⟨bl, hd⟩ := hd
  obtain ⟨n, hn, he⟩ := Option.map_eq_some_iff.1 hd
  have htype : n.type = .kFile := congrArg Entry.type he
  have hch : n.children = [] := (ht d n hn).file htype
  unfold entryAt
  rw [Shape.walk_append, hn]
  cases r with
  | nil => simp at hne
  | cons k r =>
    have : INode.shape.findChild n k = none := by
      unfold Shape.findChild
      rw [show INode.shape.children n = n.children from rfl, hch]; rfl
    simp [Shape.walk_cons, this]

/-- A directory has no blocks. -/
theorem isDir_iff (ht : INode.shape.Every NodeOk t) : IsDir t c ↔ entryAt t c = some dirEntry := by
  constructor
  · rintro ⟨bl, hb⟩
    obtain ⟨n, hn, hent⟩ := Option.map_eq_some_iff.1 hb
    have htype : n.type = .kDirectory := congrArg Entry.type hent
    have hbl : n.blocks = bl := congrArg Entry.blocks hent
    rw [hb, ← hbl, (ht c n hn).dir htype]; rfl
  · exact fun h => ⟨[], h⟩

/-- A proper prefix of a present path is a directory without blocks. -/
theorem entryAt_above (ht : INode.shape.Every NodeOk t) (h : d <+: c) (hne : d ≠ c)
    (hc : (entryAt t c).isSome) : entryAt t d = some dirEntry := by
  obtain ⟨e, he⟩ := Option.isSome_iff_exists.1 (entryAt_isSome_above h hc)
  rcases isFile_or_isDir he with hf | ⟨bl, hb⟩
  · rw [entryAt_below_file ht hf h hne] at hc; cases hc
  · exact (isDir_iff ht).1 ⟨bl, hb⟩

/-- A path below an existing file is blocked. -/
theorem noFileOn_of_isDir (ht : INode.shape.Every NodeOk t) (h : IsDir t c) : NoFileOn t c := by
  intro d hd hf
  by_cases hne : d = c
  · subst hne; exact not_isFile_of_isDir h hf
  · obtain ⟨bl, hb⟩ := h
    rw [entryAt_below_file ht hf hd hne] at hb; cases hb

/-- The paths of a tree are made of components. -/
theorem component_of_entryAt (ht : INode.shape.Every NodeOk t) {e : Entry} (h : entryAt t c = some e) :
    ∀ p ∈ c, Component p := by
  induction c generalizing t with
  | nil => intro p hp; cases hp
  | cons k c ih =>
    rw [entryAt_cons] at h
    obtain ⟨child, hc, h⟩ := Option.bind_eq_some_iff.1 h
    intro p hp
    rcases List.mem_cons.1 hp with rfl | hp
    · rw [← show child.name = p from key_of_find hc]
      exact ht.self.names child (mem_of_find hc)
    · exact ih (ht.child hc) h p hp

/-- A path that is present is the path of its own text. -/
theorem splitPath_joinPath_of_entryAt (ht : INode.shape.Every NodeOk t) {e : Entry} (h : entryAt t c = some e) :
    splitPath (joinPath c) = c :=
  splitPath_joinPath (component_of_entryAt ht h)

theorem noFileOn_nil (h : TreeOk t) : NoFileOn t [] := by
  intro d hd
  rw [List.prefix_nil.1 hd]; exact not_isFile_root h

end Lookup

/-! ## The node invariant -/

theorem nodeOk_new {ty : INodeType} {n : Bytes} : NodeOk (INode.new ty n) :=
  ⟨List.nodup_nil, by simp [INode.new, INode.children], fun _ => rfl, fun _ => rfl⟩

theorem every_new {ty : INodeType} {n : Bytes} : INode.shape.Every NodeOk (INode.new ty n) :=
  Shape.Every.intro nodeOk_new fun _ _ h => by cases h

theorem emptyTree_ok : TreeOk emptyTree := ⟨rfl, rfl, every_new⟩

theorem NodeOk.setChild {a c v : INode} {k : Bytes} (h : NodeOk a) (hc : INode.shape.findChild a k = some c)
    (hv : v.name = k) : NodeOk (INode.shape.setChild a k v) := by
  have hkeys : (set INode.name k v a.children).map INode.name = a.children.map INode.name :=
    map_key_set hv a.children
  refine ⟨?_, ?_, ?_, h.dir⟩
  · show ((set INode.name k v a.children).map INode.name).Nodup
    rw [hkeys]; exact h.nodup
  · intro x hx
    have hx' : x.name ∈ (set INode.name k v a.children).map INode.name := List.mem_map_of_mem hx
    rw [hkeys] at hx'
    obtain ⟨y, hy, hxy⟩ := List.mem_map.1 hx'
    rw [← hxy]; exact h.names y hy
  · intro hf
    -- a file has no child to replace
    have := mem_of_find hc
    rw [show INode.shape.children a = a.children from rfl, h.file hf] at this
    cases this

theorem NodeOk.pushChild {a v : INode} (h : NodeOk a) (hd : a.type = .kDirectory) (hv : Component v.name)
    (hn : a.findChild v.name = none) : NodeOk (a.pushChild v) := by
  refine ⟨?_, ?_, ?_, h.dir⟩
  · show ((a.children ++ [v]).map INode.name).Nodup
    rw [List.map_append, List.map_singleton]
    have : v.name ∉ a.children.map INode.name := find_eq_none.1 hn
    exact List.nodup_append.2 ⟨h.nodup, List.nodup_singleton _, by
      intro x hx y hy hxy
      rw [List.mem_singleton.1 hy] at hxy
      exact this (hxy ▸ hx)⟩
  · intro x hx
    rcases List.mem_append.1 (show x ∈ a.children ++ [v] from hx) with hx | hx
    · exact h.names x hx
    · rw [List.mem_singleton.1 hx]; exact hv
  · intro hf
    rw [show (a.pushChild v).type = a.type from rfl, hd] at hf; cases hf

theorem NodeOk.removeChild {a a' : INode} {k : Bytes} (h : NodeOk a) (hr : a.removeChild k = some a') :
    NodeOk a' := by
  obtain ⟨l, hl, rfl⟩ := Option.map_eq_some_iff.1 hr
  have hsub := remove_sublist hl
  refine ⟨(hsub.map _).nodup h.nodup, fun x hx => h.names x (hsub.subset hx), fun hf => ?_, h.dir⟩
  have : a.children = [] := h.file hf
  rw [this] at hsub
  exact List.sublist_nil.1 hsub

/-! ## Mkdirs -/

section Mkdirs

variable {t child : INode} {part : Bytes} {parts : List Bytes}

theorem mkdirsFrom_missing (h : t.findChild part = none) :
    mkdirsFrom t (part :: parts) = (t.pushChild (mkdirsFrom (INode.new .kDirectory part) parts).1,
      (mkdirsFrom (INode.new .kDirectory part) parts).2) := by
  rw [mkdirsFrom, h]

theorem mkdirsFrom_dir (h : t.findChild part = some child) (hd : child.type = .kDirectory) :
    mkdirsFrom t (part :: parts) = (INode.shape.setChild t part (mkdirsFrom child parts).1,
      (mkdirsFrom child parts).2) := by
  rw [mkdirsFrom, h]
  simp only [hd, if_true]

theorem mkdirsFrom_file (h : t.findChild part = some child) (hf : child.type ≠ .kDirectory) :
    mkdirsFrom t (part :: parts) = (t, false) := by
  rw [mkdirsFrom, h]
  simp only [hf, if_false]

theorem mkdirsFrom_meta (parts : List Bytes) (t : INode) :
    (mkdirsFrom t parts).1.name = t.name ∧ (mkdirsFrom t parts).1.type = t.type ∧
      (mkdirsFrom t parts).1.blocks = t.blocks := by
  cases parts with
  | nil => exact ⟨rfl, rfl, rfl⟩
  | cons part parts =>
    rw [mkdirsFrom]
    split
    · exact ⟨rfl, rfl, rfl⟩
    · split <;> exact ⟨rfl, rfl, rfl⟩

theorem mkdirsFrom_ok (ht : INode.shape.Every NodeOk t) (hd : t.type = .kDirectory)
    (hp : ∀ p ∈ parts, Component p) : INode.shape.Every NodeOk (mkdirsFrom t parts).1 := by
  induction parts generalizing t with
  | nil => exact ht
  | cons part parts ih =>
    have hpart := hp part (List.mem_cons_self ..)
    have hrest : ∀ p ∈ parts, Component p := fun p h => hp p (List.mem_cons_of_mem _ h)
    cases hc : t.findChild part with
    | none =>
      have hname : (mkdirsFrom (INode.new .kDirectory part) parts).1.name = part := (mkdirsFrom_meta parts _).1
      rw [mkdirsFrom_missing hc]
      refine ht.push (ih every_new rfl hrest) (ht.self.pushChild hd ?_ ?_)
      · rw [hname]; exact hpart
      · rw [hname]; exact hc
    | some child =>
      by_cases hcd : child.type = .kDirectory
      · have hname : (mkdirsFrom child parts).1.name = part :=
          (mkdirsFrom_meta parts child).1.trans (key_of_find hc)
        rw [mkdirsFrom_dir hc hcd]
        exact ht.setChild (ih (ht.child hc) hcd hrest) hname (ht.self.setChild hc hname)
      · rw [mkdirsFrom_file hc hcd]; exact ht

/-- A fresh directory has no entry but its own. -/
theorem entryAt_new_cons (ty : INodeType) (n k : Bytes) (c : List Bytes) :
    entryAt (INode.new ty n) (k :: c) = none := by
  rw [entryAt_cons]; rfl

theorem noFileOn_new (n : Bytes) (c : List Bytes) : NoFileOn (INode.new .kDirectory n) c := by
  rintro d - ⟨bl, hf⟩
  cases d with
  | nil => cases hf
  | cons k d => rw [entryAt_new_cons] at hf; cases hf

theorem NoFileOn.tail (h : NoFileOn t (part :: parts)) (hc : t.findChild part = some child) : NoFileOn child parts := by
  rintro d hpre ⟨bl, hf⟩
  refine h (part :: d) (List.cons_prefix_cons.2 ⟨rfl, hpre⟩) ⟨bl, ?_⟩
  rw [entryAt_cons, hc]; exact hf

theorem noFileOn_child (hc : t.findChild part = some child) (hd : t.type = .kDirectory) :
    NoFileOn t (part :: parts) ↔ NoFileOn child parts := by
  constructor
  · exact fun h => h.tail hc
  · rintro h d hpre ⟨bl, hf⟩
    cases d with
    | nil => rw [entryAt_nil, INode.entry, hd] at hf; cases hf
    | cons k d =>
      obtain ⟨rfl, hpre'⟩ := List.cons_prefix_cons.1 hpre
      rw [entryAt_cons, hc] at hf
      exact h d hpre' ⟨bl, hf⟩

theorem noFileOn_missing (hn : t.findChild part = none) (hd : t.type = .kDirectory) :
    NoFileOn t (part :: parts) := by
  rintro d hpre ⟨bl, hf⟩
  cases d with
  | nil => rw [entryAt_nil, INode.entry, hd] at hf; cases hf
  | cons k d =>
    obtain ⟨rfl, -⟩ := List.cons_prefix_cons.1 hpre
    rw [entryAt_cons, hn] at hf; cases hf

/-- A child that is no directory is a file on the path. -/
theorem isFile_child (hc : t.findChild part = some child) (hcd : child.type ≠ .kDirectory) :
    IsFile t [part] := by
  refine ⟨child.blocks, ?_⟩
  rw [entryAt_cons, hc]
  cases hty : child.type
  · exact absurd hty hcd
  · simp [entryAt_nil, INode.entry, hty]

theorem child_isDir (hno : NoFileOn t (part :: parts)) (hc : t.findChild part = some child) :
    child.type = .kDirectory := by
  by_contra hcd
  exact hno [part] (by simp) (isFile_child hc hcd)

/-- `Mkdirs` succeeds exactly when no prefix is a file. -/
theorem mkdirsFrom_true (hd : t.type = .kDirectory) : (mkdirsFrom t parts).2 = true ↔ NoFileOn t parts := by
  induction parts generalizing t with
  | nil =>
    refine ⟨fun _ d hpre hf => ?_, fun _ => rfl⟩
    obtain ⟨bl, hf⟩ := hf
    rw [List.prefix_nil.1 hpre, entryAt_nil, INode.entry, hd] at hf; cases hf
  | cons part parts ih =>
    cases hc : t.findChild part with
    | none =>
      rw [mkdirsFrom_missing hc]
      exact ⟨fun _ => noFileOn_missing hc hd, fun _ => (ih rfl).2 (noFileOn_new part parts)⟩
    | some child =>
      by_cases hcd : child.type = .kDirectory
      · rw [mkdirsFrom_dir hc hcd, noFileOn_child hc hd]; exact ih hcd
      · rw [mkdirsFrom_file hc hcd]
        refine ⟨fun h => (by cases h), fun h => ?_⟩
        exact absurd (isFile_child hc hcd) (h [part] (by simp))

/-- A failed `Mkdirs` changes nothing: nothing was created before the file was met. -/
theorem mkdirsFrom_false (h : (mkdirsFrom t parts).2 = false) : (mkdirsFrom t parts).1 = t := by
  induction parts generalizing t with
  | nil => rfl
  | cons part parts ih =>
    cases hc : t.findChild part with
    | none =>
      rw [mkdirsFrom_missing hc] at h
      rw [(mkdirsFrom_true rfl).2 (noFileOn_new part parts)] at h
      cases h
    | some child =>
      by_cases hcd : child.type = .kDirectory
      · rw [mkdirsFrom_dir hc hcd] at h ⊢
        rw [ih h]
        exact Shape.setChild_self hc
      · rw [mkdirsFrom_file hc hcd]

theorem findChild_mkdirsFrom_missing (hn : t.findChild part = none) (k : Bytes) :
    (mkdirsFrom t (part :: parts)).1.findChild k =
      if k = part then some (mkdirsFrom (INode.new .kDirectory part) parts).1 else t.findChild k := by
  have hname : INode.shape.key (mkdirsFrom (INode.new .kDirectory part) parts).1 = part :=
    (mkdirsFrom_meta parts _).1
  have hpush := Shape.findChild_push (S := INode.shape) t (mkdirsFrom (INode.new .kDirectory part) parts).1 k
  rw [hname] at hpush
  rw [mkdirsFrom_missing hn]
  refine hpush.trans ?_
  by_cases hk : k = part
  · subst hk
    rw [show INode.shape.findChild t k = none from hn]
    simp
  · simp [hk, Ne.symm hk, INode.findChild]

theorem findChild_mkdirsFrom_dir (hc : t.findChild part = some child) (hcd : child.type = .kDirectory)
    (k : Bytes) : (mkdirsFrom t (part :: parts)).1.findChild k =
      if k = part then some (mkdirsFrom child parts).1 else t.findChild k := by
  have hname : INode.shape.key (mkdirsFrom child parts).1 = part :=
    (mkdirsFrom_meta parts _).1.trans (key_of_find hc)
  have hset := Shape.findChild_setChild (S := INode.shape) (a := t) hname k
  rw [show INode.shape.findChild t part = some child from hc] at hset
  rw [mkdirsFrom_dir hc hcd]
  exact hset

/-- A successful `Mkdirs` adds exactly the missing prefixes, as directories. -/
theorem entryAt_mkdirsFrom (hno : NoFileOn t parts) (hd : t.type = .kDirectory) (c : List Bytes) :
    entryAt (mkdirsFrom t parts).1 c =
      if c <+: parts ∧ entryAt t c = none then some dirEntry else entryAt t c := by
  induction parts generalizing t c with
  | nil =>
    rw [mkdirsFrom, if_neg]
    rintro ⟨hc, hn⟩
    rw [List.prefix_nil.1 hc, entryAt_nil] at hn; cases hn
  | cons part parts ih =>
    cases c with
    | nil =>
      obtain ⟨-, h2, h3⟩ := mkdirsFrom_meta (part :: parts) t
      rw [if_neg (by rw [entryAt_nil]; simp), entryAt_nil, entryAt_nil, INode.entry, INode.entry, h2, h3]
    | cons k c =>
      simp only [List.cons_prefix_cons, entryAt_cons]
      cases hc : t.findChild part with
      | none =>
        rw [findChild_mkdirsFrom_missing hc]
        by_cases hk : k = part
        · subst hk
          rw [if_pos rfl, hc]
          simp only [Option.bind_some, Option.bind_none, true_and, and_true]
          rw [ih (noFileOn_new k parts) rfl c]
          cases c with
          | nil => simp [entryAt_nil, INode.entry, INode.new, INode.type, INode.blocks, dirEntry]
          | cons k' c => rw [entryAt_new_cons]; simp
        · simp [hk]
      | some child =>
        have hcd := child_isDir hno hc
        rw [findChild_mkdirsFrom_dir hc hcd]
        by_cases hk : k = part
        · subst hk
          rw [if_pos rfl, hc]
          simp only [Option.bind_some, true_and]
          exact ih (hno.tail hc) hcd c
        · simp [hk]

/-- `Mkdirs` below an existing directory works at that directory. -/
theorem mkdirsFrom_append {n : INode} {p : List Bytes} (hno : NoFileOn t p) (hw : INode.shape.walk t p = some n)
    (q : List Bytes) :
    INode.shape.alter (fun _ => some (mkdirsFrom n q).1) t p = some (mkdirsFrom t (p ++ q)).1 := by
  induction p generalizing t with
  | nil => cases hw; rfl
  | cons k p ih =>
    rw [Shape.walk_cons] at hw
    obtain ⟨c, hc, hw⟩ := Option.bind_eq_some_iff.1 hw
    have hcd : c.type = .kDirectory := child_isDir hno hc
    rw [Shape.alter, hc, List.cons_append, mkdirsFrom_dir hc hcd]
    simp only [ih (hno.tail hc) hw, Option.map_some]

end Mkdirs

/-! ## CreateFile -/

section Create

variable {t t' child : INode} {part : Bytes} {parts : List Bytes}

theorem createFrom_cons (hne : parts ≠ []) :
    createFrom t (part :: parts) = (t.findChild part).bind fun child =>
      if child.type ≠ .kDirectory then none
      else (createFrom child parts).map (INode.shape.setChild t part) := by
  cases parts with
  | nil => exact absurd rfl hne
  | cons q parts =>
    rw [createFrom]
    · cases t.findChild part <;> rfl
    · exact fun h => by cases h

theorem createFrom_one :
    createFrom t [part] = if (t.findChild part).isSome then none
      else some (t.pushChild (INode.new .kFile part)) := by
  rw [createFrom]
  cases t.findChild part <;> rfl

/-- A successful `CreateFile` adds a file here, or works at a directory below. -/
theorem createFrom_cases (h : createFrom t (part :: parts) = some t') :
    (parts = [] ∧ t.findChild part = none ∧ t' = t.pushChild (INode.new .kFile part)) ∨
      ∃ child child', t.findChild part = some child ∧ child.type = .kDirectory ∧
        createFrom child parts = some child' ∧ t' = INode.shape.setChild t part child' := by
  by_cases hne : parts = []
  · subst hne
    rw [createFrom_one] at h
    split at h
    · cases h
    · rename_i hnew
      exact .inl ⟨rfl, Option.not_isSome_iff_eq_none.1 hnew, (Option.some.inj h).symm⟩
  · rw [createFrom_cons hne] at h
    obtain ⟨child, hc, h⟩ := Option.bind_eq_some_iff.1 h
    split at h
    · cases h
    · rename_i hcd
      obtain ⟨child', hc', rfl⟩ := Option.map_eq_some_iff.1 h
      exact .inr ⟨child, child', hc, not_not.1 hcd, hc', rfl⟩

theorem createFrom_name (h : createFrom t parts = some t') : t'.name = t.name := by
  cases parts with
  | nil => cases h
  | cons part parts =>
    rcases createFrom_cases h with ⟨-, -, rfl⟩ | ⟨child, child', -, -, -, rfl⟩
    · rfl
    · rfl

/-- `CreateFile` keeps the node invariant. -/
theorem createFrom_ok (ht : INode.shape.Every NodeOk t) (hd : t.type = .kDirectory)
    (hp : ∀ p ∈ parts, Component p) (h : createFrom t parts = some t') :
    INode.shape.Every NodeOk t' ∧ t'.type = .kDirectory := by
  induction parts generalizing t t' with
  | nil => cases h
  | cons part parts ih =>
    rcases createFrom_cases h with ⟨-, hnew, rfl⟩ | ⟨child, child', hc, hcd, hc', rfl⟩
    · exact ⟨ht.push every_new (ht.self.pushChild hd (hp part (List.mem_cons_self ..)) hnew), hd⟩
    · have hname : child'.name = part := (createFrom_name hc').trans (key_of_find hc)
      have hok := ih (ht.child hc) hcd (fun p hp' => hp p (List.mem_cons_of_mem _ hp')) hc'
      exact ⟨ht.setChild hok.1 hname (ht.self.setChild hc hname), hd⟩

/-- A successful `CreateFile` adds exactly its path, as a file without blocks. -/
theorem entryAt_createFrom (h : createFrom t parts = some t') (c : List Bytes) :
    entryAt t' c = if c = parts then some ⟨.kFile, []⟩ else entryAt t c := by
  induction parts generalizing t t' c with
  | nil => cases h
  | cons part parts ih =>
    rcases createFrom_cases h with ⟨rfl, hnew, rfl⟩ | ⟨child, child', hc, -, hc', rfl⟩
    · cases c with
      | nil => rfl
      | cons k c =>
        have hpush : (t.pushChild (INode.new .kFile part)).findChild k =
            (t.findChild k).or (if part = k then some (INode.new .kFile part) else none) :=
          Shape.findChild_push (S := INode.shape) t (INode.new .kFile part) k
        rw [entryAt_cons, entryAt_cons, hpush]
        by_cases hk : part = k
        · subst hk
          rw [hnew]
          cases c with
          | nil =>
            simp [entryAt_nil, INode.entry, INode.new, INode.type, INode.blocks]
          | cons k' c => simp [entryAt_new_cons]
        · simp [hk, Ne.symm hk]
    · have hname : INode.shape.key child' = part := (createFrom_name hc').trans (key_of_find hc)
      cases c with
      | nil => rfl
      | cons k c =>
        have hset : (INode.shape.setChild t part child').findChild k =
            if k = part then some child' else t.findChild k := by
          have := Shape.findChild_setChild (S := INode.shape) (a := t) hname k
          rwa [show INode.shape.findChild t part = some child from hc] at this
        rw [entryAt_cons, entryAt_cons, hset]
        by_cases hk : k = part
        · subst hk
          rw [if_pos rfl, hc]
          simp only [Option.bind_some, List.cons.injEq, true_and]
          exact ih hc' c
        · simp [hk]

/-- `CreateFile` succeeds exactly when the path is new and its parent is a directory. -/
theorem createFrom_isSome (ht : INode.shape.Every NodeOk t) (hd : t.type = .kDirectory) :
    (createFrom t parts).isSome ↔ parts ≠ [] ∧ entryAt t parts = none ∧ IsDir t parts.dropLast := by
  induction parts generalizing t with
  | nil => simp [createFrom]
  | cons part parts ih =>
    by_cases hne : parts = []
    · subst hne
      have hroot : IsDir t [] := ⟨t.blocks, by rw [entryAt_nil, INode.entry, hd]⟩
      rw [createFrom_one, entryAt_cons]
      cases hc : t.findChild part with
      | none => simp [hroot]
      | some child => simp [entryAt_nil]
    · rw [createFrom_cons hne, List.dropLast_cons_of_ne_nil hne, entryAt_cons]
      have hdir : ∀ child, t.findChild part = some child →
          (IsDir t (part :: parts.dropLast) ↔ IsDir child parts.dropLast) := by
        intro child hc
        unfold IsDir
        simp only [entryAt_cons, hc, Option.bind_some]
      cases hc : t.findChild part with
      | none =>
        refine ⟨fun h => by simp at h, ?_⟩
        rintro ⟨-, -, bl, hb⟩
        rw [entryAt_cons, hc] at hb; cases hb
      | some child =>
        rw [hdir child hc]
        simp only [Option.bind_some]
        by_cases hcd : child.type = .kDirectory
        · simp only [hcd, ne_eq, not_true_eq_false, if_false, Option.isSome_map]
          rw [ih (ht.child hc) hcd]
          simp [hne]
        · simp only [hcd, ne_eq, not_false_eq_true, if_true]
          refine ⟨fun h => (by cases h), ?_⟩
          rintro ⟨-, -, bl, hb⟩
          -- a file has no directory below or at it
          have hfile : child.type = .kFile := by cases hty : child.type; exacts [absurd hty hcd, rfl]
          have hch : child.children = [] := (ht.child hc).self.file hfile
          cases hp : parts.dropLast with
          | nil =>
            rw [hp, entryAt_nil, INode.entry, hfile] at hb; cases hb
          | cons k r =>
            rw [hp, entryAt_cons, INode.findChild, Shape.findChild,
              show INode.shape.children child = child.children from rfl, hch] at hb
            cases hb

end Create

/-! ## Delete and block appends -/

section Delete

variable {t t' : INode} {parts : List Bytes}

theorem removeChild_name {k : Bytes} (n n' : INode) (h : n.removeChild k = some n') : n'.name = n.name := by
  obtain ⟨l, -, rfl⟩ := Option.map_eq_some_iff.1 h
  rfl

theorem every_removeChild {k : Bytes} {n n' : INode} (hn : INode.shape.Every NodeOk n)
    (h : n.removeChild k = some n') : INode.shape.Every NodeOk n' := by
  refine Shape.Every.intro (hn.self.removeChild h) fun k' c hc => ?_
  obtain ⟨l, hl, rfl⟩ := Option.map_eq_some_iff.1 h
  rw [show INode.shape.findChild (n.withChildren l) k' = find INode.name k' l from rfl,
    find_remove k' hn.self.nodup hl] at hc
  split at hc
  · cases hc
  · exact hn.child hc

theorem deleteFrom_concat (p : List Bytes) (k : Bytes) :
    deleteFrom t (p ++ [k]) = INode.shape.alter (INode.removeChild k) t p := by
  simp [deleteFrom]

/-- `Delete` keeps the node invariant. -/
theorem deleteFrom_ok (ht : INode.shape.Every NodeOk t) (h : deleteFrom t parts = some t') :
    INode.shape.Every NodeOk t' := by
  rcases List.eq_nil_or_concat parts with rfl | ⟨p, k, rfl⟩
  · cases h
  · rw [List.concat_eq_append, deleteFrom_concat] at h
    exact ht.alter (fun a c v k hP hc hv => hP.setChild hc hv) removeChild_name
      (fun n n' hn hr => every_removeChild hn hr) p h

theorem alter_meta {f : INode → Option INode} (hf : ∀ n n', f n = some n' → n'.name = n.name ∧ n'.type = n.type)
    {p : List Bytes} (h : INode.shape.alter f t p = some t') : t'.name = t.name ∧ t'.type = t.type := by
  cases p with
  | nil => exact hf _ _ h
  | cons k p =>
    obtain ⟨c, c', -, -, rfl⟩ := Shape.alter_cons h
    exact ⟨rfl, rfl⟩

theorem deleteFrom_meta (h : deleteFrom t parts = some t') : t'.name = t.name ∧ t'.type = t.type := by
  rcases List.eq_nil_or_concat parts with rfl | ⟨p, k, rfl⟩
  · cases h
  · rw [List.concat_eq_append, deleteFrom_concat] at h
    refine alter_meta (fun n n' hn => ?_) h
    obtain ⟨l, -, rfl⟩ := Option.map_eq_some_iff.1 hn
    exact ⟨rfl, rfl⟩

theorem entry_setChild (a : INode) (k : Bytes) (v : INode) (_ : INode.shape.key v = k) :
    (INode.shape.setChild a k v).entry = a.entry := rfl

/-- A successful `Delete` removes exactly the path and what is below it. -/
theorem entryAt_deleteFrom (ht : INode.shape.Every NodeOk t) (h : deleteFrom t parts = some t')
    (c : List Bytes) : entryAt t' c = if parts <+: c then none else entryAt t c := by
  rcases List.eq_nil_or_concat parts with rfl | ⟨p, k, rfl⟩
  · cases h
  · rw [List.concat_eq_append, deleteFrom_concat] at h
    rw [List.concat_eq_append]
    obtain ⟨n, n', hw, hr⟩ := Shape.walk_of_alter p h
    obtain ⟨l, hl, -⟩ := Option.map_eq_some_iff.1 hr
    refine (Shape.walk_alter_remove entry_setChild hw (ht p n hw).nodup hl h c).trans ?_
    -- the parent keeps its entry
    by_cases hc : c = p
    · subst hc
      rw [if_pos rfl, if_neg (not_concat_isPrefix c k), entryAt, hw]; rfl
    · rw [if_neg hc]; rfl

/-- `Delete` succeeds exactly on present paths other than the root. -/
theorem deleteFrom_isSome : (deleteFrom t parts).isSome ↔ parts ≠ [] ∧ (entryAt t parts).isSome := by
  rcases List.eq_nil_or_concat parts with rfl | ⟨p, k, rfl⟩
  · simp [deleteFrom]
  · rw [List.concat_eq_append, deleteFrom_concat]
    have hrem : ∀ n : INode, (n.removeChild k).isSome = (n.findChild k).isSome := by
      intro n
      rw [INode.removeChild, Option.isSome_map]; exact remove_isSome
    unfold entryAt
    rw [Option.isSome_map, Shape.walk_append]
    constructor
    · intro h
      obtain ⟨t', ht'⟩ := Option.isSome_iff_exists.1 h
      obtain ⟨n, n', hw, hr⟩ := Shape.walk_of_alter p ht'
      refine ⟨by simp, ?_⟩
      have := hrem n
      rw [hr] at this
      obtain ⟨c, hc⟩ := Option.isSome_iff_exists.1 this.symm
      rw [hw]
      simp only [Option.bind_some, Shape.walk_cons]
      rw [show INode.shape.findChild n k = some c from hc]; rfl
    · rintro ⟨-, h⟩
      obtain ⟨b, hb⟩ := Option.isSome_iff_exists.1 h
      obtain ⟨n, hw, hn⟩ := Option.bind_eq_some_iff.1 hb
      rw [Shape.walk_cons] at hn
      obtain ⟨c, hc, -⟩ := Option.bind_eq_some_iff.1 hn
      have := hrem n
      rw [show n.findChild k = some c from hc] at this
      obtain ⟨n', hn'⟩ := Option.isSome_iff_exists.1 this
      obtain ⟨t', ht'⟩ := Shape.alter_eq_some p hw hn'
      rw [ht']; rfl

/-- Appending a block keeps the invariant, when the path is a file or absent. -/
theorem pushBlockAt_ok (ht : INode.shape.Every NodeOk t) (hf : IsFile t parts) (id : Int64) :
    INode.shape.Every NodeOk (pushBlockAt t parts id) := by
  obtain ⟨bl, hb⟩ := hf
  obtain ⟨n, hw, hent⟩ := Option.map_eq_some_iff.1 hb
  have htype : n.type = .kFile := congrArg Entry.type hent
  -- only the file at `parts` is rewritten, so rewrite nothing else
  let f : INode → Option INode := fun m => if m.type = .kFile then some (m.pushBlock id) else none
  have hcongr : INode.shape.alter (fun m => some (m.pushBlock id)) t parts = INode.shape.alter f t parts :=
    Shape.alter_congr parts hw (by simp [f, htype])
  obtain ⟨t', ht'⟩ := Shape.alter_eq_some (f := f) parts hw (by simp [f, htype]; rfl)
  unfold pushBlockAt
  rw [hcongr, ht', Option.getD_some]
  refine ht.alter (fun a c v k hP hc hv => hP.setChild hc hv) ?_ ?_ parts ht'
  · intro m m' hm
    simp only [f] at hm
    split at hm
    · cases hm; rfl
    · cases hm
  · intro m m' hm hm'
    simp only [f] at hm'
    split at hm'
    · rename_i hmt
      cases hm'
      refine Shape.Every.intro ⟨hm.self.nodup, hm.self.names, hm.self.file, fun hd => ?_⟩
        fun k c hc => hm.child hc
      rw [show (m.pushBlock id).type = m.type from rfl, hmt] at hd; cases hd
    · cases hm'

theorem pushBlockAt_meta (t : INode) (parts : List Bytes) (id : Int64) :
    (pushBlockAt t parts id).name = t.name ∧ (pushBlockAt t parts id).type = t.type := by
  unfold pushBlockAt
  cases h : INode.shape.alter (fun n => some (n.pushBlock id)) t parts with
  | none => exact ⟨rfl, rfl⟩
  | some t' =>
    refine alter_meta (fun n n' hn => ?_) h
    cases hn; exact ⟨rfl, rfl⟩

/-- Appending a block changes the entry of its path only. -/
theorem entryAt_pushBlockAt (t : INode) (parts : List Bytes) (id : Int64) (c : List Bytes) :
    entryAt (pushBlockAt t parts id) c =
      if c = parts then (entryAt t parts).map fun e => ⟨e.type, e.blocks ++ [id]⟩ else entryAt t c := by
  unfold pushBlockAt
  cases h : INode.shape.alter (fun n => some (n.pushBlock id)) t parts with
  | none =>
    have hnone : entryAt t parts = none := by
      unfold entryAt
      cases hw : INode.shape.walk t parts with
      | none => rfl
      | some n =>
        obtain ⟨t', ht'⟩ := Shape.alter_eq_some (f := fun n => some (n.pushBlock id)) parts hw rfl
        rw [h] at ht'; cases ht'
    simp only [Option.getD_none]
    split
    · rename_i hc; rw [hc, hnone]; rfl
    · rfl
  | some t' =>
    obtain ⟨n, -, hw, -⟩ := Shape.walk_of_alter parts h
    rw [Option.getD_some]
    refine (Shape.walk_alter_update entry_setChild (g := INode.pushBlock id) (fun _ => rfl) (fun _ => rfl) hw h
      c).trans ?_
    rw [entryAt, hw]; rfl

end Delete

/-! ## The operations on a well-formed tree -/

section Tree

variable {t t' : INode}

theorem TreeOk.mkdirsFrom (h : TreeOk t) {parts : List Bytes} (hp : ∀ p ∈ parts, Component p) :
    TreeOk (mkdirsFrom t parts).1 := by
  obtain ⟨h1, h2, -⟩ := mkdirsFrom_meta parts t
  exact ⟨h2.trans h.rootType, h1.trans h.rootName, mkdirsFrom_ok h.nodes h.rootType hp⟩

theorem TreeOk.mkdirs (h : TreeOk t) (path : Bytes) : TreeOk (mkdirs t path).1 :=
  h.mkdirsFrom fun _ hp => component_of_mem_splitPath hp

theorem TreeOk.createFile (h : TreeOk t) {path : Bytes} (hc : createFile t path = some t') : TreeOk t' := by
  have := createFrom_ok h.nodes h.rootType (fun _ hp => component_of_mem_splitPath hp) hc
  exact ⟨this.2, (createFrom_name hc).trans h.rootName, this.1⟩

theorem TreeOk.delete (h : TreeOk t) {path : Bytes} (hd : delete t path = some t') : TreeOk t' := by
  obtain ⟨h1, h2⟩ := deleteFrom_meta hd
  exact ⟨h2.trans h.rootType, h1.trans h.rootName, deleteFrom_ok h.nodes hd⟩

theorem TreeOk.pushBlockAt (h : TreeOk t) {parts : List Bytes} (hf : IsFile t parts) (id : Int64) :
    TreeOk (pushBlockAt t parts id) := by
  obtain ⟨h1, h2⟩ := pushBlockAt_meta t parts id
  exact ⟨h2.trans h.rootType, h1.trans h.rootName, pushBlockAt_ok h.nodes hf id⟩

/-- `Delete` as a statement, its answer not looked at. -/
theorem TreeOk.delete_getD (h : TreeOk t) (path : Bytes) : TreeOk ((Ndfs.delete t path).getD t) := by
  cases hd : Ndfs.delete t path with
  | none => exact h
  | some t' => exact h.delete hd

/-- After `Delete` what was at the path and below it is gone, except that the root stays. -/
theorem entryAt_delete_getD (h : TreeOk t) (path : Bytes) (c : List Bytes) :
    entryAt ((Ndfs.delete t path).getD t) c =
      if splitPath path ≠ [] ∧ splitPath path <+: c then none else entryAt t c := by
  cases hd : Ndfs.delete t path with
  | none =>
    rw [Option.getD_none]
    split
    · rename_i hc
      refine entryAt_below_none hc.2 (Option.not_isSome_iff_eq_none.1 fun hsome => ?_)
      have := deleteFrom_isSome.2 ⟨hc.1, hsome⟩
      rw [show deleteFrom t (splitPath path) = none from hd] at this; cases this
    · rfl
  | some t' =>
    have hne : splitPath path ≠ [] := (deleteFrom_isSome.1 (show (deleteFrom t (splitPath path)).isSome by
      rw [show deleteFrom t (splitPath path) = some t' from hd]; rfl)).1
    simp only [hne, ne_eq, not_false_eq_true, true_and, Option.getD_some]
    exact entryAt_deleteFrom h.nodes hd c

/-- `Mkdirs` leaves the paths that are no prefix of its own alone, also when it fails. -/
theorem entryAt_mkdirsFrom_other (h : TreeOk t) {dirs c : List Bytes} (hc : ¬ c <+: dirs) :
    entryAt (Ndfs.mkdirsFrom t dirs).1 c = entryAt t c := by
  by_cases hno : NoFileOn t dirs
  · rw [entryAt_mkdirsFrom hno h.rootType, if_neg fun hp => hc hp.1]
  · rw [mkdirsFrom_false (Bool.eq_false_iff.2 fun hm => hno ((mkdirsFrom_true h.rootType).1 hm))]

/-- `Mkdirs` makes no file and removes none. -/
theorem file_mkdirsFrom (h : TreeOk t) {dirs c : List Bytes} {bl : List Int64} :
    entryAt (Ndfs.mkdirsFrom t dirs).1 c = some ⟨.kFile, bl⟩ ↔ entryAt t c = some ⟨.kFile, bl⟩ := by
  by_cases hno : NoFileOn t dirs
  · rw [entryAt_mkdirsFrom hno h.rootType]
    constructor
    · intro he
      split at he
      · cases he
      · exact he
    · intro he
      rw [if_neg, he]
      rintro ⟨-, hnone⟩
      rw [he] at hnone; cases hnone
  · rw [mkdirsFrom_false (Bool.eq_false_iff.2 fun hm => hno ((mkdirsFrom_true h.rootType).1 hm))]

/-- The directory `Mkdirs` was asked for is there afterwards, unless a file was in the way. -/
theorem isDir_mkdirsFrom (h : TreeOk t) {dirs : List Bytes} :
    IsDir (Ndfs.mkdirsFrom t dirs).1 dirs ↔ NoFileOn t dirs := by
  constructor
  · intro hd
    by_contra hno
    rw [mkdirsFrom_false (Bool.eq_false_iff.2 fun hm => hno ((mkdirsFrom_true h.rootType).1 hm))] at hd
    exact hno (noFileOn_of_isDir h.nodes hd)
  · intro hno
    have he := entryAt_mkdirsFrom hno h.rootType dirs
    split at he
    · exact ⟨[], he⟩
    · rename_i hn
      obtain ⟨e, hent⟩ : ∃ e, entryAt t dirs = some e :=
        Option.ne_none_iff_exists'.1 fun hnone => hn ⟨List.prefix_refl _, hnone⟩
      obtain ⟨bl, hb⟩ := (isFile_or_isDir hent).resolve_left (hno dirs (List.prefix_refl _))
      exact ⟨bl, he.trans hb⟩

/-- `CreateFile` after `Mkdirs` of its parent succeeds exactly when no file is on the parent's path and
the name is free. -/
theorem createFrom_mkdirsFrom_isSome (h : TreeOk t) {dirs : List Bytes} (hp : ∀ p ∈ dirs, Component p)
    (name : Bytes) : (createFrom (Ndfs.mkdirsFrom t dirs).1 (dirs ++ [name])).isSome ↔
      NoFileOn t dirs ∧ entryAt t (dirs ++ [name]) = none := by
  have hok := h.mkdirsFrom hp
  rw [createFrom_isSome hok.nodes hok.rootType, List.dropLast_concat, isDir_mkdirsFrom h,
    entryAt_mkdirsFrom_other h (not_concat_isPrefix dirs name)]
  constructor
  · rintro ⟨-, h1, h2⟩; exact ⟨h2, h1⟩
  · rintro ⟨h1, h2⟩; exact ⟨by simp, h2, h1⟩

/-- `CreateFile` never succeeds on a prefix of the directories `Mkdirs` was just asked for. -/
theorem createFrom_mkdirsFrom_above (h : TreeOk t) {dirs parts : List Bytes} (hp : ∀ p ∈ dirs, Component p)
    (hpre : parts <+: dirs) : createFrom (Ndfs.mkdirsFrom t dirs).1 parts = none := by
  have hok := h.mkdirsFrom hp
  by_contra hsome
  obtain ⟨hne, hn, hdir⟩ := (createFrom_isSome hok.nodes hok.rootType).1 (Option.isSome_iff_ne_none.2 hsome)
  by_cases hno : NoFileOn t dirs
  · rw [entryAt_mkdirsFrom hno h.rootType] at hn
    split at hn
    · cases hn
    · rename_i hcond; exact hcond ⟨hpre, hn⟩
  · have hfail := mkdirsFrom_false (Bool.eq_false_iff.2 fun hm => hno ((mkdirsFrom_true h.rootType).1 hm))
    rw [hfail] at hn hdir
    refine hno fun d hd hf => ?_
    rcases List.prefix_or_prefix_of_prefix hd hpre with hdp | hpd
    · -- the file is the parent of `parts` or above it, but that is a directory
      have hdp' : d <+: parts.dropLast := by
        have hlast := List.dropLast_append_getLast hne
        rw [← hlast] at hdp
        refine (List.prefix_concat_iff.1 hdp).resolve_left fun heq => ?_
        obtain ⟨bl, hb⟩ := hf
        rw [heq, hlast, hn] at hb; cases hb
      exact noFileOn_of_isDir h.nodes hdir d hdp' hf
    · obtain ⟨bl, hb⟩ := hf
      have := entryAt_isSome_above hpd (by rw [hb]; rfl)
      rw [hn] at this; cases this

end Tree

end MiniHadoop.Ndfs

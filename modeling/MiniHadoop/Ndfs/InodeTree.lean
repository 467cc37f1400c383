/-
The NameNode's inode tree (`ndfs/inode_tree.h`): directories and files with their block ids, addressed
by slash-separated paths. A node's modification time and parent pointer are set by the source and read
by nothing, so they are left out. A node pointer the source keeps after a call is the component list
that leads to it.
-/
import MiniHadoop.Base.Forest
import MiniHadoop.Base.Decimal

namespace MiniHadoop.Ndfs

open Text Forest

/-! ## Nodes -/

inductive INodeType where
  | kDirectory
  | kFile
  deriving DecidableEq, Repr

/-- `struct INode`. Both kinds have all fields; that files have no children and directories no blocks
is an invariant (`NodeOk`), not part of the type. -/
inductive INode where
  | mk (type : INodeType) (name : Bytes) (blocks : List Int64) (children : List INode)
  deriving Repr

namespace INode

def type : INode → INodeType
  | mk t _ _ _ => t

def name : INode → Bytes
  | mk _ n _ _ => n

/-- Block ids, for files. -/
def blocks : INode → List Int64
  | mk _ _ b _ => b

/-- Children in insertion order, for directories. -/
def children : INode → List INode
  | mk _ _ _ c => c

def withChildren (n : INode) (c : List INode) : INode := mk n.type n.name n.blocks c

/-- `n->blocks.push_back(id)`. -/
def pushBlock (id : Int64) (n : INode) : INode := mk n.type n.name (n.blocks ++ [id]) n.children

/-- `INode(t, n)`. -/
def new (t : INodeType) (n : Bytes) : INode := mk t n [] []

/-- How the tree library sees a node: found by name among its parent's children. -/
def shape : Shape INode Bytes where
  key := name
  children := children
  withChildren := withChildren
  children_with _ _ := rfl
  key_with _ _ := rfl
  with_self a := by cases a; rfl
  with_with _ _ _ := rfl

/-- `FindChild(parent, name)`. -/
def findChild (parent : INode) (name : Bytes) : Option INode := shape.findChild parent name

/-- `parent->children.push_back(child)`. -/
def pushChild (parent child : INode) : INode := shape.push parent child

/-- `RemoveChild(parent, name)`: `none` when it returns false. -/
def removeChild (name : Bytes) (parent : INode) : Option INode :=
  (remove INode.name name parent.children).map parent.withChildren

end INode

/-! ## Paths -/

/-- The path separator. -/
def slash : UInt8 := 47

/-- The scan of `SplitPath`, with the component read so far: a component ends at a slash or at the
end of the path, and empty ones are dropped. -/
def splitLoop : Bytes → Bytes → List Bytes
  | current, [] => if current = [] then [] else [current]
  | current, c :: rest =>
    if c = slash then
      if current = [] then splitLoop [] rest else current :: splitLoop [] rest
    else splitLoop (current ++ [c]) rest

/-- `SplitPath(path)`. -/
def splitPath (path : Bytes) : List Bytes :=
  if path = [] ∨ path = [slash] then []
  else if path.head? = some slash then splitLoop [] path.tail
  else splitLoop [] path

/-! ## Operations -/

/-- `InodeTree()`: a root directory with the empty name. -/
def emptyTree : INode := INode.new .kDirectory []

/-- `GetNode(path)`. -/
def getNode (root : INode) (path : Bytes) : Option INode := INode.shape.walk root (splitPath path)

/-- The loop of `Mkdirs` from the node `cur`: the node with the directories of `parts` below it, and
whether the end was reached (`false` where the source returns `nullptr`). -/
def mkdirsFrom : INode → List Bytes → INode × Bool
  | cur, [] => (cur, true)
  | cur, part :: parts =>
    match cur.findChild part with
    | none =>
      let r := mkdirsFrom (INode.new .kDirectory part) parts
      (cur.pushChild r.1, r.2)
    | some child =>
      if child.type = .kDirectory then
        let r := mkdirsFrom child parts
        (INode.shape.setChild cur part r.1, r.2)
      else (cur, false)

/-- `Mkdirs(path)`. -/
def mkdirs (root : INode) (path : Bytes) : INode × Bool := mkdirsFrom root (splitPath path)

/-- The descent of `CreateFile` from the directory `parent`; the last component is the new file's
name. `none` where the source returns `nullptr`, which leaves the tree as it was. -/
def createFrom : INode → List Bytes → Option INode
  | _, [] => none
  | parent, [filename] =>
    match parent.findChild filename with
    | some _ => none
    | none => some (parent.pushChild (INode.new .kFile filename))
  | parent, part :: parts =>
    match parent.findChild part with
    | none => none
    | some child =>
      if child.type ≠ .kDirectory then none
      else (createFrom child parts).map (INode.shape.setChild parent part)

/-- `CreateFile(path)`. The pointer it returns leads to the components of `path`. -/
def createFile (root : INode) (path : Bytes) : Option INode := createFrom root (splitPath path)

/-- `Delete` on components: the parent is reached without type checks. -/
def deleteFrom (root : INode) (parts : List Bytes) : Option INode :=
  match parts.getLast? with
  | none => none
  | some last => INode.shape.alter (INode.removeChild last) root parts.dropLast

/-- `Delete(path)`; `none` where it returns false, which leaves the tree as it was. -/
def delete (root : INode) (path : Bytes) : Option INode := deleteFrom root (splitPath path)

/-- `ListDir(path)`. -/
def listDir (root : INode) (path : Bytes) : List INode :=
  match getNode root path with
  | none => []
  | some node => if node.type ≠ .kDirectory then [] else node.children

/-- `node->blocks.push_back(id)` through a pointer to the node at `parts`. -/
def pushBlockAt (root : INode) (parts : List Bytes) (id : Int64) : INode :=
  (INode.shape.alter (fun n => some (n.pushBlock id)) root parts).getD root

/-! ## Components of a path -/

theorem splitLoop_eq : ∀ (s cur : Bytes), splitLoop cur s = (getlinesFrom slash cur s).filter (· ≠ [])
  | [], cur => by
    by_cases h : cur = [] <;> simp [splitLoop, getlinesFrom, h]
  | c :: s, cur => by
    simp only [splitLoop, getlinesFrom]
    split
    · rw [List.filter_cons]
      by_cases h : cur = []
      · simp [h, splitLoop_eq s []]
      · simp [h, splitLoop_eq s []]
    · exact splitLoop_eq s _

/-- The components of a path are its non-empty slash-free runs. -/
theorem splitPath_eq (path : Bytes) : splitPath path = (getlines slash path).filter (· ≠ []) := by
  unfold splitPath
  split
  · rename_i h
    rcases h with rfl | rfl <;> decide
  · split
    · rename_i h
      obtain ⟨b, rest, rfl⟩ : ∃ b rest, path = b :: rest := by
        cases path with
        | nil => cases h
        | cons b rest => exact ⟨b, rest, rfl⟩
      cases h
      simp [splitLoop_eq, getlines, getlinesFrom]
    · exact splitLoop_eq _ _

theorem splitPath_nil : splitPath [] = [] := by decide

/-- A component is not empty and has no slash. -/
def Component (part : Bytes) : Prop := part ≠ [] ∧ slash ∉ part

theorem component_of_mem_splitPath {path part : Bytes} (h : part ∈ splitPath path) : Component part := by
  rw [splitPath_eq, List.mem_filter] at h
  exact ⟨by simpa using h.2, not_mem_of_mem_getlines h.1⟩

theorem splitPath_append (x y : Bytes) : splitPath (x ++ slash :: y) = splitPath x ++ splitPath y := by
  simp only [splitPath_eq, getlines]
  rw [getlinesFrom_split, List.filter_append, getlinesFrom_filter_delim]
  rfl

theorem splitPath_component {part : Bytes} (h : Component part) : splitPath part = [part] := by
  rw [splitPath_eq, getlines_last h.2 h.1]
  simp [h.1]

/-- The text `SerializeNode` and clients write for components: each after a slash. -/
def joinPath : List Bytes → Bytes
  | [] => []
  | part :: parts => slash :: part ++ joinPath parts

theorem joinPath_append (p q : List Bytes) : joinPath (p ++ q) = joinPath p ++ joinPath q := by
  induction p with
  | nil => rfl
  | cons a p ih => simp [joinPath, ih]

theorem splitPath_joinPath_append {parts : List Bytes} (h : ∀ p ∈ parts, Component p) :
    ∀ x : Bytes, splitPath (x ++ joinPath parts) = splitPath x ++ parts := by
  induction parts with
  | nil => intro x; simp [joinPath]
  | cons part parts ih =>
    intro x
    have hp := h part (List.mem_cons_self ..)
    have ih := ih (fun p hp => h p (List.mem_cons_of_mem _ hp)) (x ++ slash :: part)
    simp only [joinPath, List.append_assoc, List.cons_append] at ih ⊢
    rw [ih, splitPath_append, splitPath_component hp]
    simp

/-- Splitting a joined path gives the components back. -/
theorem splitPath_joinPath {parts : List Bytes} (h : ∀ p ∈ parts, Component p) :
    splitPath (joinPath parts) = parts := by
  have := splitPath_joinPath_append h []
  rwa [List.nil_append, splitPath_nil, List.nil_append] at this

example : splitPath (bytes "//a/bc//d/") = [bytes "a", bytes "bc", bytes "d"] := by decide

end MiniHadoop.Ndfs

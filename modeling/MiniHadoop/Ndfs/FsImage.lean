/-
The namespace image (`ndfs/fsimage.h`): `Save` writes one text line per node in pre-order, `Load`
replays the lines of such a text through `Mkdirs` and `CreateFile`. The load stops with the exception
of `std::stoll` when a block id does not parse; the tree built so far is returned with it.
-/
import MiniHadoop.Ndfs.TreeMap

namespace MiniHadoop.Ndfs

open Text Forest

def newline : UInt8 := 10
def comma : UInt8 := 44
def hash : UInt8 := 35

/-- `GetParentDir(path)`, the same function in `FsImage` and in `FsNamesystem`. -/
def getParentDir (path : Bytes) : Bytes :=
  match rfind slash path with
  | none => [slash]
  | some 0 => [slash]
  | some pos => path.take pos

/-! ## Save -/

/-- The block ids of a file line, separated by commas. -/
def idList : List Int64 → Bytes
  | [] => []
  | [id] => toStr id
  | id :: ids => toStr id ++ comma :: idList ids

mutual

/-- `SerializeNode(f, node, prefix)`: the text of the node's descendants. -/
def serializeNode (path : Bytes) : INode → Bytes
  | .mk _ _ _ children => serializeChildren path children

/-- The loop of `SerializeNode` over the children. -/
def serializeChildren (path : Bytes) : List INode → Bytes
  | [] => []
  | child :: rest =>
    let fullPath := path ++ slash :: child.name
    (if child.type = .kDirectory then
      bytes "DIR " ++ fullPath ++ newline :: serializeNode fullPath child
    else
      bytes "FILE " ++ fullPath ++ bytes " blocks=" ++ idList child.blocks ++ [newline]) ++
      serializeChildren path rest

end

/-- The text `Save` writes. -/
def save (root : INode) : Bytes := bytes "# mini-hadoop FsImage v1\n" ++ serializeNode [] root

/-! ## Load -/

/-- What one line of an image asks for: nothing, a directory, or a file with its block token. -/
inductive Line where
  | skip
  | dir (path : Bytes)
  | file (path blocksToken : Bytes)
  deriving DecidableEq, Repr

/-- The words the loop of `Load` extracts from a line. -/
def parseLine (line : Bytes) : Line :=
  if line = [] ∨ line.head? = some hash then .skip
  else
    let type := token line
    if type.1 = bytes "DIR" then .dir (token type.2).1
    else if type.1 = bytes "FILE" then
      let filepath := token type.2
      .file filepath.1 (token filepath.2).1
    else .skip

/-- The comma loop over the id texts, pushing onto the blocks of the node at `parts`. -/
def pushIds (parts : List Bytes) : INode → List Bytes → INode × Option StollError
  | t, [] => (t, none)
  | t, bid :: rest =>
    if bid = [] then pushIds parts t rest
    else match stoll bid with
      | .error e => (t, some e)
      | .ok id => pushIds parts (pushBlockAt t parts id) rest

/-- The id texts of a block token; a token without the `blocks=` mark has none. -/
def idTexts (blocksToken : Bytes) : List Bytes :=
  if bytes "blocks=" <+: blocksToken then getlines comma (blocksToken.drop 7) else []

/-- The body of the loop of `Load`. -/
def applyLine (t : INode) : Line → INode × Option StollError
  | .skip => (t, none)
  | .dir dirpath => if dirpath ≠ [] ∧ dirpath ≠ [slash] then ((mkdirs t dirpath).1, none) else (t, none)
  | .file filepath blocksToken =>
    let parent := getParentDir filepath
    let t1 := if parent ≠ [slash] then (mkdirs t parent).1 else t
    match createFile t1 filepath with
    | none => (t1, none)
    | some t2 => pushIds (splitPath filepath) t2 (idTexts blocksToken)

/-- The lines in order, up to the first exception. -/
def applyLines (t : INode) : List Line → INode × Option StollError
  | [] => (t, none)
  | line :: rest =>
    match applyLine t line with
    | (t', none) => applyLines t' rest
    | (t', some e) => (t', some e)

/-- The lines of an image text after its header. -/
def imageLines (text : Bytes) : List Line := (getlines newline text).tail.map parseLine

/-- `Load` of an image text into `t`. -/
def load (t : INode) (text : Bytes) : INode × Option StollError := applyLines t (imageLines text)

/-! ## The lines of a saved tree -/

/-- The lines that a text written as one line is read back as: a newline in it breaks it. -/
def readBack (text : Bytes) : List Line := (getlines newline (text ++ [newline])).map parseLine

theorem readBack_append (text rest : Bytes) :
    (getlines newline (text ++ newline :: rest)).map parseLine =
      readBack text ++ (getlines newline rest).map parseLine := by
  rw [readBack, ← List.map_append]
  exact congrArg _ (getlinesFrom_split rest text [])

mutual

/-- The lines the loader reads for the descendants of a node at `path`. -/
def nodeLines (path : Bytes) : INode → List Line
  | .mk _ _ _ children => childLines path children

/-- The lines for the children of a node at `path`. -/
def childLines (path : Bytes) : List INode → List Line
  | [] => []
  | child :: rest =>
    let fullPath := path ++ slash :: child.name
    (if child.type = .kDirectory then readBack (bytes "DIR " ++ fullPath) ++ nodeLines fullPath child
    else readBack (bytes "FILE " ++ fullPath ++ bytes " blocks=" ++ idList child.blocks)) ++ childLines path rest

end

mutual

theorem getlines_serializeNode (path rest : Bytes) : ∀ n : INode,
    (getlines newline (serializeNode path n ++ rest)).map parseLine =
      nodeLines path n ++ (getlines newline rest).map parseLine
  | .mk _ _ _ children => by
    rw [serializeNode, nodeLines]
    exact getlines_serializeChildren path rest children

theorem getlines_serializeChildren (path rest : Bytes) : ∀ cs : List INode,
    (getlines newline (serializeChildren path cs ++ rest)).map parseLine =
      childLines path cs ++ (getlines newline rest).map parseLine
  | [] => rfl
  | child :: cs => by
    have hcs := getlines_serializeChildren path rest cs
    have hchild := getlines_serializeNode (path ++ slash :: child.name) (serializeChildren path cs ++ rest) child
    rw [serializeChildren, childLines]
    by_cases hd : child.type = .kDirectory
    · simp only [hd, if_true]
      have e : bytes "DIR " ++ (path ++ slash :: child.name) ++
            newline :: serializeNode (path ++ slash :: child.name) child ++ serializeChildren path cs ++ rest =
          (bytes "DIR " ++ (path ++ slash :: child.name)) ++
            newline :: (serializeNode (path ++ slash :: child.name) child ++ (serializeChildren path cs ++ rest)) := by
        simp
      rw [e, readBack_append, hchild, hcs]
      simp only [List.append_assoc]
    · simp only [hd, if_false]
      have e : bytes "FILE " ++ (path ++ slash :: child.name) ++ bytes " blocks=" ++ idList child.blocks ++ [newline] ++
            serializeChildren path cs ++ rest =
          (bytes "FILE " ++ (path ++ slash :: child.name) ++ bytes " blocks=" ++ idList child.blocks) ++
            newline :: (serializeChildren path cs ++ rest) := by
        simp
      rw [e, readBack_append, hcs]
      simp only [List.append_assoc]

end

/-- The lines a tree's own image holds. -/
def treeLines (t : INode) : List Line := nodeLines [] t

theorem imageLines_save (t : INode) : imageLines (save t) = treeLines t := by
  have hb : bytes "# mini-hadoop FsImage v1\n" = bytes "# mini-hadoop FsImage v1" ++ [newline] := by decide
  have h := getlines_serializeNode [] [] t
  rw [List.append_nil, getlines_nil, List.map_nil, List.append_nil] at h
  rw [imageLines, save, hb, List.append_assoc, List.singleton_append, getlines_append (by decide), List.tail_cons, h,
    treeLines]

/-! ## Parents -/

theorem getParentDir_append {x y : Bytes} (hx : x ≠ []) (hy : slash ∉ y) :
    getParentDir (x ++ slash :: y) = x := by
  unfold getParentDir
  rw [rfind_append hy]
  cases hlen : x.length with
  | zero => exact absurd (List.length_eq_zero_iff.1 hlen) hx
  | succ n =>
    show (x ++ slash :: y).take (n + 1) = x
    rw [← hlen, List.take_left]

theorem getParentDir_top {y : Bytes} (hy : slash ∉ y) : getParentDir (slash :: y) = [slash] := by
  unfold getParentDir
  rw [show slash :: y = [] ++ slash :: y from rfl, rfind_append hy]; rfl

theorem getParentDir_bare {y : Bytes} (hy : slash ∉ y) : getParentDir y = [slash] := by
  unfold getParentDir
  rw [rfind_none hy]

theorem splitPath_slash : splitPath [slash] = [] := by decide

/-- A path that does not end in a slash has a last component, and its parent's components are the
others. -/
theorem splitPath_getParentDir {path : Bytes} (hne : path ≠ []) (hlast : path.getLast? ≠ some slash) :
    ∃ name, splitPath path = splitPath (getParentDir path) ++ [name] := by
  by_cases hs : slash ∈ path
  · obtain ⟨x, y, rfl, hy⟩ := exists_last_split hs
    have hyne : y ≠ [] := by
      rintro rfl; simp at hlast
    have hcomp : splitPath y = [y] := splitPath_component ⟨hyne, hy⟩
    by_cases hx : x = []
    · subst hx
      refine ⟨y, ?_⟩
      rw [List.nil_append, getParentDir_top hy, show slash :: y = [] ++ slash :: y from rfl,
        splitPath_append, splitPath_slash, splitPath_nil, hcomp]
    · exact ⟨y, by rw [getParentDir_append hx hy, splitPath_append, hcomp]⟩
  · refine ⟨path, ?_⟩
    rw [getParentDir_bare hs, splitPath_slash, splitPath_component ⟨hne, hs⟩]; rfl

/-- A path that ends in a slash has the components of its parent. -/
theorem splitPath_getParentDir_slash {path : Bytes} (hlast : path.getLast? = some slash) :
    splitPath (getParentDir path) = splitPath path := by
  obtain ⟨x, rfl⟩ : ∃ x, path = x ++ [slash] := by
    rw [List.getLast?_eq_some_iff] at hlast; exact hlast
  rw [show x ++ [slash] = x ++ slash :: [] from rfl, splitPath_append, splitPath_nil, List.append_nil]
  by_cases hx : x = []
  · subst hx; decide
  · rw [getParentDir_append hx (by simp)]

/-- `Mkdirs` of the root or of the empty path does nothing, so the guards of `Load` around it change
nothing. -/
theorem mkdirs_of_splitPath_nil {t : INode} {path : Bytes} (h : splitPath path = []) :
    mkdirs t path = (t, true) := by
  rw [mkdirs, h]; rfl

theorem applyLine_dir (t : INode) (path : Bytes) : applyLine t (.dir path) = ((mkdirs t path).1, none) := by
  rw [applyLine]
  split
  · rfl
  · rename_i h
    have : splitPath path = [] := by
      by_cases h1 : path = []
      · rw [h1]; exact splitPath_nil
      · rw [not_and_or, not_not, not_not] at h
        rw [h.resolve_left h1]; exact splitPath_slash
    rw [mkdirs_of_splitPath_nil this]

theorem applyLine_file (t : INode) (path blocksToken : Bytes) :
    applyLine t (.file path blocksToken) =
      match createFile (mkdirs t (getParentDir path)).1 path with
      | none => ((mkdirs t (getParentDir path)).1, none)
      | some t2 => pushIds (splitPath path) t2 (idTexts blocksToken) := by
  rw [applyLine]
  by_cases h : getParentDir path = [slash]
  · simp only [h, ne_eq, not_true_eq_false, if_false, mkdirs_of_splitPath_nil splitPath_slash]
  · simp only [h, ne_eq, not_false_eq_true, if_true]

/-! ## The invariant -/

theorem pushIds_ok {parts : List Bytes} : ∀ (bids : List Bytes) {t : INode}, TreeOk t → IsFile t parts →
    TreeOk (pushIds parts t bids).1
  | [], _, h, _ => h
  | bid :: bids, t, h, hf => by
    rw [pushIds]
    split
    · exact pushIds_ok bids h hf
    · split
      · exact h
      · rename_i id _
        refine pushIds_ok bids (h.pushBlockAt hf id) ?_
        obtain ⟨bl, hb⟩ := hf
        exact ⟨bl ++ [id], by rw [entryAt_pushBlockAt, if_pos rfl, hb]; rfl⟩

/-- Every line keeps the tree well formed, whatever its text. -/
theorem TreeOk.applyLine {t : INode} (h : TreeOk t) (line : Line) : TreeOk (applyLine t line).1 := by
  cases line with
  | skip => exact h
  | dir path => rw [applyLine_dir]; exact h.mkdirs path
  | file path blocksToken =>
    rw [applyLine_file]
    have h1 := h.mkdirs (getParentDir path)
    split
    · exact h1
    · rename_i t2 hc
      refine pushIds_ok _ (h1.createFile hc) ⟨[], ?_⟩
      rw [entryAt_createFrom hc, if_pos rfl]

theorem TreeOk.applyLines {t : INode} (h : TreeOk t) (lines : List Line) : TreeOk (applyLines t lines).1 := by
  induction lines generalizing t with
  | nil => exact h
  | cons line lines ih =>
    have h1 := h.applyLine line
    rw [Ndfs.applyLines]
    rcases hl : Ndfs.applyLine t line with ⟨t', e | e⟩
    · rw [hl] at h1; exact ih h1
    · rw [hl] at h1; exact h1

/-- Loading any text, also one that raises, leaves a well-formed tree. -/
theorem TreeOk.load {t : INode} (h : TreeOk t) (text : Bytes) : TreeOk (load t text).1 := h.applyLines _

example : load emptyTree (save (mkdirs emptyTree (bytes "/a/b")).1) = ((mkdirs emptyTree (bytes "/a/b")).1, none) :=
  rfl

end MiniHadoop.Ndfs

/-
The image of a tree whose names hold no white space loads back to the same tree: same names, kinds,
child order and block lists. The proof follows the pre-order walk: with the tree loaded so far equal
to the saved one up to a node's first children, the text of the next children appends exactly them.
-/
import MiniHadoop.Ndfs.FsImage

namespace MiniHadoop.Ndfs

open Text Forest

/-! ## Replaying below an existing directory -/

section Below

variable {t n : INode} {p : List Bytes}

theorem mkdirsFrom_same (hno : NoFileOn t p) (hw : INode.shape.walk t p = some n) : (mkdirsFrom t p).1 = t := by
  have h := mkdirsFrom_append hno hw []
  rw [List.append_nil, Shape.alter_same p hw (by rfl)] at h
  exact (Option.some.inj h).symm

/-- `CreateFile` below an existing directory works at that directory. -/
theorem createFrom_append (hno : NoFileOn t p) (hw : INode.shape.walk t p = some n) (k : Bytes) :
    createFrom t (p ++ [k]) = INode.shape.alter (fun m => createFrom m [k]) t p := by
  induction p generalizing t with
  | nil => rfl
  | cons a p ih =>
    rw [Shape.walk_cons] at hw
    obtain ⟨c, hc, hw⟩ := Option.bind_eq_some_iff.1 hw
    have hcd : c.type = .kDirectory := child_isDir hno hc
    rw [Shape.alter, hc, List.cons_append, createFrom_cons (by simp), show t.findChild a = some c from hc]
    simp only [Option.bind_some, hcd, ne_eq, not_true_eq_false, if_false]
    rw [ih (hno.tail hc) hw]

end Below

/-! ## Block ids -/

theorem getlines_idList : ∀ ids : List Int64, getlines comma (idList ids) = ids.map toStr
  | [] => rfl
  | [id] => getlines_last (fun h => (of_mem_toStr h).2 rfl) (toStr_ne_nil id)
  | id :: id' :: ids => by
    have hc : comma ∉ toStr id := fun h => (of_mem_toStr h).2 rfl
    rw [idList, getlines_append hc, getlines_idList (id' :: ids)]
    · rfl
    · exact fun h => by cases h

theorem isSpace_idList : ∀ {ids : List Int64} {b : UInt8}, b ∈ idList ids → isSpace b = false
  | [], _, h => by cases h
  | [_], _, h => (of_mem_toStr h).1
  | id :: id' :: ids, b, h => by
    rw [idList] at h
    · rcases List.mem_append.1 h with h | h
      · exact (of_mem_toStr h).1
      · rcases List.mem_cons.1 h with rfl | h
        · decide
        · exact isSpace_idList h
    · exact fun h => by cases h

/-- A node with several blocks appended. -/
def INode.pushBlocks (ids : List Int64) (n : INode) : INode := .mk n.type n.name (n.blocks ++ ids) n.children

/-- The printed ids of a file load back as its blocks. -/
theorem pushIds_toStr {parts : List Bytes} : ∀ (ids : List Int64) {t : INode} {n : INode},
    INode.shape.walk t parts = some n →
      ∃ t', INode.shape.alter (fun m => some (m.pushBlocks ids)) t parts = some t' ∧
        pushIds parts t (ids.map toStr) = (t', none)
  | [], t, n, hw => by
    refine ⟨t, Shape.alter_same parts hw ?_, rfl⟩
    cases n; simp [INode.pushBlocks, INode.type, INode.name, INode.blocks, INode.children]
  | id :: ids, t, n, hw => by
    obtain ⟨t1, h1⟩ := Shape.alter_eq_some (f := fun m => some (m.pushBlock id)) parts hw rfl
    have hname : ∀ m m' : INode, some (m.pushBlock id) = some m' → INode.shape.key m' = INode.shape.key m := by
      intro m m' h; cases h; rfl
    have hw1 := Shape.walk_alter_same hname parts h1 hw
    obtain ⟨t', h2, h3⟩ := pushIds_toStr ids hw1
    refine ⟨t', ?_, ?_⟩
    · rw [Shape.alter_alter hname parts h1] at h2
      rw [← h2]
      apply Shape.alter_congr parts hw
      simp [INode.pushBlocks, INode.pushBlock, INode.type, INode.name, INode.blocks, INode.children]
    · have hpush : pushBlockAt t parts id = t1 := by rw [pushBlockAt, h1]; rfl
      simp only [List.map_cons, pushIds, if_neg (toStr_ne_nil id), stoll_toStr, hpush]
      exact h3

/-! ## Lines -/

/-- A node that prints on one line: its name is free of white space. -/
structure Printable (n : INode) : Prop extends NodeOk n where
  noSpace : ∀ b ∈ n.name, isSpace b = false

theorem isSpace_joinPath {p : List Bytes} (h : ∀ a ∈ p, ∀ b ∈ a, isSpace b = false) :
    ∀ b ∈ joinPath p, isSpace b = false := by
  induction p with
  | nil => intro b hb; cases hb
  | cons a p ih =>
    intro b hb
    simp only [joinPath, List.cons_append, List.mem_cons, List.mem_append] at hb
    rcases hb with rfl | hb | hb
    · decide
    · exact h a (List.mem_cons_self ..) b hb
    · exact ih (fun a ha => h a (List.mem_cons_of_mem _ ha)) b hb

theorem bytes_dir : bytes "DIR " = bytes "DIR" ++ [32] := by decide
theorem bytes_file : bytes "FILE " = bytes "FILE" ++ [32] := by decide
theorem bytes_blocks : bytes " blocks=" = 32 :: bytes "blocks=" := by decide
theorem isSpace_space : isSpace 32 = true := by decide
theorem isSpace_blocks : ∀ b ∈ bytes "blocks=", isSpace b = false := isSpace_of_all (by decide)

/-- The word after a space, with nothing or another space behind it. -/
theorem token_space_word {w rest : Bytes} (hne : w ≠ []) (hw : ∀ b ∈ w, isSpace b = false)
    (hr : ∀ b ∈ rest.head?, isSpace b = true) : token (32 :: (w ++ rest)) = (w, rest) := by
  rw [token_cons_space isSpace_space, token_word hne hw hr]

theorem parseLine_dir {w : Bytes} (hne : w ≠ []) (hw : ∀ b ∈ w, isSpace b = false) :
    parseLine (bytes "DIR " ++ w) = .dir w := by
  have h1 : token (bytes "DIR" ++ 32 :: w) = (bytes "DIR", 32 :: w) :=
    token_word (by decide) (isSpace_of_all (by decide)) (by simp [isSpace_space])
  have h2 : token (32 :: w) = (w, []) := by
    have := token_space_word hne hw (show ∀ b ∈ ([] : Bytes).head?, isSpace b = true by simp)
    rwa [List.append_nil] at this
  rw [bytes_dir, List.append_assoc, List.singleton_append]
  unfold parseLine
  rw [if_neg (by rintro (h | h) <;> cases h)]
  simp only [h1, h2, if_true]

theorem parseLine_file {w ids : Bytes} (hne : w ≠ []) (hw : ∀ b ∈ w, isSpace b = false)
    (hids : ∀ b ∈ ids, isSpace b = false) :
    parseLine (bytes "FILE " ++ w ++ bytes " blocks=" ++ ids) = .file w (bytes "blocks=" ++ ids) := by
  have e : bytes "FILE " ++ w ++ bytes " blocks=" ++ ids =
      bytes "FILE" ++ 32 :: (w ++ 32 :: (bytes "blocks=" ++ ids)) := by
    rw [bytes_file, bytes_blocks]; simp
  have h1 : token (bytes "FILE" ++ 32 :: (w ++ 32 :: (bytes "blocks=" ++ ids))) =
      (bytes "FILE", 32 :: (w ++ 32 :: (bytes "blocks=" ++ ids))) :=
    token_word (by decide) (isSpace_of_all (by decide)) (by simp [isSpace_space])
  have h2 : token (32 :: (w ++ 32 :: (bytes "blocks=" ++ ids))) = (w, 32 :: (bytes "blocks=" ++ ids)) :=
    token_space_word hne hw (by simp [isSpace_space])
  have h3 : token (32 :: (bytes "blocks=" ++ ids)) = (bytes "blocks=" ++ ids, []) := by
    have hb : ∀ b ∈ bytes "blocks=" ++ ids, isSpace b = false := by
      intro b hb
      rcases List.mem_append.1 hb with hb | hb
      · exact isSpace_blocks b hb
      · exact hids b hb
    have := token_space_word (by simp [bytes]) hb (show ∀ b ∈ ([] : Bytes).head?, isSpace b = true by simp)
    rwa [List.append_nil] at this
  have hne : bytes "FILE" ≠ bytes "DIR" := by decide
  rw [e]
  unfold parseLine
  rw [if_neg (by rintro (h | h) <;> cases h)]
  simp only [h1, h2, h3, hne, if_false, if_true]

/-! ## The pre-order walk -/

/-- A directory with more children at its end. -/
def grow (cs : List INode) (n : INode) : Option INode := some (n.withChildren (n.children ++ cs))

theorem grow_name (cs : List INode) (n n' : INode) (h : grow cs n = some n') :
    INode.shape.key n' = INode.shape.key n := by
  cases h; rfl

theorem joinPath_snoc (p : List Bytes) (k : Bytes) : joinPath (p ++ [k]) = joinPath p ++ slash :: k := by
  rw [joinPath_append]; simp [joinPath]

theorem findChild_grown {n c : INode} (hnew : n.findChild c.name = none) :
    INode.shape.findChild (n.withChildren (n.children ++ [c])) c.name = some c := by
  have h := Shape.findChild_push (S := INode.shape) n c c.name
  rw [show INode.shape.findChild n c.name = none from hnew, Option.none_or] at h
  exact h.trans (if_pos rfl)

theorem walk_grown {t t1 n c : INode} {p : List Bytes} (hw : INode.shape.walk t p = some n)
    (hnew : n.findChild c.name = none) (h1 : INode.shape.alter (grow [c]) t p = some t1) :
    INode.shape.walk t1 (p ++ [c.name]) = some c := by
  rw [Shape.walk_append, Shape.walk_alter_same (grow_name _) p h1 hw]
  show INode.shape.walk (n.withChildren (n.children ++ [c])) [c.name] = _
  rw [Shape.walk_cons, findChild_grown hnew]; rfl

/-- Adding a child and then rewriting it adds the rewritten child. -/
theorem alter_grown {t t1 t2 n c c' : INode} {p : List Bytes} {f : INode → Option INode}
    (hw : INode.shape.walk t p = some n) (hnew : n.findChild c.name = none)
    (h1 : INode.shape.alter (grow [c]) t p = some t1) (hf : f c = some c')
    (h2 : INode.shape.alter f t1 (p ++ [c.name]) = some t2) : INode.shape.alter (grow [c']) t p = some t2 := by
  rw [Shape.alter_append, Shape.alter_alter (grow_name _) p h1] at h2
  rw [← h2]
  refine Shape.alter_congr p hw ?_
  show _ = INode.shape.alter f (n.withChildren (n.children ++ [c])) [c.name]
  rw [Shape.alter, findChild_grown hnew]
  have hset : set INode.name c.name c' (n.children ++ [c]) = n.children ++ [c'] :=
    set_append_one rfl (find_eq_none.1 hnew)
  show grow [c'] n = (f c).map fun v => n.withChildren (set INode.name c.name v (n.children ++ [c]))
  rw [hf, Option.map_some, hset]; rfl

/-- The state of the replay at a directory: the tree is well formed and the directory is there. -/
structure At (t : INode) (p : List Bytes) (n : INode) : Prop where
  ok : TreeOk t
  walk : INode.shape.walk t p = some n
  isDir : n.type = .kDirectory
  names : ∀ a ∈ p, Component a ∧ ∀ b ∈ a, isSpace b = false

theorem At.noFileOn {t n : INode} {p : List Bytes} (h : At t p n) : NoFileOn t p :=
  noFileOn_of_isDir h.ok.nodes ⟨n.blocks, by
    unfold entryAt; rw [h.walk, Option.map_some, INode.entry, h.isDir]⟩

theorem At.splitPath {t n : INode} {p : List Bytes} (h : At t p n) : splitPath (joinPath p) = p :=
  splitPath_joinPath fun a ha => (h.names a ha).1

theorem At.names_snoc {t n : INode} {p : List Bytes} {k : Bytes} (h : At t p n)
    (hk : Component k ∧ ∀ b ∈ k, isSpace b = false) :
    ∀ a ∈ p ++ [k], Component a ∧ ∀ b ∈ a, isSpace b = false := by
  intro a ha
  rcases List.mem_append.1 ha with ha | ha
  · exact h.names a ha
  · rw [List.mem_singleton.1 ha]; exact hk

/-- The line of a directory appends it, empty, to its parent. -/
theorem At.applyLine_dir {t n : INode} {p : List Bytes} {k : Bytes} (h : At t p n)
    (hk : Component k ∧ ∀ b ∈ k, isSpace b = false) (hnew : n.findChild k = none) :
    ∃ t1, INode.shape.alter (grow [INode.new .kDirectory k]) t p = some t1 ∧
      applyLine t (.dir (joinPath (p ++ [k]))) = (t1, none) ∧
      At t1 (p ++ [k]) (INode.new .kDirectory k) := by
  have hsplit : Ndfs.splitPath (joinPath (p ++ [k])) = p ++ [k] :=
    splitPath_joinPath fun a ha => (h.names_snoc hk a ha).1
  have hmk : (mkdirsFrom n [k]).1 = n.pushChild (INode.new .kDirectory k) := by
    rw [mkdirsFrom_missing hnew]; rfl
  have halter := mkdirsFrom_append h.noFileOn h.walk [k]
  rw [hmk] at halter
  have hgrow : INode.shape.alter (grow [INode.new .kDirectory k]) t p = some (mkdirsFrom t (p ++ [k])).1 := by
    rw [← halter]
    exact Shape.alter_congr p h.walk rfl
  refine ⟨_, hgrow, by rw [Ndfs.applyLine_dir, mkdirs, hsplit], ?_, ?_, rfl, h.names_snoc hk⟩
  · have := h.ok.mkdirs (joinPath (p ++ [k]))
    rwa [mkdirs, hsplit] at this
  · exact walk_grown (c := INode.new .kDirectory k) h.walk hnew hgrow

/-- The line of a file appends it, with its blocks, to its parent. -/
theorem At.applyLine_file {t n : INode} {p : List Bytes} {k : Bytes} (h : At t p n)
    (hk : Component k ∧ ∀ b ∈ k, isSpace b = false) (hnew : n.findChild k = none) (ids : List Int64) :
    ∃ t1, INode.shape.alter (grow [.mk .kFile k ids []]) t p = some t1 ∧
      applyLine t (.file (joinPath (p ++ [k])) (bytes "blocks=" ++ idList ids)) = (t1, none) := by
  have hsplit : Ndfs.splitPath (joinPath (p ++ [k])) = p ++ [k] :=
    splitPath_joinPath fun a ha => (h.names_snoc hk a ha).1
  -- the parent exists, so `Mkdirs` of it changes nothing
  have hparent : (mkdirs t (getParentDir (joinPath (p ++ [k])))).1 = t := by
    rw [joinPath_snoc]
    by_cases hp : joinPath p = []
    · rw [hp, List.nil_append, getParentDir_top hk.1.2, mkdirs_of_splitPath_nil splitPath_slash]
    · rw [getParentDir_append hp hk.1.2, mkdirs, h.splitPath]
      exact mkdirsFrom_same h.noFileOn h.walk
  have hcreate : createFile t (joinPath (p ++ [k])) =
      INode.shape.alter (grow [INode.new .kFile k]) t p := by
    rw [createFile, hsplit, createFrom_append h.noFileOn h.walk]
    refine Shape.alter_congr p h.walk ?_
    rw [createFrom_one, hnew]; rfl
  obtain ⟨t1, h1⟩ := Shape.alter_eq_some (f := grow [INode.new .kFile k]) p h.walk rfl
  obtain ⟨t2, h2, h3⟩ := pushIds_toStr ids (walk_grown (c := INode.new .kFile k) h.walk hnew h1)
  refine ⟨t2, alter_grown (c := INode.new .kFile k) h.walk hnew h1 rfl h2, ?_⟩
  have htexts : idTexts (bytes "blocks=" ++ idList ids) = ids.map toStr := by
    rw [idTexts, if_pos (List.prefix_append _ _), ← getlines_idList]
    rfl
  rw [Ndfs.applyLine_file, hparent, hcreate, h1, hsplit, htexts]
  exact h3

theorem every_mem {P : INode → Prop} {n c : INode} (hP : ∀ m, P m → NodeOk m) (h : INode.shape.Every P n)
    (hc : c ∈ n.children) : INode.shape.Every P c :=
  h.child (k := c.name) (find_of_mem (hP n h.self).nodup hc)

theorem alter_grow_append {t t1 n : INode} {p : List Bytes} {cs ds : List INode}
    (hw : INode.shape.walk t p = some n) (h1 : INode.shape.alter (grow cs) t p = some t1) :
    INode.shape.alter (grow ds) t1 p = INode.shape.alter (grow (cs ++ ds)) t p := by
  rw [Shape.alter_alter (grow_name _) p h1]
  refine Shape.alter_congr p hw ?_
  show some ((n.withChildren (n.children ++ cs)).withChildren ((n.children ++ cs) ++ ds)) = grow (cs ++ ds) n
  rw [List.append_assoc]; rfl

/-- A printable line is read back as itself. -/
theorem readBack_dir {w : Bytes} (hne : w ≠ []) (hw : ∀ b ∈ w, isSpace b = false) :
    readBack (bytes "DIR " ++ w) = [.dir w] := by
  have hnl : newline ∉ bytes "DIR " ++ w := by
    intro hm
    rcases List.mem_append.1 hm with hm | hm
    · revert hm; decide
    · have := hw newline hm; revert this; decide
  rw [readBack, show (bytes "DIR " ++ w) ++ [newline] = (bytes "DIR " ++ w) ++ newline :: [] from rfl,
    getlines_append hnl, getlines_nil, List.map_singleton, parseLine_dir hne hw]

theorem readBack_file {w : Bytes} (hne : w ≠ []) (hw : ∀ b ∈ w, isSpace b = false) (ids : List Int64) :
    readBack (bytes "FILE " ++ w ++ bytes " blocks=" ++ idList ids) = [.file w (bytes "blocks=" ++ idList ids)] := by
  have hnl : newline ∉ bytes "FILE " ++ w ++ bytes " blocks=" ++ idList ids := by
    intro hm
    simp only [List.mem_append] at hm
    rcases hm with ((hm | hm) | hm) | hm
    · revert hm; decide
    · have := hw newline hm; revert this; decide
    · revert hm; decide
    · have := isSpace_idList hm; revert this; decide
  rw [readBack, show ∀ x : Bytes, x ++ [newline] = x ++ newline :: [] from fun _ => rfl, getlines_append hnl,
    getlines_nil, List.map_singleton, parseLine_file hne hw fun b hb => isSpace_idList hb]

/-- The lines of a directory's next children, in front of any others, append exactly them. -/
theorem applyLines_children (cs : List INode) {t n : INode} {p : List Bytes} (rest : List Line) (h : At t p n)
    (hcs : ∀ c ∈ cs, INode.shape.Every Printable c ∧ Component c.name)
    (hnd : ((n.children ++ cs).map INode.name).Nodup) :
    ∃ t', INode.shape.alter (grow cs) t p = some t' ∧ TreeOk t' ∧
      applyLines t (childLines (joinPath p) cs ++ rest) = applyLines t' rest := by
  match cs with
  | [] =>
    refine ⟨t, Shape.alter_same p h.walk ?_, h.ok, rfl⟩
    cases n; simp [grow, INode.withChildren, INode.type, INode.name, INode.blocks, INode.children]
  | .mk ty k bl ccs :: cs =>
    obtain ⟨hc, hkc⟩ := hcs _ (List.mem_cons_self ..)
    have hk : Component k ∧ ∀ b ∈ k, isSpace b = false := ⟨hkc, hc.self.noSpace⟩
    have hnew : n.findChild k = none := by
      refine find_eq_none.2 fun hm => ?_
      rw [List.map_append, List.map_cons] at hnd
      exact (List.nodup_append.1 hnd).2.2 k hm k (List.mem_cons_self ..) rfl
    have hrest : ∀ c ∈ cs, INode.shape.Every Printable c ∧ Component c.name :=
      fun c hc' => hcs c (List.mem_cons_of_mem _ hc')
    have hsp : ∀ b ∈ joinPath (p ++ [k]), isSpace b = false :=
      isSpace_joinPath fun a ha => (h.names_snoc hk a ha).2
    have hne : joinPath (p ++ [k]) ≠ [] := by rw [joinPath_snoc]; simp
    -- the tree after this child's lines, then the remaining children by recursion
    obtain ⟨t2, h2, hok2, hl2⟩ : ∃ t2, INode.shape.alter (grow [.mk ty k bl ccs]) t p = some t2 ∧ TreeOk t2 ∧
        applyLines t (childLines (joinPath p) (.mk ty k bl ccs :: cs) ++ rest) =
          applyLines t2 (childLines (joinPath p) cs ++ rest) := by
      rw [childLines, show (INode.mk ty k bl ccs).name = k from rfl, show (INode.mk ty k bl ccs).type = ty from rfl,
        show (INode.mk ty k bl ccs).blocks = bl from rfl, ← joinPath_snoc]
      cases ty with
      | kDirectory =>
        have hbl : bl = [] := hc.self.dir rfl
        subst hbl
        obtain ⟨t1, h1, hl1, hat1⟩ := h.applyLine_dir hk hnew
        obtain ⟨t2, h2, hok2, hl2⟩ := applyLines_children ccs (childLines (joinPath p) cs ++ rest) hat1
          (fun c hc' => ⟨every_mem (fun m hm => hm.toNodeOk) hc hc', hc.self.names c hc'⟩)
          (by simpa [INode.new, INode.children] using hc.self.nodup)
        refine ⟨t2, alter_grown (c := INode.new .kDirectory k) h.walk hnew h1 rfl h2, hok2, ?_⟩
        rw [if_pos rfl, readBack_dir hne hsp, nodeLines, List.append_assoc, List.append_assoc, List.singleton_append,
          applyLines, hl1]
        exact hl2
      | kFile =>
        have hch : ccs = [] := hc.self.file rfl
        subst hch
        obtain ⟨t1, h1, hl1⟩ := h.applyLine_file hk hnew bl
        have hok1 : TreeOk t1 := by
          have := h.ok.applyLine (.file (joinPath (p ++ [k])) (bytes "blocks=" ++ idList bl))
          rwa [hl1] at this
        refine ⟨t1, h1, hok1, ?_⟩
        rw [if_neg (by decide), readBack_file hne hsp, List.append_assoc, List.singleton_append, applyLines, hl1]
    have hw2 := Shape.walk_alter_same (grow_name _) p h2 h.walk
    have hat2 : At t2 p (n.withChildren (n.children ++ [.mk ty k bl ccs])) := ⟨hok2, hw2, h.isDir, h.names⟩
    obtain ⟨t3, h3, hok3, hl3⟩ := applyLines_children cs rest hat2 hrest (by
      rw [show (n.withChildren (n.children ++ [.mk ty k bl ccs])).children = n.children ++ [.mk ty k bl ccs] from rfl,
        List.append_assoc]
      exact hnd)
    refine ⟨t3, ?_, hok3, hl2.trans hl3⟩
    rw [alter_grow_append h.walk h2] at h3
    exact h3
termination_by sizeOf cs

/-! ## Reachable trees -/

/-- The trees reached from the empty one by `Mkdirs`, `CreateFile`, `Delete` and appending block ids to
files, with any byte strings as paths. -/
inductive ReachableTree : INode → Prop
  | empty : ReachableTree emptyTree
  | mkdirs {t : INode} (path : Bytes) : ReachableTree t → ReachableTree (mkdirs t path).1
  | createFile {t t' : INode} {path : Bytes} : ReachableTree t → createFile t path = some t' → ReachableTree t'
  | delete {t t' : INode} {path : Bytes} : ReachableTree t → delete t path = some t' → ReachableTree t'
  | append {t n : INode} {path : Bytes} (id : Int64) : ReachableTree t → getNode t path = some n →
      n.type = .kFile → ReachableTree (pushBlockAt t (splitPath path) id)

theorem isFile_of_getNode {t n : INode} {path : Bytes} (h : getNode t path = some n) (hf : n.type = .kFile) :
    IsFile t (splitPath path) := by
  refine ⟨n.blocks, ?_⟩
  unfold entryAt
  rw [show INode.shape.walk t (splitPath path) = some n from h, Option.map_some, INode.entry, hf]

theorem ReachableTree.ok {t : INode} (h : ReachableTree t) : TreeOk t := by
  induction h with
  | empty => exact emptyTree_ok
  | mkdirs path _ ih => exact ih.mkdirs path
  | createFile _ hc ih => exact ih.createFile hc
  | delete _ hd ih => exact ih.delete hd
  | append id _ hn hf ih => exact ih.pushBlockAt (isFile_of_getNode hn hf) id

/-- No node name contains a white space character. -/
def NoSpace (t : INode) : Prop := INode.shape.Every (fun n => ∀ b ∈ n.name, isSpace b = false) t

theorem load_save_of_ok {t : INode} (hok : TreeOk t) (hs : NoSpace t) : load emptyTree (save t) = (t, none) := by
  have hev : INode.shape.Every Printable t := fun c n hn => ⟨hok.nodes c n hn, hs c n hn⟩
  have hat : At emptyTree [] emptyTree := ⟨emptyTree_ok, rfl, rfl, by simp⟩
  obtain ⟨t', ht', -, hl⟩ := applyLines_children t.children [] hat
    (fun c hc => ⟨every_mem (fun m hm => hm.toNodeOk) hev hc, hok.nodes.self.names c hc⟩)
    (by simpa [emptyTree, INode.new, INode.children] using hok.nodes.self.nodup)
  -- the root of a well-formed tree is the fresh root with the tree's children
  have hroot : t' = t := by
    have := ht'.symm.trans (rfl : INode.shape.alter (grow t.children) emptyTree [] = _)
    cases t with
    | mk ty k bl cs =>
      have h1 : ty = .kDirectory := hok.rootType
      have h2 : k = [] := hok.rootName
      have h3 : bl = [] := hok.nodes.self.dir h1
      rw [h1, h2, h3]
      exact Option.some.inj this
  have hlines : treeLines t = childLines [] t.children := by
    cases t; rw [treeLines, nodeLines]; rfl
  rw [List.append_nil, hroot] at hl
  rw [load, imageLines_save, hlines]
  exact hl

/-- Saving a reachable tree without white space in its names and loading the text into a fresh tree
gives the same tree, and no exception is raised. -/
theorem load_save {t : INode} (h : ReachableTree t) (hs : NoSpace t) : load emptyTree (save t) = (t, none) :=
  load_save_of_ok h.ok hs

/-- A directory with an empty directory, a file without blocks and a file with extreme ids in it. -/
def sampleTree : INode :=
  .mk .kDirectory [] [] [.mk .kDirectory (bytes "d") []
    [.mk .kDirectory (bytes "e") [] [], .mk .kFile (bytes "f") [] [],
      .mk .kFile (bytes "#g") [Int64.minValue, -1, Int64.maxValue] []]]

theorem sampleTree_reachable : ReachableTree sampleTree := by
  have h1 : ReachableTree (mkdirs emptyTree (bytes "/d/e")).1 := .mkdirs _ .empty
  have h2 : ReachableTree _ := @ReachableTree.createFile _ _ (bytes "/d/f") h1 rfl
  have h3 : ReachableTree _ := @ReachableTree.createFile _ _ (bytes "/d/#g") h2 rfl
  have h4 : ReachableTree _ := @ReachableTree.append _ _ (bytes "/d/#g") Int64.minValue h3 rfl rfl
  have h5 : ReachableTree _ := @ReachableTree.append _ _ (bytes "/d/#g") (-1) h4 rfl rfl
  exact @ReachableTree.append _ _ (bytes "/d/#g") Int64.maxValue h5 rfl rfl

theorem sampleTree_noSpace : NoSpace sampleTree := by
  refine .of_mem (isSpace_of_all (by decide)) fun d hd => ?_
  obtain rfl := List.mem_singleton.1 hd
  refine .of_mem (isSpace_of_all (by decide)) fun c hc => ?_
  change c ∈ [_, _, _] at hc
  simp only [List.mem_cons, List.not_mem_nil, or_false] at hc
  rcases hc with rfl | rfl | rfl <;> exact .of_mem (isSpace_of_all (by decide)) fun c hc => by cases hc

theorem load_save_sampleTree : load emptyTree (save sampleTree) = (sampleTree, none) :=
  load_save sampleTree_reachable sampleTree_noSpace

end MiniHadoop.Ndfs

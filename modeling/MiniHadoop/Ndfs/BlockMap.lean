/-
The block map against the tree: which files a call removes, writes or keeps, and which entries of the
map it makes or drops. Blocks of files are never lost from the map; entries without a file are left
behind exactly when a file with blocks goes other than by its own `Delete`.
-/
import MiniHadoop.Ndfs.Locations

namespace MiniHadoop.Ndfs

open Text Forest Runs

/-- The block id belongs to a file of the tree. -/
def Referenced (t : INode) (id : Int64) : Prop := ∃ c bl, entryAt t c = some ⟨.kFile, bl⟩ ∧ id ∈ bl

/-- The message names the block. -/
def Operation.Names : Operation → Int64 → Prop
  | .blockReport _ blocks, id => id ∈ blocks.map Block.blockId
  | .blockReceived _ block _, id => id = block.blockId
  | _, _ => False

namespace FsNamesystem

variable {s : FsNamesystem}

/-! ## What a call does to files -/

/-- The call takes what is at `c` out of the tree: it overwrites, deletes or expires `c` or something above
it. -/
def Removes (s : FsNamesystem) : Operation → List Bytes → Prop
  | .startFile _ _ path overwrite, c =>
    s.inSafeMode = false ∧ overwrite = true ∧ splitPath path ≠ [] ∧ splitPath path <+: c
  | .delete path, c => splitPath path ≠ [] ∧ splitPath path <+: c
  | .checkLeases now _, c =>
    ∃ e ∈ s.leases.entries, e.2.expiry < now ∧ splitPath e.2.path ≠ [] ∧ splitPath e.2.path <+: c
  | _, _ => False

/-- The call generates the block id `id` and puts it behind the blocks `old` of the file at `c`. -/
def Writes (s : FsNamesystem) : Operation → List Bytes → Int64 → List Int64 → Prop
  | .startFile id' _ path overwrite, c, id, old =>
    s.Accepts path overwrite ∧ c = splitPath path ∧ id = id' ∧ old = []
  | .addBlock id' _ path, c, id, old =>
    c = splitPath path ∧ id = id' ∧ entryAt s.tree c = some ⟨.kFile, old⟩
  | _, _, _, _ => False

/-- The call generates the block id. -/
def Generates (s : FsNamesystem) (op : Operation) (id : Int64) : Prop := ∃ c old, s.Writes op c id old

theorem Writes.old {op : Operation} {c : List Bytes} {id : Int64} {old : List Int64} (h : s.Writes op c id old) :
    old = [] ∨ entryAt s.tree c = some ⟨.kFile, old⟩ := by
  cases op with
  | startFile => exact .inl h.2.2.2
  | addBlock => exact .inr h.2.2
  | delete | mkdirs | registerDataNode | heartbeat | blockReport | blockReceived | enterSafeMode | updateSafeMode
  | addLease | removeLease | checkLeases => exact h.elim

theorem Writes.same {op : Operation} {c d : List Bytes} {id id' : Int64} {old old' : List Int64}
    (h : s.Writes op c id old) (h' : s.Writes op d id' old') : c = d ∧ id = id' := by
  cases op with
  | startFile => exact ⟨h.2.1.trans h'.2.1.symm, h.2.2.1.trans h'.2.2.1.symm⟩
  | addBlock => exact ⟨h.1.trans h'.1.symm, h.2.1.trans h'.2.1.symm⟩
  | delete | mkdirs | registerDataNode | heartbeat | blockReport | blockReceived | enterSafeMode | updateSafeMode
  | addLease | removeLease | checkLeases => exact h.elim

theorem checkLeasesFrom_entryAt (now : Int64) : ∀ (es : List ((_ : Bytes) × Lease)) {s : FsNamesystem},
    TreeOk s.tree → ∀ c, entryAt (checkLeasesFrom now s es).tree c = none ∧
        (∃ e ∈ es, e.2.expiry < now ∧ splitPath e.2.path ≠ [] ∧ splitPath e.2.path <+: c) ∨
      entryAt (checkLeasesFrom now s es).tree c = entryAt s.tree c ∧
        ∀ e ∈ es, e.2.expiry < now → splitPath e.2.path ≠ [] → ¬ splitPath e.2.path <+: c
  | [], s, _, c => .inr ⟨rfl, fun e he => by cases he⟩
  | e :: es, s, ht, c => by
    rw [checkLeasesFrom]
    by_cases hexp : e.2.expiry < now
    · rw [if_pos hexp]
      have hok : TreeOk ((Ndfs.delete s.tree e.2.path).getD s.tree) := ht.delete_getD e.2.path
      have hfirst := entryAt_delete_getD ht e.2.path c
      rcases @checkLeasesFrom_entryAt now es
          { s with tree := (Ndfs.delete s.tree e.2.path).getD s.tree, leases := s.leases.erase e.1 } hok c
        with ⟨hnone, e', he', hrest⟩ | ⟨hsame, hrest⟩
      · exact .inl ⟨hnone, e', List.mem_cons_of_mem _ he', hrest⟩
      · by_cases hc : splitPath e.2.path ≠ [] ∧ splitPath e.2.path <+: c
        · refine .inl ⟨hsame.trans (hfirst.trans (if_pos hc)), e, List.mem_cons_self .., hexp, hc⟩
        · refine .inr ⟨hsame.trans (hfirst.trans (if_neg hc)), fun e' he' => ?_⟩
          rcases List.mem_cons.1 he' with rfl | he'
          · exact fun _ hne hp => hc ⟨hne, hp⟩
          · exact hrest e' he'
    · rw [if_neg hexp]
      rcases checkLeasesFrom_entryAt now es ht c with ⟨hnone, e', he', hrest⟩ | ⟨hsame, hrest⟩
      · exact .inl ⟨hnone, e', List.mem_cons_of_mem _ he', hrest⟩
      · refine .inr ⟨hsame, fun e' he' => ?_⟩
        rcases List.mem_cons.1 he' with rfl | he'
        · exact fun h => absurd h hexp
        · exact hrest e' he'

section StartFile

variable {id : Int64} {order : DataNodeOrder} {path : Bytes} {overwrite : Bool} {c : List Bytes} {bl : List Int64}

/-- A call that may not overwrite finds nothing at the path or below it. -/
theorem overwrites_of_file (hfree : overwrite = true ∨ entryAt s.tree (splitPath path) = none)
    (hp : splitPath path <+: c) (hc : entryAt s.tree c = some ⟨.kFile, bl⟩) : overwrite = true := by
  refine hfree.resolve_right fun hnone => ?_
  rw [entryAt_below_none hp hnone] at hc; cases hc

theorem file_startFile_accepted (ht : TreeOk s.tree) (ha : s.Accepts path overwrite) :
    entryAt (s.startFile id order path overwrite).1.tree c = some ⟨.kFile, bl⟩ ↔
      (c = splitPath path ∧ bl = [id]) ∨
        (entryAt s.tree c = some ⟨.kFile, bl⟩ ∧ ¬ s.Removes (.startFile id order path overwrite) c) := by
  obtain ⟨t, -, heq, hent⟩ := startFile_accepted ht ha id order
  have hne : splitPath path ≠ [] := ha.proper.splitPath_ne_nil
  have hrem : splitPath path <+: c → entryAt s.tree c = some ⟨.kFile, bl⟩ →
      s.Removes (.startFile id order path overwrite) c := fun hp hold =>
    ⟨ha.writable, overwrites_of_file ha.free hp hold, hne, hp⟩
  rw [heq]
  show entryAt t c = _ ↔ _
  rw [hent c]
  -- at the path, below it, or elsewhere
  by_cases hc : c = splitPath path
  · rw [if_pos hc]
    constructor
    · intro h; cases h; exact .inl ⟨hc, rfl⟩
    · rintro (⟨-, rfl⟩ | ⟨hold, hkeep⟩)
      · rfl
      · exact absurd (hrem (hc ▸ List.prefix_refl _) hold) hkeep
  · rw [if_neg hc]
    by_cases hp : splitPath path <+: c
    · rw [if_pos hp]
      constructor
      · intro h; cases h
      · rintro (⟨heq, -⟩ | ⟨hold, hkeep⟩)
        · exact absurd heq hc
        · exact absurd (hrem hp hold) hkeep
    · rw [if_neg hp]
      constructor
      · intro h
        split at h
        · cases h
        · exact .inr ⟨h, fun hrem => hp hrem.2.2.2⟩
      · rintro (⟨heq, -⟩ | ⟨hold, -⟩)
        · exact absurd heq hc
        · rw [if_neg, hold]
          rintro ⟨-, hnone⟩
          rw [hold] at hnone; cases hnone

/-- A refused call keeps the files that it did not clear away before it failed. -/
theorem file_startFile_refused (ht : TreeOk s.tree) (ha : ¬ s.Accepts path overwrite) :
    entryAt (s.startFile id order path overwrite).1.tree c = some ⟨.kFile, bl⟩ ↔
      entryAt s.tree c = some ⟨.kFile, bl⟩ ∧ ¬ s.Removes (.startFile id order path overwrite) c := by
  rcases s.locked_or_tries path overwrite with hl | ⟨hs, hf⟩
  · rw [startFile_locked hl, iff_self_and]
    rintro - hrem
    rcases hl with hsafe | ⟨how, -⟩
    · rw [hrem.1] at hsafe; cases hsafe
    · rw [hrem.2.1] at how; cases how
  · rw [(startFile_tried ht hs hf ha id order).1]
    show entryAt (Ndfs.mkdirsFrom (s.clearedTree path) _).1 c = _ ↔ _
    rw [file_mkdirsFrom (clearedTree_ok ht), clearedTree_eq, entryAt_delete_getD ht]
    constructor
    · intro h
      split at h
      · cases h
      · rename_i hkeep; exact ⟨h, fun hrem => hkeep hrem.2.2⟩
    · rintro ⟨hold, hrem⟩
      rw [if_neg, hold]
      exact fun hp => hrem ⟨hs, overwrites_of_file hf hp.2 hold, hp⟩

/-- The files after `StartFile`: the new one, and those that were not cleared away for it. -/
theorem file_startFile (ht : TreeOk s.tree) :
    entryAt (s.startFile id order path overwrite).1.tree c = some ⟨.kFile, bl⟩ ↔
      (s.Accepts path overwrite ∧ c = splitPath path ∧ bl = [id]) ∨
        (entryAt s.tree c = some ⟨.kFile, bl⟩ ∧ ¬ s.Removes (.startFile id order path overwrite) c) := by
  by_cases ha : s.Accepts path overwrite
  · rw [file_startFile_accepted ht ha, and_iff_right ha]
  · rw [file_startFile_refused ht ha, or_iff_right fun h => ha h.1]

end StartFile

theorem file_addBlock {id : Int64} {order : DataNodeOrder} {path : Bytes} {c : List Bytes} {bl : List Int64}
    (h : entryAt (s.addBlock id order path).1.tree c = some ⟨.kFile, bl⟩) :
    (∃ old, c = splitPath path ∧ entryAt s.tree c = some ⟨.kFile, old⟩ ∧ bl = old ++ [id]) ∨
      entryAt s.tree c = some ⟨.kFile, bl⟩ := by
  by_cases hf : IsFile s.tree (splitPath path)
  · rw [addBlock_file hf] at h
    obtain ⟨old, hold⟩ := hf
    rw [entryAt_pushBlockAt] at h
    split at h
    · rename_i hc
      rw [hold] at h
      cases h
      exact .inl ⟨old, hc, hc ▸ hold, rfl⟩
    · exact .inr h
  · rw [addBlock_not_file hf] at h
    exact .inr h

/-- A file after a call was written by it, or was there before and was not removed. -/
theorem file_of_perform (ht : TreeOk s.tree) {op : Operation} {c : List Bytes} {bl : List Int64}
    (h : entryAt (s.perform op).tree c = some ⟨.kFile, bl⟩) :
    (∃ id old, s.Writes op c id old ∧ bl = old ++ [id]) ∨
      (entryAt s.tree c = some ⟨.kFile, bl⟩ ∧ ¬ s.Removes op c) := by
  cases op with
  | startFile id order path overwrite =>
    rcases (file_startFile ht).1 h with ⟨ha, hc, hbl⟩ | hkept
    · exact .inl ⟨id, [], ⟨ha, hc, rfl, rfl⟩, hbl⟩
    · exact .inr hkept
  | addBlock id order path =>
    rcases file_addBlock h with ⟨old, hc, hold, hbl⟩ | hkept
    · exact .inl ⟨id, old, ⟨hc, rfl, hold⟩, hbl⟩
    · exact .inr ⟨hkept, fun hrem => hrem⟩
  | delete path =>
    rw [perform, (delete_tree ht path).2] at h
    split at h
    · cases h
    · rename_i hkeep; exact .inr ⟨h, hkeep⟩
  | mkdirs path => exact .inr ⟨(file_mkdirsFrom ht).1 h, fun hrem => hrem⟩
  | blockReport dnName blocks => rw [perform, blockReport_tree] at h; exact .inr ⟨h, fun hrem => hrem⟩
  | blockReceived dnName block delHint => rw [perform, blockReceived_tree] at h; exact .inr ⟨h, fun hrem => hrem⟩
  | checkLeases now order =>
    rcases checkLeasesFrom_entryAt now (order.entries s.leases) ht c with ⟨hnone, -⟩ | ⟨hsame, hnot⟩
    · rw [perform, checkLeases, hnone] at h; cases h
    · rw [perform, checkLeases, hsame] at h
      refine .inr ⟨h, ?_⟩
      rintro ⟨e, he, hexp, hne, hp⟩
      exact hnot e ((order.perm s.leases).mem_iff.2 he) hexp hne hp
  | registerDataNode | heartbeat | enterSafeMode | updateSafeMode | addLease | removeLease =>
    exact .inr ⟨h, fun hrem => hrem⟩

/-- A block of a file after a call was generated by it, or was one before. -/
theorem referenced_of_perform (ht : TreeOk s.tree) {op : Operation} {id : Int64}
    (h : Referenced (s.perform op).tree id) : s.Generates op id ∨ Referenced s.tree id := by
  obtain ⟨c, bl, hbl, hid⟩ := h
  rcases file_of_perform ht hbl with ⟨id', old, hw, rfl⟩ | ⟨hkept, -⟩
  · rcases List.mem_append.1 hid with hin | hlast
    · refine .inr ⟨c, old, hw.old.resolve_left fun hnil => ?_, hin⟩
      rw [hnil] at hin; cases hin
    · rw [List.mem_singleton.1 hlast]
      exact .inl ⟨c, old, hw⟩
  · exact .inr ⟨c, bl, hkept, hid⟩

/-- A file that is not removed stays, with its blocks and at most one more. -/
theorem file_kept (ht : TreeOk s.tree) {op : Operation} {c : List Bytes} {bl : List Int64}
    (h : entryAt s.tree c = some ⟨.kFile, bl⟩) (hrem : ¬ s.Removes op c) :
    ∃ bl', entryAt (s.perform op).tree c = some ⟨.kFile, bl'⟩ ∧ bl <+: bl' := by
  cases op with
  | startFile id order path overwrite => exact ⟨bl, (file_startFile ht).2 (.inr ⟨h, hrem⟩), List.prefix_refl _⟩
  | addBlock id order path =>
    rw [perform]
    by_cases hf : IsFile s.tree (splitPath path)
    · rw [addBlock_file hf]
      by_cases hc : c = splitPath path
      · refine ⟨bl ++ [id], ?_, List.prefix_append _ _⟩
        rw [entryAt_pushBlockAt, if_pos hc, ← hc, h]; rfl
      · refine ⟨bl, ?_, List.prefix_refl _⟩
        rw [entryAt_pushBlockAt, if_neg hc, h]
    · rw [addBlock_not_file hf]
      exact ⟨bl, h, List.prefix_refl _⟩
  | delete path =>
    refine ⟨bl, ?_, List.prefix_refl _⟩
    rw [perform, (delete_tree ht path).2, if_neg (show ¬ (splitPath path ≠ [] ∧ splitPath path <+: c) from hrem), h]
  | mkdirs path => exact ⟨bl, (file_mkdirsFrom ht).2 h, List.prefix_refl _⟩
  | blockReport dnName blocks => exact ⟨bl, by rw [perform, blockReport_tree, h], List.prefix_refl _⟩
  | blockReceived dnName block delHint => exact ⟨bl, by rw [perform, blockReceived_tree, h], List.prefix_refl _⟩
  | checkLeases now order =>
    refine ⟨bl, ?_, List.prefix_refl _⟩
    rcases checkLeasesFrom_entryAt now (order.entries s.leases) ht c with ⟨-, e, he, hexp, hne, hp⟩ | ⟨hsame, -⟩
    · exact absurd ⟨e, (order.perm s.leases).mem_iff.1 he, hexp, hne, hp⟩ hrem
    · rw [perform, checkLeases, hsame, h]
  | registerDataNode | heartbeat | enterSafeMode | updateSafeMode | addLease | removeLease =>
    exact ⟨bl, h, List.prefix_refl _⟩

/-! ## What a call does to the keys of the map -/

/-- The block id is a key of the map. -/
def Mapped (s : FsNamesystem) (id : Int64) : Prop := (s.blockToDatanodes.lookup id).isSome

theorem mapped_insert {s' : FsNamesystem} {id id' : Int64} {dns : List DataNodeInfo}
    (h : s'.blockToDatanodes = s.blockToDatanodes.insert id dns) : s'.Mapped id' ↔ id' = id ∨ s.Mapped id' := by
  unfold Mapped
  rw [h, HashMap.lookup_insert_eq]
  split
  · rename_i heq; exact ⟨fun _ => .inl heq, fun _ => rfl⟩
  · rename_i hne; exact ⟨.inr, fun hm => hm.resolve_left hne⟩

theorem mapped_reportBlocks (dnName : Bytes) (dn : DataNodeInfo) (id : Int64) : ∀ (blocks : List Block)
    (m : HashMap Int64 (List DataNodeInfo)), ((blocks.foldl (reportBlock dnName dn) m).lookup id).isSome ↔
      id ∈ blocks.map Block.blockId ∨ (m.lookup id).isSome
  | [], m => by simp
  | b :: blocks, m => by
    rw [List.foldl_cons, mapped_reportBlocks dnName dn id blocks, List.map_cons, List.mem_cons]
    unfold reportBlock
    simp only
    rw [HashMap.lookup_insert_eq]
    by_cases hb : id = b.blockId
    · simp [hb]
    · simp [hb]

theorem mapped_startFile (ht : TreeOk s.tree) {id id' : Int64} {order : DataNodeOrder} {path : Bytes}
    {overwrite : Bool} : (s.startFile id order path overwrite).1.Mapped id' ↔
      (s.Accepts path overwrite ∧ id' = id) ∨ s.Mapped id' := by
  by_cases ha : s.Accepts path overwrite
  · obtain ⟨t, -, heq, -⟩ := startFile_accepted ht ha id order
    rw [heq, mapped_insert (s := s) rfl]
    exact or_congr_left ⟨fun h => ⟨ha, h⟩, And.right⟩
  · have hsame : (s.startFile id order path overwrite).1.blockToDatanodes = s.blockToDatanodes := by
      rcases s.locked_or_tries path overwrite with hl | ⟨hs, hf⟩
      · rw [startFile_locked hl]
      · rw [(startFile_tried ht hs hf ha id order).1]
    unfold Mapped
    rw [hsame]
    exact ⟨.inr, fun h => h.resolve_left fun h => ha h.1⟩

theorem mapped_addBlock {id id' : Int64} {order : DataNodeOrder} {path : Bytes} :
    (s.addBlock id order path).1.Mapped id' ↔ (IsFile s.tree (splitPath path) ∧ id' = id) ∨ s.Mapped id' := by
  by_cases hf : IsFile s.tree (splitPath path)
  · rw [addBlock_file hf, mapped_insert (s := s) rfl]
    exact or_congr_left ⟨fun h => ⟨hf, h⟩, And.right⟩
  · rw [addBlock_not_file hf]
    exact ⟨.inr, fun h => h.resolve_left fun h => hf h.1⟩

/-- A new entry belongs to a block that the call generates, or that its message names. -/
theorem mapped_of_perform (ht : TreeOk s.tree) {op : Operation} {id : Int64} (h : (s.perform op).Mapped id) :
    s.Mapped id ∨ s.Generates op id ∨ op.Names id := by
  cases op with
  | startFile id' order path overwrite =>
    rcases (mapped_startFile ht).1 h with ⟨ha, rfl⟩ | hold
    · exact .inr (.inl ⟨_, [], ha, rfl, rfl, rfl⟩)
    · exact .inl hold
  | addBlock id' order path =>
    rcases mapped_addBlock.1 h with ⟨⟨old, hold⟩, rfl⟩ | hold
    · exact .inr (.inl ⟨_, old, rfl, rfl, hold⟩)
    · exact .inl hold
  | delete path =>
    rcases delete_lookup (s := s) path id with hsame | ⟨-, hnone⟩
    · unfold Mapped perform at h; rw [hsame] at h; exact .inl h
    · unfold Mapped perform at h; rw [hnone] at h; cases h
  | blockReport dnName blocks =>
    rw [perform] at h
    cases hl : s.datanodes.lookup dnName with
    | none => rw [blockReport_unregistered hl] at h; exact .inl h
    | some dn =>
      unfold Mapped blockReport at h
      rw [hl] at h
      rcases (mapped_reportBlocks dnName dn id blocks s.blockToDatanodes).1 h with hin | hold
      · exact .inr (.inr hin)
      · exact .inl hold
  | blockReceived dnName block delHint =>
    rw [perform] at h
    unfold blockReceived at h
    cases hl : s.datanodes.lookup dnName with
    | none =>
      rw [hl] at h
      exact ((mapped_insert (s := s) rfl).1 h).elim (fun h => .inr (.inr h)) .inl
    | some dn =>
      rw [hl] at h
      exact ((mapped_insert (s := s) rfl).1 h).elim (fun h => .inr (.inr h)) .inl
  | checkLeases now order =>
    unfold Mapped perform checkLeases at h
    rw [(checkLeasesFrom_tables now _ s).2] at h
    exact .inl h
  | mkdirs | registerDataNode | heartbeat | enterSafeMode | updateSafeMode | addLease | removeLease => exact .inl h

/-- An entry is only dropped when the file that has its block is deleted. -/
theorem mapped_perform (ht : TreeOk s.tree) (op : Operation) {id : Int64} (h : s.Mapped id) :
    (s.perform op).Mapped id ∨
      ∃ path bl, op = .delete path ∧ entryAt s.tree (splitPath path) = some ⟨.kFile, bl⟩ ∧ id ∈ bl := by
  cases op with
  | startFile id' order path overwrite => exact .inl ((mapped_startFile ht).2 (.inr h))
  | addBlock id' order path => exact .inl (mapped_addBlock.2 (.inr h))
  | delete path =>
    rcases delete_lookup (s := s) path id with hsame | ⟨⟨bl, hb, hid⟩, -⟩
    · left; unfold Mapped perform; rw [hsame]; exact h
    · exact .inr ⟨path, bl, rfl, hb, hid⟩
  | blockReport dnName blocks =>
    left
    rw [perform]
    cases hl : s.datanodes.lookup dnName with
    | none => rw [blockReport_unregistered hl]; exact h
    | some dn =>
      unfold Mapped blockReport
      rw [hl]
      exact (mapped_reportBlocks dnName dn id blocks s.blockToDatanodes).2 (.inr h)
  | blockReceived dnName block delHint =>
    left
    rw [perform]
    unfold blockReceived
    cases s.datanodes.lookup dnName with
    | none => exact (mapped_insert (s := s) rfl).2 (.inr h)
    | some dn => exact (mapped_insert (s := s) rfl).2 (.inr h)
  | checkLeases now order =>
    left
    unfold Mapped perform checkLeases
    rw [(checkLeasesFrom_tables now _ s).2]
    exact h
  | mkdirs | registerDataNode | heartbeat | enterSafeMode | updateSafeMode | addLease | removeLease => exact .inl h

/-- A block that a call generates is in its file and in the map afterwards. -/
theorem Writes.perform (ht : TreeOk s.tree) {op : Operation} {c : List Bytes} {id : Int64} {old : List Int64}
    (h : s.Writes op c id old) :
    entryAt (s.perform op).tree c = some ⟨.kFile, old ++ [id]⟩ ∧ (s.perform op).Mapped id := by
  cases op with
  | startFile id' order path overwrite =>
    obtain ⟨ha, hc, rfl, rfl⟩ := h
    exact ⟨(file_startFile ht).2 (.inl ⟨ha, hc, rfl⟩), (mapped_startFile ht).2 (.inl ⟨ha, rfl⟩)⟩
  | addBlock id' order path =>
    obtain ⟨rfl, rfl, hold⟩ := h
    refine ⟨?_, mapped_addBlock.2 (.inl ⟨⟨old, hold⟩, rfl⟩)⟩
    rw [FsNamesystem.perform, addBlock_file ⟨old, hold⟩, entryAt_pushBlockAt, if_pos rfl, hold]; rfl
  | delete | mkdirs | registerDataNode | heartbeat | blockReport | blockReceived | enterSafeMode | updateSafeMode
  | addLease | removeLease | checkLeases => exact h.elim

/-! ## No live block is lost -/

/-- The block ids of all files are different, within a file and across files, and each is a key of the map. -/
structure BlocksOk (s : FsNamesystem) : Prop where
  nodup : ∀ c bl, entryAt s.tree c = some ⟨.kFile, bl⟩ → bl.Nodup
  disjoint : ∀ c d bl bl', entryAt s.tree c = some ⟨.kFile, bl⟩ → entryAt s.tree d = some ⟨.kFile, bl'⟩ → c ≠ d →
    bl.Disjoint bl'
  live : ∀ id, Referenced s.tree id → s.Mapped id

/-- Two files that share a block are one. -/
theorem BlocksOk.same_file (h : s.BlocksOk) {c d : List Bytes} {bl bl' : List Int64} {id : Int64}
    (hc : entryAt s.tree c = some ⟨.kFile, bl⟩) (hd : entryAt s.tree d = some ⟨.kFile, bl'⟩) (hid : id ∈ bl)
    (hid' : id ∈ bl') : c = d := by
  by_contra hne
  exact h.disjoint c d bl bl' hc hd hne hid hid'

section Step

variable {op : Operation}

theorem nodup_perform (ht : TreeOk s.tree) (h : s.BlocksOk) (hnew : ∀ id, s.Generates op id → ¬ Referenced s.tree id)
    {c : List Bytes} {bl : List Int64} (hbl : entryAt (s.perform op).tree c = some ⟨.kFile, bl⟩) : bl.Nodup := by
  rcases file_of_perform ht hbl with ⟨id, old, hw, rfl⟩ | ⟨hkept, -⟩
  · rcases hw.old with rfl | hold
    · exact List.nodup_singleton id
    · rw [List.nodup_append]
      refine ⟨h.nodup c old hold, List.nodup_singleton id, fun x hx y hy hxy => ?_⟩
      rw [List.mem_singleton.1 hy] at hxy
      exact hnew id ⟨c, old, hw⟩ ⟨c, old, hold, hxy ▸ hx⟩
  · exact h.nodup c bl hkept

/-- A file that a call has written shares no block with a file that was kept. -/
theorem disjoint_written (h : s.BlocksOk) (hnew : ∀ id, s.Generates op id → ¬ Referenced s.tree id) {c d : List Bytes}
    {id : Int64} {old bl : List Int64} (hw : s.Writes op c id old) (hd : entryAt s.tree d = some ⟨.kFile, bl⟩)
    (hne : c ≠ d) : (old ++ [id]).Disjoint bl := by
  rw [List.disjoint_append_left]
  constructor
  · rcases hw.old with rfl | hold
    · exact List.disjoint_nil_left _
    · exact h.disjoint c d old bl hold hd hne
  · rw [List.singleton_disjoint]
    exact fun hid => hnew id ⟨c, old, hw⟩ ⟨d, bl, hd, hid⟩

theorem disjoint_perform (ht : TreeOk s.tree) (h : s.BlocksOk) (hnew : ∀ id, s.Generates op id → ¬ Referenced s.tree id)
    {c d : List Bytes} {bl bl' : List Int64} (hc : entryAt (s.perform op).tree c = some ⟨.kFile, bl⟩)
    (hd : entryAt (s.perform op).tree d = some ⟨.kFile, bl'⟩) (hne : c ≠ d) : bl.Disjoint bl' := by
  rcases file_of_perform ht hc with ⟨id, old, hw, rfl⟩ | ⟨hkept, -⟩
  · rcases file_of_perform ht hd with ⟨id', old', hw', -⟩ | ⟨hkept', -⟩
    · exact absurd (hw.same hw').1 hne
    · exact disjoint_written h hnew hw hkept' hne
  · rcases file_of_perform ht hd with ⟨id', old', hw', rfl⟩ | ⟨hkept', -⟩
    · exact (disjoint_written h hnew hw' hkept (Ne.symm hne)).symm
    · exact h.disjoint c d bl bl' hkept hkept' hne

theorem live_perform (ht : TreeOk s.tree) (h : s.BlocksOk) {id : Int64} (href : Referenced (s.perform op).tree id) :
    (s.perform op).Mapped id := by
  obtain ⟨c, bl, hbl, hid⟩ := href
  rcases file_of_perform ht hbl with ⟨id', old, hw, rfl⟩ | ⟨hkept, hrem⟩
  · rcases List.mem_append.1 hid with hold | hlast
    · have hfile : entryAt s.tree c = some ⟨.kFile, old⟩ := hw.old.resolve_left fun hnil => by
        rw [hnil] at hold; cases hold
      rcases mapped_perform ht op (h.live id ⟨c, old, hfile, hold⟩) with hm | ⟨path, bl', rfl, -⟩
      · exact hm
      · exact hw.elim
    · rw [List.mem_singleton.1 hlast]; exact (hw.perform ht).2
  · rcases mapped_perform ht op (h.live id ⟨c, bl, hkept, hid⟩) with hm | ⟨path, bl', rfl, hfile, hid'⟩
    · exact hm
    · -- the entry is dropped with the file it belongs to, which is this one
      have hc := h.same_file hkept hfile hid hid'
      refine absurd ⟨fun hnil => ?_, hc ▸ List.prefix_refl _⟩ hrem
      exact not_isFile_root ht ⟨bl', hnil ▸ hfile⟩

theorem BlocksOk.perform (ht : TreeOk s.tree) (h : s.BlocksOk)
    (hnew : ∀ id, s.Generates op id → ¬ Referenced s.tree id) : (s.perform op).BlocksOk :=
  ⟨fun _ _ hbl => nodup_perform ht h hnew hbl, fun _ _ _ _ hc hd hne => disjoint_perform ht h hnew hc hd hne,
    fun _ href => live_perform ht h href⟩

end Step

/-- The block id was generated by some call of the run. -/
def Generated (ops : List Operation) (id : Int64) : Prop :=
  ∃ pre op, pre ++ [op] <+: ops ∧ (after perform {} pre).Generates op id

/-- `Block::Generate` returns no id twice in the run. -/
def NeverRepeats (ops : List Operation) : Prop :=
  ∀ pre op id, pre ++ [op] <+: ops → (after perform {} pre).Generates op id → ¬ Generated pre id

section Run

variable {pre ops : List Operation} {id : Int64}

theorem tree_ok_after (ops : List Operation) : TreeOk (after perform {} ops).tree := (Reachable.fresh.after ops).tree_ok

theorem Generated.mono (h : Generated pre id) (hpre : pre <+: ops) : Generated ops id := by
  obtain ⟨pre', op, hp, hg⟩ := h
  exact ⟨pre', op, hp.trans hpre, hg⟩

theorem no_file_start (c : List Bytes) (bl : List Int64) : entryAt ({} : FsNamesystem).tree c ≠ some ⟨.kFile, bl⟩ := by
  intro hbl
  cases c with
  | nil => cases hbl
  | cons k c =>
    rw [show entryAt ({} : FsNamesystem).tree (k :: c) = none from entryAt_new_cons _ _ k c] at hbl
    cases hbl

/-- Every block of a file was generated. -/
theorem generated_of_referenced (ops : List Operation) : ∀ pre, pre <+: ops → ∀ id,
    Referenced (after perform {} pre).tree id → Generated pre id := by
  refine @after_invariant _ _ perform {} (fun pre s => ∀ id, Referenced s.tree id → Generated pre id) ops ?_ ?_
  · rintro id ⟨c, bl, hbl, -⟩
    exact absurd hbl (no_file_start c bl)
  · intro pre op _ ih id href
    rcases referenced_of_perform (tree_ok_after pre) href with hgen | hold
    · exact ⟨pre, op, List.prefix_refl _, hgen⟩
    · exact (ih id hold).mono (List.prefix_append _ _)

theorem blocksOk_start : ({} : FsNamesystem).BlocksOk :=
  ⟨fun c bl hbl => absurd hbl (no_file_start c bl), fun c _ bl _ hbl => absurd hbl (no_file_start c bl),
    fun _ ⟨c, bl, hbl, _⟩ => absurd hbl (no_file_start c bl)⟩

theorem NeverRepeats.fresh (h : NeverRepeats ops) {op : Operation} (hpre : pre ++ [op] <+: ops) (id : Int64)
    (hg : (after perform {} pre).Generates op id) : ¬ Referenced (after perform {} pre).tree id :=
  fun href => h pre op id hpre hg (generated_of_referenced pre pre (List.prefix_refl _) id href)

theorem NeverRepeats.blocksOk (h : NeverRepeats ops) : ∀ pre, pre <+: ops → (after perform {} pre).BlocksOk :=
  @after_invariant _ _ perform {} (fun _ s => s.BlocksOk) ops blocksOk_start
    fun pre _ hpre hok => hok.perform (tree_ok_after pre) (h.fresh hpre)

/-- As long as no block id is generated twice, the ids of all files are different and all in the map. -/
theorem no_live_block_lost (h : NeverRepeats ops) :
    (∀ c bl, entryAt (after perform {} ops).tree c = some ⟨.kFile, bl⟩ → bl.Nodup) ∧
      (∀ c d bl bl', entryAt (after perform {} ops).tree c = some ⟨.kFile, bl⟩ →
        entryAt (after perform {} ops).tree d = some ⟨.kFile, bl'⟩ → c ≠ d → bl.Disjoint bl') ∧
      ∀ c bl, entryAt (after perform {} ops).tree c = some ⟨.kFile, bl⟩ → ∀ id ∈ bl,
        ((after perform {} ops).blockToDatanodes.lookup id).isSome := by
  have hok := h.blocksOk ops (List.prefix_refl _)
  exact ⟨hok.nodup, hok.disjoint, fun c bl hbl id hid => hok.live id ⟨c, bl, hbl, hid⟩⟩

/-- The id that `Block::Generate` returns if the call gets that far. -/
def nextId : Operation → Option Int64
  | .startFile id _ _ _ => some id
  | .addBlock id _ _ => some id
  | _ => none

theorem Generates.nextId {op : Operation} (h : s.Generates op id) : nextId op = some id := by
  obtain ⟨c, old, hw⟩ := h
  cases op with
  | startFile => rw [hw.2.2.1]; rfl
  | addBlock => rw [hw.2.1]; rfl
  | delete | mkdirs | registerDataNode | heartbeat | blockReport | blockReceived | enterSafeMode | updateSafeMode
  | addLease | removeLease | checkLeases => exact hw.elim

theorem neverRepeats_of_nodup (h : (ops.filterMap nextId).Nodup) : NeverRepeats ops := by
  rintro pre op id ⟨post, rfl⟩ hg ⟨pre', op', ⟨mid, rfl⟩, hg'⟩
  simp only [List.filterMap_append, List.filterMap_cons, hg.nextId, hg'.nextId, List.filterMap_nil] at h
  rw [List.append_assoc, List.nodup_append] at h
  exact h.2.2 id (by simp) id (by simp) rfl

/-- Three files, of which the second is deleted and the first gets another block after that. -/
def threeFiles : List Operation :=
  [announce (bytes "a") 1, .startFile 7 .insertion (bytes "/d/f") false, .startFile 8 .insertion (bytes "/g") false,
    .startFile 9 .insertion (bytes "/h") false, .delete (bytes "/g"), .addBlock 10 .insertion (bytes "/d/f")]

/-- Two of them are left, with three blocks. -/
theorem no_live_block_lost_threeFiles :
    (entryAt (after perform {} threeFiles).tree [bytes "d", bytes "f"] = some ⟨.kFile, [7, 10]⟩ ∧
        entryAt (after perform {} threeFiles).tree [bytes "h"] = some ⟨.kFile, [9]⟩) ∧
      NeverRepeats threeFiles ∧
      ((∀ c bl, entryAt (after perform {} threeFiles).tree c = some ⟨.kFile, bl⟩ → bl.Nodup) ∧
        (∀ c d bl bl', entryAt (after perform {} threeFiles).tree c = some ⟨.kFile, bl⟩ →
          entryAt (after perform {} threeFiles).tree d = some ⟨.kFile, bl'⟩ → c ≠ d → bl.Disjoint bl') ∧
        ∀ c bl, entryAt (after perform {} threeFiles).tree c = some ⟨.kFile, bl⟩ → ∀ id ∈ bl,
          ((after perform {} threeFiles).blockToDatanodes.lookup id).isSome) :=
  ⟨by decide +kernel, neverRepeats_of_nodup (by decide), no_live_block_lost (neverRepeats_of_nodup (by decide))⟩

end Run

/-! ## Orphans -/

/-- Every key of the map is a block of a file in the tree. -/
def NoOrphans (s : FsNamesystem) : Prop := ∀ id, (s.blockToDatanodes.lookup id).isSome → Referenced s.tree id

/-- A message comes from a registered DataNode and names blocks of the tree only. -/
def NamesLive (s : FsNamesystem) : Operation → Prop
  | .blockReport dnName blocks => s.Registered dnName ∧ ∀ b ∈ blocks, Referenced s.tree b.blockId
  | .blockReceived dnName block _ => s.Registered dnName ∧ Referenced s.tree block.blockId
  | _ => True

/-- The call removes no file that has blocks, unless it is the `Delete` of that file. -/
def Releases (s : FsNamesystem) (op : Operation) : Prop :=
  ∀ c bl, entryAt s.tree c = some ⟨.kFile, bl⟩ → bl ≠ [] → s.Removes op c → ∃ path, op = .delete path ∧ splitPath path = c

section Orphans

variable {op : Operation}

theorem NamesLive.referenced (h : s.NamesLive op) {id : Int64} (hid : op.Names id) :
    Referenced s.tree id ∧ ∀ c, ¬ s.Removes op c := by
  cases op with
  | blockReport dnName blocks =>
    obtain ⟨b, hb, rfl⟩ := List.mem_map.1 hid
    exact ⟨h.2 b hb, fun _ hrem => hrem⟩
  | blockReceived dnName block delHint => exact ⟨hid ▸ h.2, fun _ hrem => hrem⟩
  | startFile | addBlock | delete | mkdirs | registerDataNode | heartbeat | enterSafeMode | updateSafeMode | addLease
  | removeLease | checkLeases => exact hid.elim

theorem referenced_kept (ht : TreeOk s.tree) {c : List Bytes} {bl : List Int64} {id : Int64}
    (h : entryAt s.tree c = some ⟨.kFile, bl⟩) (hid : id ∈ bl) (hrem : ¬ s.Removes op c) :
    Referenced (s.perform op).tree id := by
  obtain ⟨bl', hbl', hsub⟩ := file_kept ht h hrem
  exact ⟨c, bl', hbl', hsub.subset hid⟩

/-- A call that releases what it removes leaves no orphans. -/
theorem NoOrphans.perform (ht : TreeOk s.tree) (h : s.NoOrphans) (hmsg : s.NamesLive op) (hrel : s.Releases op) :
    (s.perform op).NoOrphans := by
  intro id hid
  rcases mapped_of_perform ht hid with hold | ⟨c, old, hw⟩ | hnamed
  · obtain ⟨c, bl, hbl, hin⟩ := h id hold
    by_cases hrem : s.Removes op c
    · -- the file goes, by its own deletion, and takes the entry with it
      obtain ⟨path, rfl, hc⟩ := hrel c bl hbl (fun hnil => by rw [hnil] at hin; cases hin) hrem
      rw [FsNamesystem.perform, delete_lookup_mem (hc ▸ hbl) hin] at hid
      cases hid
    · exact referenced_kept ht hbl hin hrem
  · exact ⟨c, _, (hw.perform ht).1, by simp⟩
  · obtain ⟨⟨c, bl, hbl, hin⟩, hrem⟩ := hmsg.referenced hnamed
    exact referenced_kept ht hbl hin (hrem c)

/-- A call that removes a file with blocks other than by its deletion leaves its blocks in the map. -/
theorem Releases.of_noOrphans (ht : TreeOk s.tree) (hok : s.BlocksOk)
    (hnew : ∀ id, s.Generates op id → ¬ Referenced s.tree id) (h : (s.perform op).NoOrphans) : s.Releases op := by
  intro c bl hbl hne hrem
  obtain ⟨id, hid⟩ := List.exists_mem_of_ne_nil bl hne
  rcases mapped_perform ht op (hok.live id ⟨c, bl, hbl, hid⟩) with hm | ⟨path, bl', rfl, hfile, hid'⟩
  · exfalso
    obtain ⟨d, bl', hbl', hid'⟩ := h id hm
    rcases file_of_perform ht hbl' with ⟨id', old, hw, rfl⟩ | ⟨hkept, hstay⟩
    · rcases List.mem_append.1 hid' with hold | hlast
      · cases op with
        | startFile => rw [hw.2.2.2] at hold; cases hold
        | addBlock => exact hrem
        | delete | mkdirs | registerDataNode | heartbeat | blockReport | blockReceived | enterSafeMode | updateSafeMode
        | addLease | removeLease | checkLeases => exact hw.elim
      · rw [List.mem_singleton.1 hlast] at hid
        exact hnew id' ⟨d, old, hw⟩ ⟨c, bl, hbl, hid⟩
    · exact hstay (hok.same_file hbl hkept hid hid' ▸ hrem)
  · exact ⟨path, rfl, (hok.same_file hbl hfile hid hid').symm⟩

/-- In a run whose messages name blocks of the tree there are never orphans when every removal of a file with
blocks is its own `Delete`; and, as long as no block id is generated twice, only then. -/
theorem noOrphans_of_releases {ops : List Operation}
    (hmsg : ∀ pre op, pre ++ [op] <+: ops → (after perform {} pre).NamesLive op) :
    ((∀ pre op, pre ++ [op] <+: ops → (after perform {} pre).Releases op) →
        ∀ pre, pre <+: ops → (after perform {} pre).NoOrphans) ∧
      (NeverRepeats ops → (∀ pre, pre <+: ops → (after perform {} pre).NoOrphans) →
        ∀ pre op, pre ++ [op] <+: ops → (after perform {} pre).Releases op) := by
  constructor
  · intro hrel
    refine @after_invariant _ _ perform {} (fun _ s => s.NoOrphans) ops (fun id hid => by cases hid) ?_
    exact fun pre op hpre h => h.perform (tree_ok_after pre) (hmsg pre op hpre) (hrel pre op hpre)
  · intro hnever hgood pre op hpre
    have hlast := hgood (pre ++ [op]) hpre
    rw [after_snoc] at hlast
    exact Releases.of_noOrphans (tree_ok_after pre)
      (hnever.blocksOk pre ((List.prefix_append pre [op]).trans hpre)) (hnever.fresh hpre) hlast

/-- A file whose block is confirmed and that is deleted itself. -/
def deletedFile : List Operation :=
  [announce (bytes "a") 1, .startFile 7 .insertion (bytes "/f") false,
    .blockReceived (bytes "a") { blockId := 7 } [], .delete (bytes "/f")]

theorem deletedFile_namesLive : ∀ pre op, pre ++ [op] <+: deletedFile → (after perform {} pre).NamesLive op := by
  rintro pre op ⟨post, hp⟩
  have hat : deletedFile[pre.length]? = some op := by rw [← hp]; simp
  have hpre : pre = deletedFile.take pre.length := by rw [← hp]; simp
  generalize pre.length = n at hat hpre
  subst hpre
  match n with
  | 0 | 1 | 3 => cases hat; trivial
  | 2 =>
    cases hat
    refine ⟨Option.isSome_iff_exists.1 (by decide +kernel), [bytes "f"], [7], by decide +kernel, by simp⟩
  | n + 4 => cases hat

theorem noOrphans_deletedFile :
    ((∀ pre op, pre ++ [op] <+: deletedFile → (after perform {} pre).Releases op) →
        ∀ pre, pre <+: deletedFile → (after perform {} pre).NoOrphans) ∧
      (NeverRepeats deletedFile → (∀ pre, pre <+: deletedFile → (after perform {} pre).NoOrphans) →
        ∀ pre op, pre ++ [op] <+: deletedFile → (after perform {} pre).Releases op) :=
  noOrphans_of_releases deletedFile_namesLive

/-- A file of two blocks in a directory that is deleted afterwards. -/
def deletedDirectory : List Operation :=
  [announce (bytes "a") 1, .startFile 7 .insertion (bytes "/d/f") false, .addBlock 8 .insertion (bytes "/d/f"),
    .delete (bytes "/d")]

/-- The blocks of a file in a deleted directory stay in the map. -/
theorem orphans_of_deletedDirectory : ¬ ∀ ops,
    (∀ pre op, pre ++ [op] <+: ops → (after perform {} pre).NamesLive op) → (after perform {} ops).NoOrphans := by
  intro h
  have hmsg : ∀ pre op, pre ++ [op] <+: deletedDirectory → (after perform {} pre).NamesLive op := by
    intro pre op hpre
    have hop : op ∈ deletedDirectory := hpre.subset (by simp)
    simp only [deletedDirectory, announce, List.mem_cons, List.not_mem_nil, or_false] at hop
    rcases hop with rfl | rfl | rfl | rfl <;> trivial
  obtain ⟨c, bl, hbl, -⟩ := h deletedDirectory hmsg 7 (by decide +kernel)
  have htree : (after perform {} deletedDirectory).tree = emptyTree := by rfl
  rw [htree] at hbl
  exact absurd hbl (no_file_start c bl)

end Orphans

end FsNamesystem

end MiniHadoop.Ndfs

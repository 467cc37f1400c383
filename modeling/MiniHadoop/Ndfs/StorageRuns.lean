/-
`BlockStorage` as a whole: stores, reads and removals in any order, whatever the file system does with each of them. The
directory is a map from block ids to bytes, every call answers as the map does, and the report lists the map. A store
that the file system has cut is one of the map too: it answers OK, and what is read is the beginning.
-/
import MiniHadoop.Ndfs.BlockStore

namespace MiniHadoop.Ndfs

open Text Wire Runs

/-! ## Calls -/

namespace BlockStorage

/-- `RemoveBlock(block_id)`; a file that is there may be one that cannot be removed. -/
def removeBlock (st : BlockStorage) (blockId : Int64) (removable : Bool) : BlockStorage × Status :=
  if removable = true ∧ st.blockPath blockId ∈ st.files then
    ({ st with files := st.files.erase (st.blockPath blockId) }, .OK)
  else (st, .ioError (bytes "cannot remove block: " ++ st.blockPath blockId))

end BlockStorage

/-- A call, with what the file system does. -/
inductive StorageCall where
  | store (id : Int64) (data : Buffer) (outcome : FileOutcome)
  | read (id : Int64)
  | remove (id : Int64) (removable : Bool)

namespace StorageCall

/-- The call of a `BlockStorage`: its status, and the data of a read. -/
def perform (st : BlockStorage) : StorageCall → BlockStorage × Status × Bytes
  | .store id data outcome => ((st.storeBlock id data outcome).1, (st.storeBlock id data outcome).2, [])
  | .read id =>
    match st.readBlock id with
    | .error status => (st, status, [])
    | .ok data => (st, .OK, data.1)
  | .remove id removable => ((st.removeBlock id removable).1, (st.removeBlock id removable).2, [])

def next (st : BlockStorage) (c : StorageCall) : BlockStorage := (c.perform st).1

/-- What the caller sees. -/
def answer (st : BlockStorage) (c : StorageCall) : List (Status × Bytes) := [(c.perform st).2]

/-! ## The map -/

/-- The map after a call. -/
def applyMap (blocks : Int64 → Option Bytes) : StorageCall → Int64 → Option Bytes
  | .store id data outcome => Function.update blocks id ((outcome.content data.1).or (blocks id))
  | .read _ => blocks
  | .remove id removable => if removable then Function.update blocks id none else blocks

/-- What the map answers; `path` names the files in its errors. -/
def mapAnswer (path : Int64 → Bytes) (blocks : Int64 → Option Bytes) : StorageCall → List (Status × Bytes)
  | .store id _ .openFails => [(.ioError (bytes "cannot create block file: " ++ path id), [])]
  | .store .. => [(.OK, [])]
  | .read id =>
    match blocks id with
    | none => [(.ioError (bytes "cannot open block: " ++ path id), [])]
    | some data => [(.OK, data)]
  | .remove id removable =>
    if removable = true ∧ (blocks id).isSome then [(.OK, [])]
    else [(.ioError (bytes "cannot remove block: " ++ path id), [])]

end StorageCall

/-! ## Refinement -/

section Refinement

variable {st : BlockStorage} {blocks : Int64 → Option Bytes}

theorem Represents.mem_iff (h : Represents st blocks) (id : Int64) :
    st.blockPath id ∈ st.files ↔ (blocks id).isSome := by
  rw [← h.held, BlockStorage.held, Option.isSome_map, AList.lookup_isSome]

theorem held_erase (st : BlockStorage) (id id' : Int64) :
    ({ st with files := st.files.erase (st.blockPath id) } : BlockStorage).held id' =
      Function.update st.held id none id' := by
  unfold BlockStorage.held
  show ((st.files.erase (st.blockPath id)).lookup (st.blockPath id')).map (·.1) = _
  by_cases hid : id' = id
  · subst hid
    rw [AList.lookup_erase, Function.update_self]
    rfl
  · rw [AList.lookup_erase_ne fun hpath => hid (BlockStorage.blockPath_inj hpath), Function.update_of_ne hid]

/-- A removal of a block that is not there, or cannot be removed. -/
theorem Represents.removeBlock (h : Represents st blocks) (id : Int64) (removable : Bool) :
    Represents (st.removeBlock id removable).1 (StorageCall.applyMap blocks (.remove id removable)) := by
  unfold BlockStorage.removeBlock StorageCall.applyMap
  cases removable with
  | false => exact h
  | true =>
    simp only [true_and, if_true]
    split
    · refine ⟨fun id' => ?_, fun path hpath => ?_⟩
      · rw [held_erase, funext h.held]
      · exact h.paths path (AList.mem_erase.1 hpath).2
    · rename_i habsent
      rw [h.mem_iff, Option.not_isSome_iff_eq_none] at habsent
      rw [← habsent, Function.update_eq_self]
      exact h

theorem Represents.storeBlock (h : Represents st blocks) (id : Int64) (data : Buffer) (outcome : FileOutcome) :
    Represents (st.storeBlock id data outcome).1 (StorageCall.applyMap blocks (.store id data outcome)) := by
  refine ⟨fun id' => ?_, fun path hpath => ?_⟩
  · rw [BlockStorage.held_storeBlock, h.held, h.held, StorageCall.applyMap, Function.update_apply]
  · cases outcome with
    | openFails => exact h.paths path hpath
    | short n =>
      rcases (AList.mem_insert _).1 hpath with rfl | hpath
      · exact ⟨id, rfl⟩
      · exact h.paths path hpath
    | written =>
      rcases (AList.mem_insert _).1 hpath with rfl | hpath
      · exact ⟨id, rfl⟩
      · exact h.paths path hpath

theorem dataDir_next (st : BlockStorage) (c : StorageCall) : (c.next st).dataDir = st.dataDir := by
  cases c with
  | store id data outcome => cases outcome <;> rfl
  | read id =>
    unfold StorageCall.next StorageCall.perform
    dsimp only
    split <;> rfl
  | remove id removable =>
    unfold StorageCall.next StorageCall.perform BlockStorage.removeBlock
    dsimp only
    split <;> rfl

/-- A call is one of the map, and answers what the map answers. -/
theorem Represents.perform (h : Represents st blocks) (c : StorageCall) :
    c.answer st = c.mapAnswer st.blockPath blocks ∧ Represents (c.next st) (c.applyMap blocks) := by
  cases c with
  | store id data outcome => exact ⟨by cases outcome <;> rfl, h.storeBlock id data outcome⟩
  | read id =>
    have hheld := h.held id
    unfold BlockStorage.held at hheld
    simp only [StorageCall.answer, StorageCall.next, StorageCall.perform, BlockStorage.readBlock, StorageCall.mapAnswer,
      StorageCall.applyMap, ← hheld]
    cases st.files.lookup (st.blockPath id) with
    | none => exact ⟨rfl, h⟩
    | some data => exact ⟨rfl, h⟩
  | remove id removable =>
    refine ⟨?_, h.removeBlock id removable⟩
    simp only [StorageCall.answer, StorageCall.perform, BlockStorage.removeBlock, StorageCall.mapAnswer, h.mem_iff]
    split <;> rfl

end Refinement

/-- After any calls on an empty directory: every call has answered what the map answers, a read of any block gives what
the map has, and the report lists the map, each block once and with its length. -/
theorem storage_refines_map (dataDir : Bytes) (calls : List StorageCall) (order : HashMap.Enumeration Bytes Buffer) :
    let st := after StorageCall.next { dataDir } calls
    let blocks := after StorageCall.applyMap (fun _ => none) calls
    trace StorageCall.next StorageCall.answer { dataDir } calls =
        trace StorageCall.applyMap (StorageCall.mapAnswer (BlockStorage.blockPath { dataDir })) (fun _ => none) calls ∧
      (∀ id, st.held id = blocks id) ∧
      ∃ bs, st.getBlockReport order = .ok bs ∧ (bs.map (·.blockId)).Nodup ∧
        ∀ b, b ∈ bs ↔ ∃ payload,
          blocks b.blockId = some payload ∧ b.numBytes = Int64.ofNat payload.length ∧ b.generationStamp = 0 := by
  intro st blocks
  have hempty : Represents { dataDir } fun _ => none :=
    ⟨fun id => rfl, fun path hpath => absurd hpath (AList.notMem_empty path)⟩
  have hstep : ∀ (st : BlockStorage) (blocks : Int64 → Option Bytes) (c : StorageCall), True →
      Represents st blocks ∧ st.dataDir = dataDir →
        c.answer st = c.mapAnswer (BlockStorage.blockPath { dataDir }) blocks ∧
          Represents (c.next st) (c.applyMap blocks) ∧ (c.next st).dataDir = dataDir := by
    rintro st blocks c - ⟨h, hdir⟩
    obtain ⟨hanswer, hnext⟩ := h.perform c
    have hpath : st.blockPath = BlockStorage.blockPath { dataDir } := by
      funext id
      unfold BlockStorage.blockPath
      rw [hdir]
    refine ⟨?_, hnext, (dataDir_next st c).trans hdir⟩
    rw [hanswer, hpath]
  have hrep : Represents st blocks := by
    have hboth := @after_invariant _ _ StorageCall.next { dataDir }
      (fun pre st => Represents st (after StorageCall.applyMap (fun _ => none) pre) ∧ st.dataDir = dataDir) calls
      ⟨hempty, rfl⟩ (fun pre c _ h => by rw [after_snoc]; exact (hstep _ _ c trivial h).2) calls (List.prefix_refl calls)
    exact hboth.1
  refine ⟨?_, hrep.held, hrep.report order⟩
  have htrace := @trace_eq_of_rel _ _ _ StorageCall.next _ _ StorageCall.applyMap StorageCall.answer _ _ _ id hstep calls
    { dataDir } (fun _ => none) (fun _ _ => trivial) ⟨hempty, rfl⟩
  rwa [List.map_id] at htrace

end MiniHadoop.Ndfs

/-
What the return of `WriteFile` says. When a write that returned OK can be read back, what a write
refused on an existing file does to it, and which of the listed locations hold the blocks.
-/
import MiniHadoop.Ndfs.WriteLoop

namespace MiniHadoop.Ndfs

open Text Wire Chunks

theorem datanodes_of_not_safe {s : FsNamesystem} (h : s.inSafeMode = false) : s.datanodes.entries ≠ [] := by
  intro he
  unfold FsNamesystem.inSafeMode at h
  rw [if_pos he] at h; cases h

/-! ## Success -/

section Success

variable {c : Cluster} {blockSize : Int64} {path : Bytes} {data : Buffer} {overwrite : Bool} {env : Nat → ChunkEnv}

/-- If the write returns OK, a read that follows it, with all DataNodes reachable, returns the data. -/
def NoFalseSuccess (c : Cluster) (blockSize : Int64) (path : Bytes) (data : Buffer) (overwrite : Bool)
    (env : Nat → ChunkEnv) : Prop :=
  ∀ c', c.writeFile blockSize path data overwrite env = some (c', .OK) → c'.read path = (.OK, data.1)

theorem noFalseSuccess_of_run {c' : Cluster} (h : c.writeFile blockSize path data overwrite env = some (c', .OK)) :
    NoFalseSuccess c blockSize path data overwrite env ↔ c'.read path = (.OK, data.1) := by
  refine ⟨fun hn => hn c' h, fun hread c'' h' => ?_⟩
  rw [h] at h'
  cases h'
  exact hread

/-- An accepted write reads back exactly when every chunk was stored whole. -/
theorem noFalseSuccess_accepted (hk : 0 < chunkLen blockSize) (ht : TreeOk c.ns.tree)
    (hacc : c.ns.Accepts path overwrite) (hne : data.1 ≠ [])
    (ha : ∀ i < blockCount blockSize data, (env i).rpc = .answered)
    (hfr : FreshIds c env 0 (blockCount blockSize data)) :
    NoFalseSuccess c blockSize path data overwrite env ↔
      ∀ i chunk, (chunks (chunkLen blockSize) data.1)[i]? = some chunk → (env i).xfer.stored chunk = some chunk := by
  obtain ⟨c', hrun, hplaced, -, hent⟩ := writeFile_accepted hk ht hacc hne ha hfr
  have hfile : entryAt c'.ns.tree (splitPath path) = some ⟨.kFile, turnIds env 0 (blockCount blockSize data)⟩ := by
    rw [hent, if_pos rfl]
  have hcontent := hplaced.content (datanodes_of_not_safe hacc.writable)
  rw [length_chunks] at hcontent
  have hpieces := pieces_eq_flatten env 0 (chunks (chunkLen blockSize) data.1)
  rw [flatten_chunks hk] at hpieces
  simp only [Nat.zero_add] at hpieces
  rw [noFalseSuccess_of_run hrun, read_file hfile, show blockCount blockSize data = count _ _ from rfl, hcontent,
    hpieces]

/-- A write locked out from an existing file appends what follows the first chunk to it. -/
theorem noFalseSuccess_locked (hk : 0 < chunkLen blockSize) (ht : TreeOk c.ns.tree)
    (hl : c.ns.startFile (env 0).id (env 0).order path overwrite = (c.ns, {}))
    (hf : IsFile c.ns.tree (splitPath path)) (hne : data.1 ≠ [])
    (ha : ∀ i < blockCount blockSize data, (env i).rpc = .answered)
    (hfr : FreshIds c env 0 (blockCount blockSize data)) :
    NoFalseSuccess c blockSize path data overwrite env ↔
      ∃ old new, c.read path = (.OK, old) ∧
        pieces env 1 (chunks (chunkLen blockSize) (data.1.drop (chunkLen blockSize))) = some new ∧
        (c.ns.datanodes.entries ≠ [] ∨ data.1.length ≤ chunkLen blockSize) ∧ old ++ new = data.1 := by
  obtain ⟨c', hrun, hplaced, -, hent⟩ := writeFile_refused_file hk ht hl hf hne ha hfr
  obtain ⟨bl, hbl⟩ := hf
  have hfile := hent (splitPath path)
  rw [if_pos rfl, hbl, Option.map_some] at hfile
  -- the old blocks read as before
  have hkept : c'.content bl = c.content bl := by
    refine content_congr fun id hid => hplaced.blockData_kept ?_
    rw [length_chunks, mem_turnIds]
    rintro ⟨i, hi, rfl⟩
    have hcount := count_drop hk hne
    have := (hfr.fresh (i + 1) (by unfold blockCount; omega)).tree _ bl hbl
    rw [show 0 + (i + 1) = 1 + i by omega] at this
    exact this hid
  -- the new blocks read as their pieces, if there is anything to read
  have hnew : c'.content (turnIds env 1 (chunks (chunkLen blockSize) (data.1.drop (chunkLen blockSize))).length) =
      if c.ns.datanodes.entries ≠ [] ∨ data.1.length ≤ chunkLen blockSize then
        pieces env 1 (chunks (chunkLen blockSize) (data.1.drop (chunkLen blockSize)))
      else none := by
    by_cases hd : c.ns.datanodes.entries = []
    · by_cases hlen : data.1.length ≤ chunkLen blockSize
      · rw [if_pos (.inr hlen), List.drop_of_length_le hlen, chunks_nil hk]; rfl
      · have hrest : data.1.drop (chunkLen blockSize) ≠ [] := fun hn => hlen (List.drop_eq_nil_iff.1 hn)
        rw [if_neg fun h => h.elim (fun h => h hd) hlen]
        have hnone := hplaced.blockData_none hd (j := 0) (by rw [chunks_cons hk hrest]; simp)
        rw [chunks_cons hk hrest, List.length_cons, turnIds_succ, Cluster.content,
          show c'.blockData (env 1).id = none from hnone]
        rfl
    · rw [if_pos (.inl hd)]; exact hplaced.content hd
  rw [noFalseSuccess_of_run hrun, read_file hfile, ← length_chunks, content_append, hkept, hnew]
  constructor
  · intro h
    obtain ⟨old, hold, h⟩ := Option.bind_eq_some_iff.1 h
    obtain ⟨new, hnew', heq⟩ := Option.map_eq_some_iff.1 h
    split at hnew'
    · rename_i hcond
      exact ⟨old, new, (read_file hbl old).2 hold, hnew', hcond, heq⟩
    · cases hnew'
  · rintro ⟨old, new, hold, hnew', hcond, heq⟩
    rw [(read_file hbl old).1 hold, Option.bind_some, if_pos hcond, hnew', Option.map_some, heq]

/-- When the path is no file after the refused call, the write still returns OK, and the path reads as
empty. -/
theorem falseSuccess_not_file (hk : 0 < chunkLen blockSize) {t : INode}
    (hstart : c.ns.startFile (env 0).id (env 0).order path overwrite = ({ c.ns with tree := t }, {}))
    (hf : ¬ IsFile t (splitPath path)) (hne : data.1 ≠ [])
    (ha : ∀ i < blockCount blockSize data, (env i).rpc = .answered) :
    ¬ NoFalseSuccess c blockSize path data overwrite env := by
  rw [noFalseSuccess_of_run (writeFile_refused_not_file hk hstart hf hne ha), read_not_file hf]
  intro h
  exact hne (Prod.mk.inj h).2.symm

/-- Exactly when a write does not report a success that a read then contradicts: a NameNode call fails; the
data is empty and the path reads as empty; the path is accepted and every chunk is stored whole; or the
path is a file the write is locked out from, and what it reads as, followed by what is stored of the
chunks after the first, happens to be the data. -/
theorem noFalseSuccess_iff (hr : c.ns.Reachable) (hb : 0 < blockSize)
    (hfr : FreshIds c env 0 (blockCount blockSize data)) :
    NoFalseSuccess c blockSize path data overwrite env ↔
      (∃ i < blockCount blockSize data, (env i).rpc ≠ .answered) ∨
      (data.1 = [] ∧ c.read path = (.OK, [])) ∨
      (data.1 ≠ [] ∧ c.ns.Accepts path overwrite ∧
        ∀ i chunk, (chunks (chunkLen blockSize) data.1)[i]? = some chunk →
          (env i).xfer.stored chunk = some chunk) ∨
      (data.1 ≠ [] ∧ IsFile c.ns.tree (splitPath path) ∧ (c.ns.inSafeMode = true ∨ overwrite = false) ∧
        ∃ old new, c.read path = (.OK, old) ∧
          pieces env 1 (chunks (chunkLen blockSize) (data.1.drop (chunkLen blockSize))) = some new ∧
          (c.ns.datanodes.entries ≠ [] ∨ data.1.length ≤ chunkLen blockSize) ∧ old ++ new = data.1) := by
  have hk := chunkLen_pos hb
  have ht := hr.tree_ok
  by_cases hfail : ∃ i < blockCount blockSize data, (env i).rpc ≠ .answered
  · refine ⟨fun _ => .inl hfail, fun _ c' hrun => ?_⟩
    obtain ⟨c'', st, hrun', hst⟩ := @writeFile_failed c blockSize path data overwrite env hk hfail
    rw [hrun] at hrun'
    cases hrun'
    exact absurd rfl hst
  have ha : ∀ i < blockCount blockSize data, (env i).rpc = .answered := by
    intro i hi
    by_contra hbad
    exact hfail ⟨i, hi, hbad⟩
  rw [or_iff_right hfail]
  by_cases hne : data.1 = []
  · rw [noFalseSuccess_of_run (writeFile_empty hne), hne]
    constructor
    · exact fun h => .inl ⟨rfl, h⟩
    · rintro (⟨-, h⟩ | ⟨h, -⟩ | ⟨h, -⟩)
      · exact h
      · exact absurd rfl h
      · exact absurd rfl h
  rw [or_iff_right fun h => hne h.1]
  by_cases hacc : c.ns.Accepts path overwrite
  · rw [noFalseSuccess_accepted hk ht hacc hne ha hfr]
    constructor
    · exact fun h => .inl ⟨hne, hacc, h⟩
    · rintro (⟨-, -, h⟩ | ⟨-, ⟨bl, hbl⟩, hlock, -⟩)
      · exact h
      · exact absurd hlock (FsNamesystem.not_locked hacc.writable hacc.free hbl)
  rw [or_iff_right fun h => hacc h.2.1]
  rcases c.ns.locked_or_tries path overwrite with hl | ⟨hs, htry⟩
  · have hstart := FsNamesystem.startFile_locked hl (env 0).id (env 0).order
    by_cases hf : IsFile c.ns.tree (splitPath path)
    · rw [noFalseSuccess_locked hk ht hstart hf hne ha hfr]
      have hlock : c.ns.inSafeMode = true ∨ overwrite = false := hl.imp_right (·.1)
      exact ⟨fun h => ⟨hne, hf, hlock, h⟩, fun h => h.2.2.2⟩
    · exact ⟨fun h => absurd h (falseSuccess_not_file hk hstart hf hne ha), fun h => absurd h.2.1 hf⟩
  · obtain ⟨t, -, hstart, hf⟩ := FsNamesystem.startFile_refused ht hs htry hacc (env 0).id (env 0).order
    refine ⟨fun h => absurd h (falseSuccess_not_file hk hstart hf hne ha), ?_⟩
    rintro ⟨-, ⟨bl, hbl⟩, hlock, -⟩
    exact absurd hlock (FsNamesystem.not_locked hs htry hbl)

end Success

/-- A turn of a healthy cluster that generates the id `i`. -/
def healthyTurn (i : Nat) : ChunkEnv where
  rpc := .answered
  id := Int64.ofNat i
  order := .insertion
  xfer := .complete .written
  confirm _ := .answered

theorem healthyTurn_healthy (i : Nat) : (healthyTurn i).Healthy := ⟨rfl, rfl⟩

/-- A DataNode on the local host. -/
def localNode (port : Int32) : DataNodeInfo :=
  { name := bytes "127.0.0.1:" ++ toStr port.toInt64, host := bytes "127.0.0.1", port }

/-- A cluster without files whose NameNode knows the given DataNodes. -/
def freshCluster (nodes : List DataNodeInfo) : Cluster where
  ns := nodes.foldl (fun s dn => s.registerDataNode 0 dn) {}
  stores _ := { dataDir := bytes "/data" }

theorem freshCluster_reachable (nodes : List DataNodeInfo) : (freshCluster nodes).ns.Reachable := by
  have : ∀ (nodes : List DataNodeInfo) (s : FsNamesystem), s.Reachable →
      (nodes.foldl (fun s dn => s.registerDataNode 0 dn) s).Reachable := by
    intro nodes
    induction nodes with
    | nil => exact fun s h => h
    | cons dn nodes ih => exact fun s h => ih _ (.registerDataNode 0 dn h)
  exact this nodes {} .fresh

theorem freshCluster_tree (nodes : List DataNodeInfo) : (freshCluster nodes).ns.tree = emptyTree := by
  have : ∀ (nodes : List DataNodeInfo) (s : FsNamesystem),
      (nodes.foldl (fun s dn => s.registerDataNode 0 dn) s).tree = s.tree := by
    intro nodes
    induction nodes with
    | nil => exact fun s => rfl
    | cons dn nodes ih => exact fun s => ih _
  exact this nodes {}

theorem freshIds_two (nodes : List DataNodeInfo) {m : Nat} (hm : m ≤ 2) :
    FreshIds (freshCluster nodes) healthyTurn 0 m := by
  refine ⟨fun i _ => Cluster.fresh_of_empty (freshCluster_tree nodes) (fun _ _ => rfl) _, fun i hi j hj h => ?_⟩
  have hi' : i = 0 ∨ i = 1 := by omega
  have hj' : j = 0 ∨ j = 1 := by omega
  rcases hi' with rfl | rfl <;> rcases hj' with rfl | rfl
  · rfl
  · exact absurd h (by decide)
  · exact absurd h (by decide)
  · rfl

def threeBytes : Buffer := ⟨[1, 2, 3], lt_maxSize (by decide)⟩

theorem noFalseSuccess_threeBytes :
    NoFalseSuccess (freshCluster [localNode 9000]) 2 (bytes "/f") threeBytes true healthyTurn := by
  have hacc : (freshCluster [localNode 9000]).ns.Accepts (bytes "/f") true :=
    ⟨by decide, .inl rfl, by decide, noFileOn_nil emptyTree_ok⟩
  exact (noFalseSuccess_iff (freshCluster_reachable _) (by decide) (freshIds_two _ (by decide))).2
    (.inr (.inr (.inl ⟨by decide, hacc, fun i chunk _ => (healthyTurn_healthy i).stored chunk⟩)))

/-- Without a registered DataNode a write of one byte returns OK, and the path then reads as empty. -/
theorem falseSuccess_without_datanodes :
    ¬ ∀ (c : Cluster) (blockSize : Int64) (path : Bytes) (data : Buffer) (overwrite : Bool) (env : Nat → ChunkEnv),
      c.ns.Reachable → 0 < blockSize → FreshIds c env 0 (blockCount blockSize data) →
        NoFalseSuccess c blockSize path data overwrite env := by
  intro h
  have hread := h (freshCluster []) 1 (bytes "/f") ⟨[7], lt_maxSize (by decide)⟩ true healthyTurn
    (freshCluster_reachable _) (by decide) (freshIds_two _ (by decide)) (freshCluster []) rfl
  rw [show (freshCluster []).read (bytes "/f") = (.OK, []) from rfl] at hread
  cases hread

/-! ## Refusal -/

section Refusal

variable {c : Cluster} {blockSize : Int64} {path : Bytes} {data : Buffer} {env : Nat → ChunkEnv}

/-- Every path has the block list and the readable content it had. -/
def Unharmed (c c' : Cluster) : Prop :=
  ∀ q, (c'.ns.getBlocks q).blocks = (c.ns.getBlocks q).blocks ∧ c'.read q = c.read q

theorem Unharmed.refl (c : Cluster) : Unharmed c c := fun _ => ⟨rfl, rfl⟩

/-- A longer block list is harm. -/
theorem not_unharmed {c' : Cluster} {bl more : List Int64} (hmore : more ≠ [])
    (h : entryAt c.ns.tree (splitPath path) = some ⟨.kFile, bl⟩)
    (h' : entryAt c'.ns.tree (splitPath path) = some ⟨.kFile, bl ++ more⟩) : ¬ Unharmed c c' := by
  intro hu
  have hlen := congrArg List.length (hu path).1
  rw [FsNamesystem.getBlocks_file h, FsNamesystem.getBlocks_file h'] at hlen
  simp only [List.length_map, List.length_append] at hlen
  exact hmore (List.length_eq_zero_iff.1 (by omega))

/-- On a file the turns after the first only add to its block list, whatever they meet. -/
theorem writeLoop_extends (hk : 0 < chunkLen blockSize) {overwrite : Bool} :
    ∀ (fuel : Nat) (c : Cluster) (n : Nat) (rest : Bytes) (bl : List Int64), rest.length < fuel → 0 < n →
      entryAt c.ns.tree (splitPath path) = some ⟨.kFile, bl⟩ →
      ∃ c' st more, c.writeLoop blockSize path overwrite env fuel n rest = some (c', st) ∧
        entryAt c'.ns.tree (splitPath path) = some ⟨.kFile, bl ++ more⟩ ∧
        (rest ≠ [] → (env n).rpc.delivered = true → more ≠ [])
  | 0, _, _, _, _, h, _, _ => by omega
  | fuel + 1, c, n, rest, bl, hfuel, hn, hbl => by
    by_cases hne : rest = []
    · subst hne
      exact ⟨c, .OK, [], writeLoop_done fuel c n, by rw [List.append_nil]; exact hbl, fun h => absurd rfl h⟩
    · have hpos := List.length_pos_iff.2 hne
      have halloc : (allocateBlock (n = 0) (env n).id (env n).order path overwrite c.ns).1.tree =
          pushBlockAt c.ns.tree (splitPath path) (env n).id := by
        rw [allocateBlock, if_neg (by simp; omega), FsNamesystem.addBlock_file ⟨bl, hbl⟩]
      have hpush : entryAt (pushBlockAt c.ns.tree (splitPath path) (env n).id) (splitPath path) =
          some ⟨.kFile, bl ++ [(env n).id]⟩ := by
        rw [entryAt_pushBlockAt, if_pos rfl, hbl]; rfl
      by_cases ha : (env n).rpc = .answered
      · rw [writeLoop_answered hne ha]
        obtain ⟨c', st, more, hrun, hent, -⟩ := writeLoop_extends hk fuel
          (Cluster.deliver { c with ns := (allocateBlock (n = 0) (env n).id (env n).order path overwrite c.ns).1 }
            (allocateBlock (n = 0) (env n).id (env n).order path overwrite c.ns).2
            (rest.take (chunkLen blockSize)) (env n))
          (n + 1) (rest.drop (chunkLen blockSize)) (bl ++ [(env n).id])
          (by rw [List.length_drop]; omega) (by omega) (by rw [deliver_tree, halloc]; exact hpush)
        refine ⟨c', st, [(env n).id] ++ more, hrun, by rw [← List.append_assoc]; exact hent, fun _ _ => by simp⟩
      · obtain ⟨st, -, hrun⟩ := @writeLoop_failed_turn blockSize path overwrite env c n rest hne ha fuel
        cases hd : (env n).rpc.delivered with
        | true =>
          refine ⟨_, st, [(env n).id], hrun, ?_, fun _ _ => by simp⟩
          simp only [hd, if_true, halloc]; exact hpush
        | false =>
          refine ⟨_, st, [], hrun, ?_, fun _ h => by cases h⟩
          simp only [hd, Bool.false_eq_true, if_false, List.append_nil]; exact hbl

/-- A write without `overwrite` on an existing file leaves all files alone exactly when the data fits into
one block, the first call fails, or the call for the second block does not reach the NameNode. -/
theorem refused_write_unharmed_iff (hb : 0 < blockSize) (hf : IsFile c.ns.tree (splitPath path)) :
    ∃ c' st, c.writeFile blockSize path data false env = some (c', st) ∧
      (Unharmed c c' ↔
        data.1.length ≤ blockSize.toUInt64.toNat ∨ (env 0).rpc ≠ .answered ∨ (env 1).rpc.delivered = false) := by
  have hk := chunkLen_pos hb
  change ∃ c' st, _ ∧ (_ ↔ data.1.length ≤ chunkLen blockSize ∨ _)
  obtain ⟨bl, hbl⟩ := hf
  have hlocked : allocateBlock ((0 : Nat) = 0) (env 0).id (env 0).order path false c.ns = (c.ns, {}) := by
    rw [allocateBlock, if_pos (by simp)]
    exact FsNamesystem.startFile_locked (.inr ⟨rfl, by rw [hbl]; simp⟩) _ _
  by_cases hne : data.1 = []
  · exact ⟨c, .OK, writeFile_empty hne, fun _ => .inl (by rw [hne]; simp), fun _ => Unharmed.refl c⟩
  by_cases ha : (env 0).rpc = .answered
  · have hrun : c.writeFile blockSize path data false env =
        c.writeLoop blockSize path false env data.1.length 1 (data.1.drop (chunkLen blockSize)) := by
      rw [Cluster.writeFile, writeLoop_answered hne ha, hlocked, deliver_refused]
    have hpos := List.length_pos_iff.2 hne
    by_cases hlen : data.1.length ≤ chunkLen blockSize
    · refine ⟨c, .OK, ?_, fun _ => .inl hlen, fun _ => Unharmed.refl c⟩
      rw [hrun, List.drop_of_length_le hlen, show data.1.length = data.1.length - 1 + 1 by omega]
      exact writeLoop_done _ c 1
    have hrest : data.1.drop (chunkLen blockSize) ≠ [] := fun hn => hlen (List.drop_eq_nil_iff.1 hn)
    rw [or_iff_right hlen, or_iff_right (fun h => h ha), hrun]
    cases hd : (env 1).rpc.delivered with
    | true =>
      obtain ⟨c', st, more, hrun', hent, hmore⟩ := @writeLoop_extends blockSize path env hk false data.1.length c 1
        (data.1.drop (chunkLen blockSize)) bl (by rw [List.length_drop]; omega) (by omega) hbl
      exact ⟨c', st, hrun', fun h => absurd h (not_unharmed (hmore hrest hd) hbl hent), fun h => by cases h⟩
    | false =>
      have hbad : (env 1).rpc ≠ .answered := by
        intro h; rw [h] at hd; cases hd
      obtain ⟨st, -, hrun'⟩ := @writeLoop_failed_turn blockSize path false env c 1
        (data.1.drop (chunkLen blockSize)) hrest hbad (data.1.length - 1)
      rw [show data.1.length - 1 + 1 = data.1.length by omega, hd] at hrun'
      exact ⟨c, st, hrun', fun _ => rfl, fun _ => Unharmed.refl c⟩
  · obtain ⟨st, -, hrun⟩ := @writeLoop_failed_turn blockSize path false env c 0 data.1 hne ha data.1.length
    rw [hlocked, ite_self] at hrun
    exact ⟨c, st, hrun, fun _ => .inr (.inl ha), fun _ => Unharmed.refl c⟩

end Refusal

/-- A cluster with one DataNode and a file of one block at `/f`. -/
def oneFileCluster : Cluster where
  ns := ((freshCluster [localNode 9000]).ns.startFile 5 .insertion (bytes "/f") true).1
  stores _ := { dataDir := bytes "/data" }

theorem oneFileCluster_reachable : oneFileCluster.ns.Reachable :=
  .startFile _ _ _ _ (freshCluster_reachable [localNode 9000])

theorem oneFileCluster_file : IsFile oneFileCluster.ns.tree (splitPath (bytes "/f")) := ⟨[5], rfl⟩

theorem refused_write_oneFileCluster :
    ∃ c' st, oneFileCluster.writeFile 2 (bytes "/f") threeBytes false healthyTurn = some (c', st) ∧
      (Unharmed oneFileCluster c' ↔ threeBytes.1.length ≤ (2 : Int64).toUInt64.toNat ∨
        (healthyTurn 0).rpc ≠ .answered ∨ (healthyTurn 1).rpc.delivered = false) :=
  refused_write_unharmed_iff (by decide) oneFileCluster_file

/-- Three bytes in blocks of two, refused on an existing file, add their second block to it. -/
theorem refused_write_harms :
    ¬ ∀ (c : Cluster) (blockSize : Int64) (path : Bytes) (data : Buffer) (env : Nat → ChunkEnv) (c' : Cluster)
      (st : Status), c.ns.Reachable → 0 < blockSize → IsFile c.ns.tree (splitPath path) →
        c.writeFile blockSize path data false env = some (c', st) → Unharmed c c' := by
  intro h
  obtain ⟨⟨c', st⟩, hrun⟩ : ∃ r, oneFileCluster.writeFile 2 (bytes "/f") threeBytes false healthyTurn = some r :=
    ⟨_, rfl⟩
  have hblocks := (h _ _ _ _ _ c' st oneFileCluster_reachable (by decide) oneFileCluster_file hrun (bytes "/f")).1
  have htwo : (oneFileCluster.writeFile 2 (bytes "/f") threeBytes false healthyTurn).map
      (fun r => (r.1.ns.getBlocks (bytes "/f")).blocks.length) = some 2 := rfl
  rw [hrun, Option.map_some, hblocks] at htwo
  exact absurd htwo (by decide)

/-! ## Locations -/

section Locations

variable {c : Cluster} {blockSize : Int64} {path : Bytes} {data : Buffer} {env : Nat → ChunkEnv}

/-- Every listed location of every block of the path holds the bytes of its chunk. -/
def TruthfulLocations (c : Cluster) (path : Bytes) (cs : List Bytes) : Prop :=
  ∀ (i : Nat) (block : Block) (dns : List DataNodeInfo), (c.ns.getBlocks path).blocks[i]? = some block →
    (c.ns.getBlocks path).locations[i]? = some dns →
      ∃ chunk, cs[i]? = some chunk ∧ ∀ dn ∈ dns, (c.stores dn.address).held block.blockId = some chunk

/-- The registered DataNodes have different addresses. -/
def DistinctAddresses (s : FsNamesystem) : Prop := (s.datanodes.entries.map fun e => e.2.address).Nodup

theorem nodup_values_address {s : FsNamesystem} (h : DistinctAddresses s) (order : DataNodeOrder) :
    ((order.values s.datanodes).map DataNodeInfo.address).Nodup := by
  rw [HashMap.Enumeration.values, List.map_map]
  exact (((order.perm s.datanodes).map _).nodup_iff).2 h

/-- The locations of a file are truthful when those of each block of its list are. -/
theorem truthful_file {bl : List Int64} {cs : List Bytes}
    (h : entryAt c.ns.tree (splitPath path) = some ⟨.kFile, bl⟩) :
    TruthfulLocations c path cs ↔ ∀ (i : Nat) (id : Int64), bl[i]? = some id →
      ∃ chunk, cs[i]? = some chunk ∧ ∀ dn ∈ c.ns.locations id, (c.stores dn.address).held id = some chunk := by
  unfold TruthfulLocations
  rw [FsNamesystem.getBlocks_file h]
  constructor
  · intro ht i id hid
    exact ht i { blockId := id, numBytes := 0 } (c.ns.locations id) (by rw [List.getElem?_map, hid]; rfl)
      (by rw [List.getElem?_map, hid]; rfl)
  · intro ht i block dns hb hdns
    rw [List.getElem?_map, Option.map_eq_some_iff] at hb hdns
    obtain ⟨id, hid, rfl⟩ := hb
    obtain ⟨id', hid', rfl⟩ := hdns
    rw [hid] at hid'
    cases hid'
    exact ht i id hid

/-- A placed block is listed at its targets and held by the first of them only: every listed location holds
it exactly when there is one DataNode. -/
theorem Placed.truthful_iff {c' : Cluster} {n : Nat} {cs : List Bytes} (hp : Placed env n cs c c')
    (hn : c.ns.datanodes.entries ≠ []) (hd : DistinctAddresses c.ns) {j : Nat} {ch : Bytes} (hj : cs[j]? = some ch)
    (hh : (env (n + j)).Healthy) (chunk : Bytes) :
    (∀ dn ∈ c'.ns.locations (env (n + j)).id, (c'.stores dn.address).held (env (n + j)).id = some chunk) ↔
      c.ns.datanodes.entries.length = 1 ∧ chunk = ch := by
  have hlt : j < cs.length := (List.getElem?_eq_some_iff.1 hj).1
  have hheld := hp.blocks j ch hj
  rw [hh.stored] at hheld
  rw [hp.locations j hlt]
  have hlen : (c.targets (env (n + j))).length = min 3 c.ns.datanodes.entries.length :=
    FsNamesystem.length_chooseTargets _ _
  have hnodup : ((c.targets (env (n + j))).map DataNodeInfo.address).Nodup := by
    rw [Cluster.targets, FsNamesystem.chooseTargets_eq, List.map_take]
    exact (nodup_values_address hd _).sublist (List.take_sublist _ _)
  cases htg : c.targets (env (n + j)) with
  | nil => exact absurd htg (FsNamesystem.chooseTargets_ne_nil hn _)
  | cons dn rest =>
    rw [htg] at hheld hlen hnodup
    have hfirst : (c'.stores dn.address).held (env (n + j)).id = some ch := by
      rw [hheld]; exact if_pos rfl
    cases rest with
    | nil =>
      have hone : c.ns.datanodes.entries.length = 1 := by rw [List.length_singleton] at hlen; omega
      constructor
      · intro h
        have := h dn (List.mem_singleton_self dn)
        rw [hfirst] at this
        exact ⟨hone, (Option.some.inj this).symm⟩
      · rintro ⟨-, rfl⟩ dn' hdn'
        rw [List.mem_singleton.1 hdn', hfirst]
    | cons dn1 rest =>
      constructor
      · -- the second target has another address than the first
        intro h
        have hsecond := h dn1 (by simp)
        rw [hheld, if_neg] at hsecond
        · cases hsecond
        · intro hsame
          simp only [List.head?_cons, Option.map_some, Option.some.injEq] at hsame
          simp [hsame] at hnodup
      · rintro ⟨hone, -⟩
        rw [hone, List.length_cons, List.length_cons] at hlen
        omega

theorem getElem?_turnIds {n m i : Nat} : (turnIds env n m)[i]? = if i < m then some (env (n + i)).id else none := by
  rw [turnIds, List.getElem?_map]
  split
  · rename_i hi; rw [List.getElem?_range hi]; rfl
  · rename_i hi; rw [List.getElem?_eq_none (by rw [List.length_range]; omega)]; rfl

/-- The blocks of an accepted write. -/
theorem truthful_accepted {c' : Cluster} {cs : List Bytes} (hp : Placed env 0 cs c c')
    (hn : c.ns.datanodes.entries ≠ []) (hd : DistinctAddresses c.ns) (hh : ∀ i < cs.length, (env i).Healthy)
    (hcs : cs ≠ []) (hent : entryAt c'.ns.tree (splitPath path) = some ⟨.kFile, turnIds env 0 cs.length⟩) :
    TruthfulLocations c' path cs ↔ c.ns.datanodes.entries.length = 1 := by
  have hone : ∀ i ch, cs[i]? = some ch → ∀ chunk,
      (∀ dn ∈ c'.ns.locations (env (0 + i)).id, (c'.stores dn.address).held (env (0 + i)).id = some chunk) ↔
        c.ns.datanodes.entries.length = 1 ∧ chunk = ch := by
    intro i ch hi chunk
    refine hp.truthful_iff hn hd hi ?_ chunk
    rw [Nat.zero_add]; exact hh i (List.getElem?_eq_some_iff.1 hi).1
  rw [truthful_file hent]
  constructor
  · intro h
    obtain ⟨ch, rest, rfl⟩ := List.exists_cons_of_ne_nil hcs
    obtain ⟨chunk, -, hall⟩ := h 0 (env (0 + 0)).id (by rw [getElem?_turnIds, if_pos (by simp)])
    exact ((hone 0 ch rfl chunk).1 hall).1
  · intro h i id hi
    rw [getElem?_turnIds] at hi
    split at hi
    · rename_i hlt
      cases hi
      exact ⟨cs[i], List.getElem?_eq_getElem hlt, (hone i _ (List.getElem?_eq_getElem hlt) _).2 ⟨h, rfl⟩⟩
    · cases hi

/-- The blocks of a file that a write was locked out from: those it had, and those appended for the chunks
after the first. -/
theorem truthful_locked {c' : Cluster} {cs : List Bytes} {bl : List Int64} (hp : Placed env 1 (cs.drop 1) c c')
    (hn : c.ns.datanodes.entries ≠ []) (hd : DistinctAddresses c.ns)
    (hh : ∀ j < (cs.drop 1).length, (env (1 + j)).Healthy)
    (hold : entryAt c.ns.tree (splitPath path) = some ⟨.kFile, bl⟩)
    (hnew : ∀ id ∈ bl, id ∉ turnIds env 1 (cs.drop 1).length)
    (hent : entryAt c'.ns.tree (splitPath path) = some ⟨.kFile, bl ++ turnIds env 1 (cs.drop 1).length⟩) :
    TruthfulLocations c' path cs ↔ TruthfulLocations c path cs ∧
      ∀ j, j + 1 < cs.length → c.ns.datanodes.entries.length = 1 ∧ cs[bl.length + j]? = cs[j + 1]? := by
  have hget : ∀ j, (cs.drop 1)[j]? = cs[j + 1]? := fun j => by rw [List.getElem?_drop, Nat.add_comm]
  have hlen : (cs.drop 1).length = cs.length - 1 := List.length_drop
  have hkept : ∀ id ∈ bl, ∀ chunk,
      (∀ dn ∈ c'.ns.locations id, (c'.stores dn.address).held id = some chunk) ↔
        ∀ dn ∈ c.ns.locations id, (c.stores dn.address).held id = some chunk := by
    intro id hid chunk
    rw [hp.keptLocations id (hnew id hid)]
    refine forall_congr' fun dn => forall_congr' fun _ => ?_
    rw [hp.keptBlocks id (hnew id hid)]
  rw [truthful_file hent, truthful_file hold]
  constructor
  · intro h
    refine ⟨fun i id hi => ?_, fun j hj => ?_⟩
    · obtain ⟨chunk, hc, hall⟩ := h i id (by
        rw [List.getElem?_append_left (List.getElem?_eq_some_iff.1 hi).1]; exact hi)
      exact ⟨chunk, hc, (hkept id (List.mem_of_getElem? hi) chunk).1 hall⟩
    · obtain ⟨chunk, hc, hall⟩ := h (bl.length + j) (env (1 + j)).id (by
        rw [List.getElem?_append_right (by omega), Nat.add_sub_cancel_left, getElem?_turnIds, if_pos (by omega)])
      have hj' : (cs.drop 1)[j]? = some cs[j + 1] := by rw [hget, List.getElem?_eq_getElem hj]
      obtain ⟨hone, rfl⟩ := (hp.truthful_iff hn hd hj' (hh j (by omega)) chunk).1 hall
      exact ⟨hone, by rw [hc, List.getElem?_eq_getElem hj]⟩
  · rintro ⟨holdOk, hnewOk⟩ i id hi
    by_cases hib : i < bl.length
    · rw [List.getElem?_append_left hib] at hi
      obtain ⟨chunk, hc, hall⟩ := holdOk i id hi
      exact ⟨chunk, hc, (hkept id (List.mem_of_getElem? hi) chunk).2 hall⟩
    · obtain ⟨j, rfl⟩ := Nat.exists_eq_add_of_le (Nat.le_of_not_lt hib)
      rw [List.getElem?_append_right (by omega), Nat.add_sub_cancel_left, getElem?_turnIds] at hi
      split at hi
      · rename_i hj
        cases hi
        obtain ⟨hone, hsame⟩ := hnewOk j (by omega)
        have hj' : (cs.drop 1)[j]? = some (cs.drop 1)[j] := List.getElem?_eq_getElem hj
        exact ⟨_, by rw [hsame, ← hget, hj'], (hp.truthful_iff hn hd hj' (hh j hj) _).2 ⟨hone, rfl⟩⟩
      · cases hi

/-- Exactly when the locations that a healthy write leaves are truthful. An accepted write: when there is
one DataNode only. A write locked out from a file, in safe mode or without `overwrite`: when the locations
of the file were truthful for the new data, and the chunks appended to it, if there are any, go to the
only DataNode and stand where the data has them. Otherwise the path has no blocks. -/
theorem truthfulLocations_iff {overwrite : Bool} (hr : c.ns.Reachable) (hn : c.ns.datanodes.entries ≠ [])
    (hd : DistinctAddresses c.ns) (hb : 0 < blockSize) (hne : data.1 ≠ [])
    (hh : ∀ i < blockCount blockSize data, (env i).Healthy)
    (hfr : FreshIds c env 0 (blockCount blockSize data)) :
    ∃ c', c.writeFile blockSize path data overwrite env = some (c', .OK) ∧
      (TruthfulLocations c' path (chunks blockSize.toUInt64.toNat data.1) ↔
        (c.ns.Accepts path overwrite → c.ns.datanodes.entries.length = 1) ∧
        (c.ns.inSafeMode = true ∨ overwrite = false → ∀ bl, entryAt c.ns.tree (splitPath path) = some ⟨.kFile, bl⟩ →
          TruthfulLocations c path (chunks blockSize.toUInt64.toNat data.1) ∧
          ∀ j, j + 1 < (chunks blockSize.toUInt64.toNat data.1).length → c.ns.datanodes.entries.length = 1 ∧
            (chunks blockSize.toUInt64.toNat data.1)[bl.length + j]? =
              (chunks blockSize.toUInt64.toNat data.1)[j + 1]?)) := by
  have hk := chunkLen_pos hb
  have ht := hr.tree_ok
  have ha : ∀ i < blockCount blockSize data, (env i).rpc = .answered := fun i hi => (hh i hi).rpc
  rw [show blockSize.toUInt64.toNat = chunkLen blockSize from rfl]
  have hlen : (chunks (chunkLen blockSize) data.1).length = blockCount blockSize data := length_chunks _ _
  by_cases hacc : c.ns.Accepts path overwrite
  · obtain ⟨c', hrun, hplaced, -, hent⟩ := writeFile_accepted hk ht hacc hne ha hfr
    refine ⟨c', hrun, ?_⟩
    rw [truthful_accepted hplaced hn hd (by rw [hlen]; exact hh) (fun h => hne ((chunks_eq_nil hk).1 h))
      (by rw [hent, if_pos rfl, hlen])]
    refine ⟨fun h => ⟨fun _ => h, fun hlock bl hbl => ?_⟩, fun h => h.1 hacc⟩
    exact absurd hlock (FsNamesystem.not_locked hacc.writable hacc.free hbl)
  · rcases c.ns.locked_or_tries path overwrite with hl | ⟨hs, htry⟩
    · have hstart := FsNamesystem.startFile_locked hl (env 0).id (env 0).order
      have hlock : c.ns.inSafeMode = true ∨ overwrite = false := hl.imp_right (·.1)
      by_cases hf : IsFile c.ns.tree (splitPath path)
      · obtain ⟨c', hrun, hplaced, -, hent⟩ := writeFile_refused_file hk ht hstart hf hne ha hfr
        obtain ⟨bl, hbl⟩ := hf
        have hdrop : chunks (chunkLen blockSize) (data.1.drop (chunkLen blockSize)) =
            (chunks (chunkLen blockSize) data.1).drop 1 := by rw [chunks_cons hk hne]; rfl
        have hcount := count_drop hk hne
        have hlen1 : ((chunks (chunkLen blockSize) data.1).drop 1).length =
            count (chunkLen blockSize) (data.1.drop (chunkLen blockSize)).length := by
          rw [← hdrop, length_chunks]
        rw [hdrop] at hplaced
        refine ⟨c', hrun, ?_⟩
        rw [truthful_locked hplaced hn hd (fun j hj => hh (1 + j) (by unfold blockCount; omega)) hbl ?_
          (by rw [hent, if_pos rfl, hbl, hlen1]; rfl)]
        · refine ⟨fun h => ⟨fun h' => absurd h' hacc, fun _ bl' hbl' => ?_⟩, fun h => h.2 hlock bl hbl⟩
          rw [hbl] at hbl'
          cases hbl'
          exact h
        · intro id hid hmem
          obtain ⟨i, hi, rfl⟩ := mem_turnIds.1 hmem
          have := (hfr.fresh (i + 1) (by unfold blockCount; omega)).tree _ bl hbl
          rw [show 0 + (i + 1) = 1 + i by omega] at this
          exact this hid
      · refine ⟨_, writeFile_refused_not_file hk hstart hf hne ha, fun _ => ⟨fun h => absurd h hacc,
          fun _ bl hbl => absurd ⟨bl, hbl⟩ hf⟩, fun _ i block dns hblk => ?_⟩
        rw [FsNamesystem.getBlocks_not_file hf] at hblk
        cases hblk
    · obtain ⟨t, -, hstart, hf⟩ := FsNamesystem.startFile_refused ht hs htry hacc (env 0).id (env 0).order
      refine ⟨_, writeFile_refused_not_file hk hstart hf hne ha, fun _ => ⟨fun h => absurd h hacc,
        fun hlock bl hbl => ?_⟩, fun _ i block dns hblk => ?_⟩
      · exact absurd hlock (FsNamesystem.not_locked hs htry hbl)
      · rw [FsNamesystem.getBlocks_not_file hf] at hblk
        cases hblk

end Locations

theorem truthfulLocations_threeBytes :
    ∃ c', (freshCluster [localNode 9000]).writeFile 2 (bytes "/f") threeBytes true healthyTurn = some (c', .OK) ∧
      TruthfulLocations c' (bytes "/f") (chunks 2 threeBytes.1) := by
  obtain ⟨c', hrun, hiff⟩ := @truthfulLocations_iff (freshCluster [localNode 9000]) 2 (bytes "/f") threeBytes
    healthyTurn true (freshCluster_reachable _) (by decide) (by unfold DistinctAddresses; decide) (by decide)
    (by decide) (fun i _ => healthyTurn_healthy i) (freshIds_two _ (by decide))
  refine ⟨c', hrun, hiff.2 ⟨fun _ => rfl, fun hlock => ?_⟩⟩
  rcases hlock with h | h
  · exact absurd h (by decide)
  · cases h

/-- With two DataNodes the second one is listed for every block and holds none. -/
theorem false_location_second_datanode :
    ¬ ∀ (c : Cluster) (blockSize : Int64) (path : Bytes) (data : Buffer) (overwrite : Bool) (env : Nat → ChunkEnv)
      (c' : Cluster), c.ns.Reachable → c.ns.datanodes.entries ≠ [] → DistinctAddresses c.ns → 0 < blockSize →
        data.1 ≠ [] → (∀ i < blockCount blockSize data, (env i).Healthy) →
        FreshIds c env 0 (blockCount blockSize data) →
        c.writeFile blockSize path data overwrite env = some (c', .OK) →
          TruthfulLocations c' path (chunks blockSize.toUInt64.toNat data.1) := by
  intro h
  obtain ⟨r, hrun⟩ : ∃ r, (freshCluster [localNode 9000, localNode 9001]).writeFile 2 (bytes "/f") threeBytes true
      healthyTurn = some (r, .OK) := ⟨_, rfl⟩
  have htrue := h _ _ _ _ _ _ r (freshCluster_reachable [localNode 9000, localNode 9001]) (by decide)
    (by unfold DistinctAddresses; decide) (by decide) (by decide) (fun i _ => healthyTurn_healthy i)
    (freshIds_two _ (by decide)) hrun
  have hview : (some (r, Status.OK)).map (fun r => ((r.1.ns.getBlocks (bytes "/f")).blocks[0]?,
      (r.1.ns.getBlocks (bytes "/f")).locations[0]?, (r.1.stores (localNode 9000).address).held 0)) =
        some (some ({} : Block), some [localNode 9001, localNode 9000], none) := by
    rw [← hrun]; rfl
  simp only [Option.map_some, Option.some.injEq, Prod.mk.injEq] at hview
  obtain ⟨chunk, -, hall⟩ := htrue 0 _ _ hview.1 hview.2.1
  have hheld := hall (localNode 9000) (by simp)
  rw [show ({} : Block).blockId = 0 from rfl, hview.2.2] at hheld
  cases hheld

end MiniHadoop.Ndfs

/-
The loop of `WriteFile`. With fresh block ids, every turn places its chunk as a block of its own: the
NameNode lists its targets, the first of them holds what the transfer left there, no other DataNode
holds the id, and every older block stays as it is. By induction over the chunks a whole write does
the same for all its blocks, in the order of the data.
-/
import MiniHadoop.Base.Chunks
import MiniHadoop.Base.Counting
import MiniHadoop.Ndfs.Transfer

namespace MiniHadoop.Ndfs

open Text Wire Chunks Counting

/-! ## Fresh ids -/

/-- No file lists the id and no DataNode holds it. -/
structure Cluster.Fresh (c : Cluster) (id : Int64) : Prop where
  tree : ∀ q bl, entryAt c.ns.tree q = some ⟨.kFile, bl⟩ → id ∉ bl
  stores : ∀ address, (c.stores address).held id = none

/-- `Block::Generate` repeats no id: those of the turns from `n` on, `m` of them, are new and distinct. -/
structure FreshIds (c : Cluster) (env : Nat → ChunkEnv) (n m : Nat) : Prop where
  fresh : ∀ i < m, c.Fresh (env (n + i)).id
  distinct : ∀ i < m, ∀ j < m, (env (n + i)).id = (env (n + j)).id → i = j

/-- A turn in which the calls are answered, the DataNode is reached and the block is stored. -/
structure ChunkEnv.Healthy (e : ChunkEnv) : Prop where
  rpc : e.rpc = .answered
  xfer : e.xfer = .complete .written

theorem ChunkEnv.Healthy.stored {e : ChunkEnv} (h : e.Healthy) (chunk : Bytes) : e.xfer.stored chunk = some chunk := by
  rw [h.xfer]; rfl

theorem Cluster.fresh_of_empty {c : Cluster} (ht : c.ns.tree = emptyTree)
    (hs : ∀ address id, (c.stores address).held id = none) (id : Int64) : c.Fresh id := by
  refine ⟨fun q bl hq => ?_, fun address => hs address id⟩
  rw [ht] at hq
  cases q with
  | nil => cases hq
  | cons k q => rw [show emptyTree = INode.new .kDirectory [] from rfl, entryAt_new_cons] at hq; cases hq

/-- The ids generated in `m` turns from the `n`-th on. -/
def turnIds (env : Nat → ChunkEnv) (n m : Nat) : List Int64 := (List.range m).map fun i => (env (n + i)).id

theorem turnIds_succ (env : Nat → ChunkEnv) (n m : Nat) :
    turnIds env n (m + 1) = (env n).id :: turnIds env (n + 1) m := by
  rw [turnIds, List.range_succ_eq_map, List.map_cons, List.map_map, turnIds]
  refine congrArg _ (List.map_congr_left fun i _ => ?_)
  rw [Function.comp_apply, Nat.succ_eq_add_one, show n + (i + 1) = n + 1 + i by omega]

theorem mem_turnIds {env : Nat → ChunkEnv} {n m : Nat} {id : Int64} :
    id ∈ turnIds env n m ↔ ∃ i < m, (env (n + i)).id = id := by
  simp [turnIds]

theorem FreshIds.not_mem_tail {c : Cluster} {env : Nat → ChunkEnv} {n m : Nat} (h : FreshIds c env n (m + 1)) :
    (env n).id ∉ turnIds env (n + 1) m := by
  rw [mem_turnIds]
  rintro ⟨i, hi, heq⟩
  have := h.distinct (i + 1) (by omega) 0 (by omega)
    (by rw [show n + (i + 1) = n + 1 + i by omega]; exact heq)
  omega

/-! ## Placed blocks -/

/-- The targets of a turn. -/
def Cluster.targets (c : Cluster) (e : ChunkEnv) : List DataNodeInfo :=
  c.ns.chooseTargets e.order kDefaultReplication

/-- From `c` to `c'` the chunks `cs` were placed in the turns from the `n`-th on. -/
structure Placed (env : Nat → ChunkEnv) (n : Nat) (cs : List Bytes) (c c' : Cluster) : Prop where
  datanodes : c'.ns.datanodes = c.ns.datanodes
  safeMode : c'.ns.inSafeMode = c.ns.inSafeMode
  keptLocations : ∀ id, id ∉ turnIds env n cs.length → c'.ns.locations id = c.ns.locations id
  keptBlocks : ∀ id, id ∉ turnIds env n cs.length →
    ∀ address, (c'.stores address).held id = (c.stores address).held id
  locations : ∀ j < cs.length, c'.ns.locations (env (n + j)).id = c.targets (env (n + j))
  blocks : ∀ j chunk, cs[j]? = some chunk → ∀ address, (c'.stores address).held (env (n + j)).id =
    if (c.targets (env (n + j))).head?.map DataNodeInfo.address = some address then
      (env (n + j)).xfer.stored chunk
    else none

theorem targets_congr {c c' : Cluster} (h : c'.ns.datanodes = c.ns.datanodes) (e : ChunkEnv) :
    c'.targets e = c.targets e := by
  unfold Cluster.targets FsNamesystem.chooseTargets
  rw [h]

theorem Placed.nil (env : Nat → ChunkEnv) (n : Nat) (c : Cluster) : Placed env n [] c c :=
  ⟨rfl, rfl, fun _ _ => rfl, fun _ _ _ => rfl, fun _ h => (by cases h),
    fun _ _ h => (by cases h)⟩

/-- One chunk and then the others. -/
theorem Placed.cons {env : Nat → ChunkEnv} {n : Nat} {ch : Bytes} {cs : List Bytes} {c c1 c2 : Cluster}
    (hf : FreshIds c env n (cs.length + 1)) (h1 : Placed env n [ch] c c1) (h2 : Placed env (n + 1) cs c1 c2) :
    Placed env n (ch :: cs) c c2 := by
  have hnot := hf.not_mem_tail
  have hone : turnIds env n [ch].length = [(env n).id] := by rw [List.length_singleton, turnIds_succ]; rfl
  have hsplit : ∀ id, id ∉ turnIds env n (ch :: cs).length →
      id ∉ turnIds env n [ch].length ∧ id ∉ turnIds env (n + 1) cs.length := by
    intro id hid
    rw [List.length_cons, turnIds_succ, List.mem_cons, not_or] at hid
    rw [hone, List.mem_singleton]
    exact hid
  refine ⟨h2.datanodes.trans h1.datanodes, h2.safeMode.trans h1.safeMode, fun id hid => ?_, fun id hid address => ?_,
    fun j hj => ?_, fun j chunk hj address => ?_⟩
  · obtain ⟨ha, hb⟩ := hsplit id hid
    rw [h2.keptLocations id hb, h1.keptLocations id ha]
  · obtain ⟨ha, hb⟩ := hsplit id hid
    rw [h2.keptBlocks id hb, h1.keptBlocks id ha]
  · cases j with
    | zero =>
      rw [Nat.add_zero, h2.keptLocations _ hnot]
      exact h1.locations 0 (by simp)
    | succ j =>
      rw [List.length_cons] at hj
      have := h2.locations j (by omega)
      rw [targets_congr h1.datanodes] at this
      rw [show n + (j + 1) = n + 1 + j by omega]; exact this
  · cases j with
    | zero =>
      rw [Nat.add_zero, h2.keptBlocks _ hnot]
      exact h1.blocks 0 chunk (by simpa using hj) address
    | succ j =>
      have := h2.blocks j chunk (by simpa using hj) address
      rw [targets_congr h1.datanodes] at this
      rw [show n + (j + 1) = n + 1 + j by omega]; exact this

/-- The rest of a turn after an allocation that gave the tree `t`. -/
theorem placed_deliver {c : Cluster} {env : Nat → ChunkEnv} {n : Nat} {chunk : Bytes} (t : INode)
    (hlen : chunk.length < maxSize) (hf : c.Fresh (env n).id) {s : FsNamesystem}
    (hs : s = { c.ns with
      tree := t
      blockToDatanodes := c.ns.blockToDatanodes.insert (env n).id (c.targets (env n)) }) :
    Placed env n [chunk] c
        (Cluster.deliver { c with ns := s } { block := Block.generate (env n).id 0, targets := c.targets (env n) }
          chunk (env n)) ∧
      (Cluster.deliver { c with ns := s } { block := Block.generate (env n).id 0, targets := c.targets (env n) }
          chunk (env n)).ns.tree = t := by
  subst hs
  have hone : turnIds env n [chunk].length = [(env n).id] := by rw [List.length_singleton, turnIds_succ]; rfl
  -- the locations after the allocation
  have hloc : ∀ id, FsNamesystem.locations { c.ns with
      tree := t
      blockToDatanodes := c.ns.blockToDatanodes.insert (env n).id (c.targets (env n)) } id =
        if id = (env n).id then c.targets (env n) else c.ns.locations id :=
    fun id => FsNamesystem.locations_insert { c.ns with tree := t } _ _ _ id
  have hlisted : ∀ dn ∈ c.targets (env n), dn ∈ FsNamesystem.locations { c.ns with
      tree := t
      blockToDatanodes := c.ns.blockToDatanodes.insert (env n).id (c.targets (env n)) } (env n).id := by
    intro dn hdn
    rw [hloc, if_pos rfl]; exact hdn
  have hsame := @deliver_same { c with ns := { c.ns with
      tree := t
      blockToDatanodes := c.ns.blockToDatanodes.insert (env n).id (c.targets (env n)) } }
    { block := Block.generate (env n).id 0, targets := c.targets (env n) } chunk (env n) hlisted
  have hheld := held_deliver { c with ns := { c.ns with
      tree := t
      blockToDatanodes := c.ns.blockToDatanodes.insert (env n).id (c.targets (env n)) } }
    { block := Block.generate (env n).id 0, targets := c.targets (env n) } hlen (env n) hlisted
  refine ⟨⟨hsame.datanodes, hsame.safeMode, fun id hid => ?_, fun id hid address => ?_, fun j hj => ?_,
    fun j ch hj address => ?_⟩, hsame.tree⟩
  · rw [hone, List.mem_singleton] at hid
    rw [hsame.locations, hloc, if_neg hid]
  · rw [hone, List.mem_singleton] at hid
    rw [hheld, if_neg fun h => hid h.2]
  · obtain rfl : j = 0 := by rw [List.length_singleton] at hj; omega
    rw [Nat.add_zero, hsame.locations, hloc, if_pos rfl]
  · cases j with
    | succ j => simp at hj
    | zero =>
      obtain rfl : chunk = ch := by simpa using hj
      rw [Nat.add_zero, hheld, hf.stores address, Option.or_none]
      by_cases hadr : (c.targets (env n)).head?.map DataNodeInfo.address = some address
      · rw [if_pos ⟨hadr, rfl⟩, if_pos hadr]
      · rw [if_neg fun h => hadr h.1, if_neg hadr]

/-! ## Turns of the loop -/

section Loop

variable {blockSize : Int64} {path : Bytes} {overwrite : Bool} {env : Nat → ChunkEnv}

/-- The block size as the loop uses it. -/
def chunkLen (blockSize : Int64) : Nat := blockSize.toUInt64.toNat

theorem chunkLen_pos (h : 0 < blockSize) : 0 < chunkLen blockSize := by
  unfold chunkLen
  rw [Nat.pos_iff_ne_zero]
  intro h0
  have hz : blockSize.toUInt64 = 0 := UInt64.toNat_inj.1 h0
  have : blockSize = 0 := by
    rw [← Int64.toInt64_toUInt64 blockSize, hz]; rfl
  rw [this] at h
  exact absurd h (by decide)

theorem writeLoop_done (fuel : Nat) (c : Cluster) (n : Nat) :
    c.writeLoop blockSize path overwrite env (fuel + 1) n [] = some (c, .OK) := by
  rw [Cluster.writeLoop]; rfl

/-- A turn whose allocation call is answered. -/
theorem writeLoop_answered {c : Cluster} {n : Nat} {rest : Bytes} (hne : rest ≠ []) (ha : (env n).rpc = .answered)
    (fuel : Nat) :
    c.writeLoop blockSize path overwrite env (fuel + 1) n rest =
      (Cluster.deliver { c with ns := (allocateBlock (n = 0) (env n).id (env n).order path overwrite c.ns).1 }
          (allocateBlock (n = 0) (env n).id (env n).order path overwrite c.ns).2
          (rest.take (chunkLen blockSize)) (env n)).writeLoop
        blockSize path overwrite env fuel (n + 1) (rest.drop (chunkLen blockSize)) := by
  have hlen : ¬ rest.length = 0 := fun h => hne (List.length_eq_zero_iff.1 h)
  rw [Cluster.writeLoop, if_neg hlen]
  simp only [callRaw, ha, RpcOutcome.delivered, if_true]
  rw [show min blockSize.toUInt64.toNat rest.length = min (chunkLen blockSize) rest.length from rfl,
    ← List.take_eq_take_min, ← List.drop_eq_drop_min]

/-- A turn whose allocation call fails ends the write, and the status says so. -/
theorem writeLoop_failed_turn {c : Cluster} {n : Nat} {rest : Bytes} (hne : rest ≠ []) (ha : (env n).rpc ≠ .answered)
    (fuel : Nat) :
    ∃ st, st ≠ Status.OK ∧ c.writeLoop blockSize path overwrite env (fuel + 1) n rest =
      some ({ c with ns := if (env n).rpc.delivered then
          (allocateBlock (n = 0) (env n).id (env n).order path overwrite c.ns).1 else c.ns }, st) := by
  have hlen : ¬ rest.length = 0 := fun h => hne (List.length_eq_zero_iff.1 h)
  rw [Cluster.writeLoop, if_neg hlen]
  cases hr : (env n).rpc with
  | answered => exact absurd hr ha
  | sendFails => exact ⟨.ioError (bytes "send failed"), by decide, by simp only [callRaw, hr]⟩
  | recvFails handled => exact ⟨.ioError (bytes "recv failed"), by decide, by simp only [callRaw, hr]⟩

/-- The ids of the later turns stay fresh when a turn brings no id into the tree but its own. -/
theorem FreshIds.tail {c c1 : Cluster} {n m : Nat} {ch : Bytes} (h : FreshIds c env n (m + 1))
    (hp : Placed env n [ch] c c1)
    (htree : ∀ q bl, entryAt c1.ns.tree q = some ⟨.kFile, bl⟩ → ∀ id ∈ bl,
      id = (env n).id ∨ ∃ q' bl', entryAt c.ns.tree q' = some ⟨.kFile, bl'⟩ ∧ id ∈ bl') :
    FreshIds c1 env (n + 1) m := by
  have hshift : ∀ i, n + 1 + i = n + (i + 1) := fun i => by omega
  have hne : ∀ i < m, (env (n + (i + 1))).id ≠ (env n).id := by
    intro i hi heq
    have := h.distinct (i + 1) (by omega) 0 (by omega) heq
    omega
  refine ⟨fun i hi => ?_, fun i hi j hj heq => ?_⟩
  · rw [hshift]
    have hfr := h.fresh (i + 1) (by omega)
    refine ⟨fun q bl hq hmem => ?_, fun address => ?_⟩
    · rcases htree q bl hq _ hmem with heq | ⟨q', bl', hq', hmem'⟩
      · exact hne i hi heq
      · exact hfr.tree q' bl' hq' hmem'
    · rw [hp.keptBlocks, hfr.stores]
      rw [List.length_singleton, turnIds_succ, List.mem_cons, not_or]
      exact ⟨hne i hi, by simp [turnIds]⟩
  · rw [hshift, hshift] at heq
    have := h.distinct (i + 1) (by omega) (j + 1) (by omega) heq
    omega

theorem count_drop {k : Nat} (hk : 0 < k) {rest : Bytes} (hne : rest ≠ []) :
    count k rest.length = count k (rest.drop k).length + 1 := by
  rw [List.length_drop]
  exact count_step hk (List.length_pos_iff.2 hne)

/-- On a path that is not a file, the turns after the first do nothing. -/
theorem writeLoop_not_file (hk : 0 < chunkLen blockSize) {c : Cluster} (hf : ¬ IsFile c.ns.tree (splitPath path)) :
    ∀ (fuel n : Nat) (rest : Bytes), rest.length < fuel → 0 < n →
      (∀ i < count (chunkLen blockSize) rest.length, (env (n + i)).rpc = .answered) →
      c.writeLoop blockSize path overwrite env fuel n rest = some (c, .OK)
  | 0, _, _, h, _, _ => by omega
  | fuel + 1, n, rest, hfuel, hn, ha => by
    by_cases hne : rest = []
    · rw [hne]; exact writeLoop_done fuel c n
    · have hcount := count_drop hk hne
      have hpos := List.length_pos_iff.2 hne
      have halloc : allocateBlock (n = 0) (env n).id (env n).order path overwrite c.ns = (c.ns, {}) := by
        rw [allocateBlock, if_neg (by simp; omega)]
        exact FsNamesystem.addBlock_not_file hf _ _
      have ha0 : (env n).rpc = .answered := ha 0 (by omega)
      rw [writeLoop_answered hne ha0, halloc]
      refine writeLoop_not_file hk hf fuel (n + 1) _ (by rw [List.length_drop]; omega) (by omega) fun i hi => ?_
      rw [show n + 1 + i = n + (i + 1) by omega]
      exact ha (i + 1) (by omega)

/-- On a file, the turns after the first append their blocks to it and leave every other path alone. -/
theorem writeLoop_file (hk : 0 < chunkLen blockSize) :
    ∀ (fuel : Nat) (c : Cluster) (n : Nat) (rest : Bytes), rest.length < fuel → 0 < n → rest.length < maxSize →
      TreeOk c.ns.tree → IsFile c.ns.tree (splitPath path) →
      (∀ i < count (chunkLen blockSize) rest.length, (env (n + i)).rpc = .answered) →
      FreshIds c env n (count (chunkLen blockSize) rest.length) →
      ∃ c', c.writeLoop blockSize path overwrite env fuel n rest = some (c', .OK) ∧
        Placed env n (chunks (chunkLen blockSize) rest) c c' ∧ TreeOk c'.ns.tree ∧
        ∀ q, entryAt c'.ns.tree q =
          if q = splitPath path then (entryAt c.ns.tree (splitPath path)).map fun e =>
            ⟨e.type, e.blocks ++ turnIds env n (count (chunkLen blockSize) rest.length)⟩
          else entryAt c.ns.tree q
  | 0, _, _, _, h, _, _, _, _, _, _ => by omega
  | fuel + 1, c, n, rest, hfuel, hn, hmax, ht, hf, ha, hfr => by
    by_cases hne : rest = []
    · subst hne
      rw [List.length_nil, count_zero hk, chunks_nil hk]
      refine ⟨c, writeLoop_done fuel c n, Placed.nil env n c, ht, fun q => ?_⟩
      split
      · rename_i hq; rw [hq]; simp [turnIds]
      · rfl
    · have hcount := count_drop hk hne
      have hpos := List.length_pos_iff.2 hne
      rw [hcount] at ha hfr ⊢
      have hlen : (rest.take (chunkLen blockSize)).length < maxSize := by rw [List.length_take]; omega
      have ha0 : (env n).rpc = .answered := ha 0 (by omega)
      have hf0 : c.Fresh (env n).id := hfr.fresh 0 (by omega)
      have halloc : allocateBlock (n = 0) (env n).id (env n).order path overwrite c.ns =
          ({ c.ns with
              tree := pushBlockAt c.ns.tree (splitPath path) (env n).id
              blockToDatanodes := c.ns.blockToDatanodes.insert (env n).id (c.targets (env n)) },
            { block := Block.generate (env n).id 0, targets := c.targets (env n) }) := by
        rw [allocateBlock, if_neg (by simp; omega)]
        exact FsNamesystem.addBlock_file hf _ _
      -- this turn
      obtain ⟨hplaced, htree⟩ := placed_deliver (pushBlockAt c.ns.tree (splitPath path) (env n).id)
        hlen hf0 rfl
      rw [writeLoop_answered hne ha0, halloc]
      generalize Cluster.deliver _ _ _ _ = c1 at hplaced htree ⊢
      obtain ⟨bl, hbl⟩ := hf
      have hent : ∀ q, entryAt c1.ns.tree q =
          if q = splitPath path then some ⟨.kFile, bl ++ [(env n).id]⟩ else entryAt c.ns.tree q := by
        intro q
        rw [htree, entryAt_pushBlockAt, hbl]; rfl
      have hf1 : IsFile c1.ns.tree (splitPath path) := ⟨bl ++ [(env n).id], by rw [hent, if_pos rfl]⟩
      have hfr1 : FreshIds c1 env (n + 1) (count (chunkLen blockSize) (rest.drop (chunkLen blockSize)).length) := by
        refine hfr.tail hplaced fun q bl' hq id hid => ?_
        rw [hent] at hq
        split at hq
        · cases hq
          rcases List.mem_append.1 hid with hid | hid
          · exact .inr ⟨_, bl, hbl, hid⟩
          · exact .inl (List.mem_singleton.1 hid)
        · exact .inr ⟨q, bl', hq, hid⟩
      -- the turns after it
      obtain ⟨c', hrun, hplaced', ht', hent'⟩ := writeLoop_file hk fuel c1 (n + 1)
        (rest.drop (chunkLen blockSize)) (by rw [List.length_drop]; omega) (by omega)
        (by rw [List.length_drop]; omega) (by rw [htree]; exact ht.pushBlockAt ⟨bl, hbl⟩ _) hf1
        (fun i hi => by rw [show n + 1 + i = n + (i + 1) by omega]; exact ha (i + 1) (by omega)) hfr1
      refine ⟨c', hrun, ?_, ht', fun q => ?_⟩
      · rw [chunks_cons hk hne]
        refine Placed.cons ?_ hplaced hplaced'
        rw [length_chunks]; exact hfr
      · rw [hent' q, hent (splitPath path), if_pos rfl, hbl, turnIds_succ]
        split
        · simp
        · rename_i hq; rw [hent q, if_neg hq]

/-- A write with a failing allocation call does not return OK. -/
theorem writeLoop_failed (hk : 0 < chunkLen blockSize) :
    ∀ (fuel : Nat) (c : Cluster) (n : Nat) (rest : Bytes), rest.length < fuel →
      (∃ i < count (chunkLen blockSize) rest.length, (env (n + i)).rpc ≠ .answered) →
      ∃ c' st, c.writeLoop blockSize path overwrite env fuel n rest = some (c', st) ∧ st ≠ .OK
  | 0, _, _, _, h, _ => by omega
  | fuel + 1, c, n, rest, hfuel, hfail => by
    obtain ⟨i, hi, hbad⟩ := hfail
    have hne : rest ≠ [] := by
      rintro rfl
      rw [List.length_nil, count_zero hk] at hi
      omega
    have hcount := count_drop hk hne
    have hpos := List.length_pos_iff.2 hne
    by_cases ha : (env n).rpc = .answered
    · rw [writeLoop_answered hne ha]
      refine writeLoop_failed hk fuel _ (n + 1) _ (by rw [List.length_drop]; omega) ?_
      cases i with
      | zero => exact absurd ha hbad
      | succ i => exact ⟨i, by omega, by rw [show n + 1 + i = n + (i + 1) by omega]; exact hbad⟩
    · obtain ⟨st, hst, heq⟩ := @writeLoop_failed_turn blockSize path overwrite env c n rest hne ha fuel
      exact ⟨_, st, heq, hst⟩

end Loop

/-! ## Whole writes -/

section Write

variable {c : Cluster} {blockSize : Int64} {path : Bytes} {data : Buffer} {overwrite : Bool} {env : Nat → ChunkEnv}

/-- How many blocks a write makes. -/
def blockCount (blockSize : Int64) (data : Buffer) : Nat := count (chunkLen blockSize) data.1.length

theorem writeFile_empty (h : data.1 = []) : c.writeFile blockSize path data overwrite env = some (c, .OK) := by
  rw [Cluster.writeFile, h]; exact writeLoop_done 0 c 0

theorem writeFile_failed (hk : 0 < chunkLen blockSize)
    (h : ∃ i < blockCount blockSize data, (env i).rpc ≠ .answered) :
    ∃ c' st, c.writeFile blockSize path data overwrite env = some (c', st) ∧ st ≠ .OK := by
  obtain ⟨i, hi, hbad⟩ := h
  exact writeLoop_failed hk _ c 0 data.1 (Nat.lt_succ_self _) ⟨i, hi, by rw [Nat.zero_add]; exact hbad⟩

/-- An accepted write makes the path a file with a block for every chunk. -/
theorem writeFile_accepted (hk : 0 < chunkLen blockSize) (ht : TreeOk c.ns.tree) (hacc : c.ns.Accepts path overwrite)
    (hne : data.1 ≠ []) (ha : ∀ i < blockCount blockSize data, (env i).rpc = .answered)
    (hfr : FreshIds c env 0 (blockCount blockSize data)) :
    ∃ c', c.writeFile blockSize path data overwrite env = some (c', .OK) ∧
      Placed env 0 (chunks (chunkLen blockSize) data.1) c c' ∧ TreeOk c'.ns.tree ∧
      ∀ q, entryAt c'.ns.tree q =
        if q = splitPath path then some ⟨.kFile, turnIds env 0 (blockCount blockSize data)⟩
        else if splitPath path <+: q then none
        else if q <+: splitPath (getParentDir path) ∧ entryAt c.ns.tree q = none then some dirEntry
        else entryAt c.ns.tree q := by
  have hcount := count_drop hk hne
  rw [blockCount, hcount] at ha hfr ⊢
  have hlen : (data.1.take (chunkLen blockSize)).length < maxSize := by
    rw [List.length_take]; have := data.2; omega
  have ha0 : (env 0).rpc = .answered := ha 0 (by omega)
  obtain ⟨t, htok, hstart, hentries⟩ := FsNamesystem.startFile_accepted ht hacc (env 0).id (env 0).order
  have halloc : allocateBlock ((0 : Nat) = 0) (env 0).id (env 0).order path overwrite c.ns =
      ({ c.ns with
          tree := t
          blockToDatanodes := c.ns.blockToDatanodes.insert (env 0).id (c.targets (env 0)) },
        { block := Block.generate (env 0).id 0, targets := c.targets (env 0) }) := by
    rw [allocateBlock, if_pos (by simp)]; exact hstart
  obtain ⟨hplaced, htree⟩ := placed_deliver t hlen (hfr.fresh 0 (by omega)) rfl
  rw [Cluster.writeFile, writeLoop_answered hne ha0, halloc]
  generalize Cluster.deliver _ _ _ _ = c1 at hplaced htree ⊢
  have hent1 : entryAt c1.ns.tree (splitPath path) = some ⟨.kFile, [(env 0).id]⟩ := by
    rw [htree, hentries, if_pos rfl]
  have hfr1 : FreshIds c1 env (0 + 1) (count (chunkLen blockSize) (data.1.drop (chunkLen blockSize)).length) := by
    refine hfr.tail hplaced fun q bl hq id hid => ?_
    rw [htree, hentries] at hq
    split at hq
    · cases hq; exact .inl (List.mem_singleton.1 hid)
    · split at hq
      · cases hq
      · split at hq
        · cases hq
        · exact .inr ⟨q, bl, hq, hid⟩
  obtain ⟨c', hrun, hplaced', ht', hent'⟩ := @writeLoop_file blockSize path overwrite env hk data.1.length c1 (0 + 1)
    (data.1.drop (chunkLen blockSize))
    (by rw [List.length_drop]; have := List.length_pos_iff.2 hne; omega) (by omega)
    (by rw [List.length_drop]; have := data.2; omega) (by rw [htree]; exact htok) ⟨_, hent1⟩
    (fun i hi => by rw [show 0 + 1 + i = i + 1 by omega]; exact ha (i + 1) (by omega)) hfr1
  refine ⟨c', hrun, ?_, ht', fun q => ?_⟩
  · rw [chunks_cons hk hne]
    refine Placed.cons ?_ hplaced hplaced'
    rw [length_chunks]; exact hfr
  · rw [hent' q, hent1, turnIds_succ]
    split
    · simp
    · rename_i hq
      rw [htree, hentries q, if_neg hq]

/-- A refused write on a path that is then a file has no first block, and appends the others to it. -/
theorem writeFile_refused_file (hk : 0 < chunkLen blockSize) (ht : TreeOk c.ns.tree)
    (hsame : c.ns.startFile (env 0).id (env 0).order path overwrite = (c.ns, {}))
    (hf : IsFile c.ns.tree (splitPath path)) (hne : data.1 ≠ [])
    (ha : ∀ i < blockCount blockSize data, (env i).rpc = .answered)
    (hfr : FreshIds c env 0 (blockCount blockSize data)) :
    ∃ c', c.writeFile blockSize path data overwrite env = some (c', .OK) ∧
      Placed env 1 (chunks (chunkLen blockSize) (data.1.drop (chunkLen blockSize))) c c' ∧ TreeOk c'.ns.tree ∧
      ∀ q, entryAt c'.ns.tree q =
        if q = splitPath path then (entryAt c.ns.tree (splitPath path)).map fun e =>
          ⟨e.type, e.blocks ++ turnIds env 1 (count (chunkLen blockSize) (data.1.drop (chunkLen blockSize)).length)⟩
        else entryAt c.ns.tree q := by
  have hcount := count_drop hk hne
  rw [blockCount, hcount] at ha hfr
  have ha0 : (env 0).rpc = .answered := ha 0 (by omega)
  have halloc : allocateBlock ((0 : Nat) = 0) (env 0).id (env 0).order path overwrite c.ns = (c.ns, {}) := by
    rw [allocateBlock, if_pos (by simp)]; exact hsame
  rw [Cluster.writeFile, writeLoop_answered hne ha0, halloc, deliver_refused]
  refine @writeLoop_file blockSize path overwrite env hk data.1.length c 1 (data.1.drop (chunkLen blockSize))
    (by rw [List.length_drop]; have := List.length_pos_iff.2 hne; omega) (by omega)
    (by rw [List.length_drop]; have := data.2; omega) ht hf
    (fun i hi => by rw [show 1 + i = i + 1 by omega]; exact ha (i + 1) (by omega)) ?_
  refine ⟨fun i hi => ?_, fun i hi j hj heq => ?_⟩
  · have := hfr.fresh (i + 1) (by omega)
    rwa [show 0 + (i + 1) = 1 + i by omega] at this
  · have := hfr.distinct (i + 1) (by omega) (j + 1) (by omega)
      (by rw [show 0 + (i + 1) = 1 + i by omega, show 0 + (j + 1) = 1 + j by omega]; exact heq)
    omega

/-- A refused write on a path that is then no file returns OK and leaves it that way. -/
theorem writeFile_refused_not_file (hk : 0 < chunkLen blockSize) {t : INode}
    (hstart : c.ns.startFile (env 0).id (env 0).order path overwrite = ({ c.ns with tree := t }, {}))
    (hf : ¬ IsFile t (splitPath path)) (hne : data.1 ≠ [])
    (ha : ∀ i < blockCount blockSize data, (env i).rpc = .answered) :
    c.writeFile blockSize path data overwrite env = some ({ c with ns := { c.ns with tree := t } }, .OK) := by
  have hcount := count_drop hk hne
  rw [blockCount, hcount] at ha
  have ha0 : (env 0).rpc = .answered := ha 0 (by omega)
  have halloc : allocateBlock ((0 : Nat) = 0) (env 0).id (env 0).order path overwrite c.ns =
      ({ c.ns with tree := t }, {}) := by
    rw [allocateBlock, if_pos (by simp)]; exact hstart
  rw [Cluster.writeFile, writeLoop_answered hne ha0, halloc, deliver_refused]
  refine writeLoop_not_file hk hf data.1.length 1 _ ?_ (by omega) fun i hi => ?_
  · rw [List.length_drop]; have := List.length_pos_iff.2 hne; omega
  · rw [show 1 + i = i + 1 by omega]; exact ha (i + 1) (by omega)

end Write

/-! ## What placed blocks read as -/

/-- What the transfers from the `n`-th on leave of their chunks, one after another; none when a chunk was
not stored at all. -/
def pieces (env : Nat → ChunkEnv) : Nat → List Bytes → Option Bytes
  | _, [] => some []
  | n, ch :: cs => ((env n).xfer.stored ch).bind fun d => (pieces env (n + 1) cs).map (d ++ ·)

theorem length_pieces (env : Nat → ChunkEnv) : ∀ (n : Nat) (cs : List Bytes) {d : Bytes},
    pieces env n cs = some d → d.length ≤ cs.flatten.length
  | _, [], d, h => by cases h; simp
  | n, ch :: cs, d, h => by
    rw [pieces] at h
    obtain ⟨d0, h0, h⟩ := Option.bind_eq_some_iff.1 h
    obtain ⟨d1, h1, rfl⟩ := Option.map_eq_some_iff.1 h
    have hl0 := (stored_prefix_chunk h0).length_le
    have hl1 := length_pieces env (n + 1) cs h1
    rw [List.flatten_cons, List.length_append, List.length_append]
    omega

/-- The stored pieces make up all the data exactly when every chunk was stored whole. -/
theorem pieces_eq_flatten (env : Nat → ChunkEnv) : ∀ (n : Nat) (cs : List Bytes),
    pieces env n cs = some cs.flatten ↔ ∀ j ch, cs[j]? = some ch → (env (n + j)).xfer.stored ch = some ch
  | n, [] => by simp [pieces]
  | n, ch :: cs => by
    rw [forall_places_cons (P := fun j ch => (env j).xfer.stored ch = some ch), ← pieces_eq_flatten env (n + 1) cs,
      pieces, List.flatten_cons]
    constructor
    · intro h
      obtain ⟨d0, h0, h⟩ := Option.bind_eq_some_iff.1 h
      obtain ⟨d1, h1, heq⟩ := Option.map_eq_some_iff.1 h
      have hpre := stored_prefix_chunk h0
      have hl1 := length_pieces env (n + 1) cs h1
      have hlen := congrArg List.length heq
      rw [List.length_append, List.length_append] at hlen
      have hwhole : d0 = ch := hpre.eq_of_length (by have := hpre.length_le; omega)
      subst hwhole
      rw [List.append_cancel_left_eq] at heq
      rw [heq] at h1
      exact ⟨h0, h1⟩
    · rintro ⟨h0, h1⟩
      rw [h0, h1]; rfl

section Content

variable {env : Nat → ChunkEnv} {n : Nat} {cs : List Bytes} {c c' : Cluster}

/-- A placed block reads as what its transfer stored. -/
theorem Placed.blockData (h : Placed env n cs c c') (hd : c.ns.datanodes.entries ≠ []) {j : Nat} {ch : Bytes}
    (hj : cs[j]? = some ch) : c'.blockData (env (n + j)).id = (env (n + j)).xfer.stored ch := by
  have hlt : j < cs.length := (List.getElem?_eq_some_iff.1 hj).1
  unfold Cluster.blockData
  rw [h.locations j hlt]
  have hb := h.blocks j ch hj
  cases htg : c.targets (env (n + j)) with
  | nil => exact absurd htg (FsNamesystem.chooseTargets_ne_nil hd _)
  | cons dn rest =>
    rw [htg] at hb
    have hfirst : (c'.stores dn.address).held (env (n + j)).id = (env (n + j)).xfer.stored ch := by
      rw [hb]; exact if_pos rfl
    rw [List.findSome?_cons, hfirst]
    cases hst : (env (n + j)).xfer.stored ch with
    | some d => rfl
    | none =>
      -- no other target holds the block either
      refine List.findSome?_eq_none_iff.2 fun dn' _ => ?_
      rw [hb, hst]
      split <;> rfl

theorem Placed.blockData_kept (h : Placed env n cs c c') {id : Int64} (hid : id ∉ turnIds env n cs.length) :
    c'.blockData id = c.blockData id := by
  unfold Cluster.blockData
  rw [h.keptLocations id hid]
  congr 1
  funext dn
  exact h.keptBlocks id hid dn.address

/-- Without DataNodes a placed block has no location. -/
theorem Placed.blockData_none (h : Placed env n cs c c') (hd : c.ns.datanodes.entries = []) {j : Nat}
    (hj : j < cs.length) : c'.blockData (env (n + j)).id = none := by
  unfold Cluster.blockData
  rw [h.locations j hj, Cluster.targets, FsNamesystem.chooseTargets_of_empty hd]; rfl

theorem content_turnIds {c' : Cluster} : ∀ (n : Nat) (cs : List Bytes),
    (∀ j ch, cs[j]? = some ch → c'.blockData (env (n + j)).id = (env (n + j)).xfer.stored ch) →
      c'.content (turnIds env n cs.length) = pieces env n cs
  | _, [], _ => rfl
  | n, ch :: cs, h => by
    obtain ⟨h0, hrest⟩ :=
      (forall_places_cons (P := fun j ch => c'.blockData (env j).id = (env j).xfer.stored ch)).1 h
    rw [List.length_cons, turnIds_succ, Cluster.content, pieces, h0, content_turnIds (n + 1) cs hrest]

theorem Placed.content (h : Placed env n cs c c') (hd : c.ns.datanodes.entries ≠ []) :
    c'.content (turnIds env n cs.length) = pieces env n cs :=
  content_turnIds n cs fun _ _ hj => h.blockData hd hj

end Content

end MiniHadoop.Ndfs

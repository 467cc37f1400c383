/-
Any number of clients, each with one write, in any interleaving. No write gets stuck and none fails;
every block that was allocated is stored or on its way; and every step leaves all paths with the chunks
they list, but for an allocation, which adds the next chunk of its write to its path. Writers on
unrelated paths therefore end up with their own data, and two writers on one path with a merge.
-/
import MiniHadoop.Ndfs.Interleaving
import MiniHadoop.Ndfs.WriteOutcome

namespace MiniHadoop.Ndfs

open Text Wire Chunks Runs

/-! ## One writer -/

namespace Writer

/-- The writer has the right part of the data before it. -/
def Follows (k : Nat) (data : Bytes) : Writer → Prop
  | allocating n rest => n ≤ (chunks k data).length ∧ (chunks k data).drop n = chunks k rest.1
  | sending n _ chunk rest => (chunks k data).drop n = chunk.1 :: chunks k rest.1
  | confirming n _ _ _ rest => n < (chunks k data).length ∧ (chunks k data).drop (n + 1) = chunks k rest.1
  | returned st => st = .OK

/-- How many of its blocks, `total` in all, have been allocated. -/
def allocated (total : Nat) : Writer → Nat
  | allocating n _ => n
  | sending n .. => n + 1
  | confirming n .. => n + 1
  | returned _ => total

/-- A bound on the steps still to take: for every chunk an allocation, a transfer, up to three
confirmations and the step to the next turn. -/
def toGo (k : Nat) : Writer → Nat
  | allocating _ rest => 6 * count k rest.1.length + 1
  | sending _ a _ rest => a.targets.length + 2 + (6 * count k rest.1.length + 1)
  | confirming _ _ _ todo rest => todo.length + 1 + (6 * count k rest.1.length + 1)
  | returned _ => 0

theorem returned_of_toGo {k : Nat} : ∀ {w : Writer}, w.toGo k = 0 → ∃ st, w = .returned st
  | allocating _ _, h => by rw [toGo] at h; omega
  | sending _ _ _ _, h => by rw [toGo] at h; omega
  | confirming _ _ _ _ _, h => by rw [toGo] at h; omega
  | returned st, _ => ⟨st, rfl⟩

section Follows

variable {k n : Nat} {data : Bytes} {a : Allocation} {chunk rest : Buffer}

/-- The block asked for next is for the next chunk. -/
theorem Follows.allocate (hk : 0 < k) (h : Follows k data (allocating n rest)) (hne : rest.1 ≠ []) :
    Follows k data (sending n a (rest.take k) (rest.drop k)) :=
  h.2.trans (chunks_cons hk hne)

theorem Follows.nextChunk (h : Follows k data (sending n a chunk rest)) : (chunks k data)[n]? = some chunk.1 := by
  have hget : ((chunks k data).drop n)[0]? = some chunk.1 := by rw [show _ = _ from h]; rfl
  rwa [List.getElem?_drop, Nat.add_zero] at hget

theorem Follows.send (h : Follows k data (sending n a chunk rest)) {len : Nat} {todo : List DataNodeInfo} :
    Follows k data (confirming n a len todo rest) := by
  refine ⟨(List.getElem?_eq_some_iff.1 h.nextChunk).1, ?_⟩
  rw [← List.drop_drop, show (chunks k data).drop n = _ from h]; rfl

/-- A write that has nothing left has a block for every chunk. -/
theorem Follows.finish (hk : 0 < k) (h : Follows k data (allocating n rest)) (hnil : rest.1 = []) :
    n = (chunks k data).length := by
  obtain ⟨hle, hdrop⟩ := h
  rw [hnil, chunks_nil hk] at hdrop
  exact Nat.le_antisymm hle (List.drop_eq_nil_iff.1 hdrop)

end Follows

end Writer

theorem take_succ_of_next {cs : List Bytes} {n : Nat} {chunk : Bytes} (h : cs[n]? = some chunk) :
    cs.take (n + 1) = cs.take n ++ [chunk] := by
  rw [List.take_add_one, h]; rfl

/-! ## All of them -/

section Writers

variable {ι : Type} {blockSize : Int64} {path : ι → Bytes} {data : ι → Buffer}

/-- The chunks of the write of client `i`. -/
def chunksOf (blockSize : Int64) (data : ι → Buffer) (i : ι) : List Bytes := chunks (chunkLen blockSize) (data i).1

/-- How many blocks each client has allocated. -/
def counts (blockSize : Int64) (data : ι → Buffer) (w : ι → Writer) (i : ι) : Nat :=
  (w i).allocated (chunksOf blockSize data i).length

/-- The state of a system in which client `i` writes `data i` to `path i` and has come to `w i`. -/
structure Writers (blockSize : Int64) (path : ι → Bytes) (data : ι → Buffer) (s : System ι) (w : ι → Writer) :
    Prop where
  clients : ∀ i, s.clients i = [.write (path i) true (w i)]
  sound : s.Sound
  tree : TreeOk s.cluster.ns.tree
  accepts : ∀ i, s.cluster.ns.Accepts (path i) true
  follows : ∀ i, (w i).Follows (chunkLen blockSize) (data i).1
  started : ∀ i, 0 < counts blockSize data w i → IsFile s.cluster.ns.tree (splitPath (path i))
  sending : ∀ i n a chunk rest, w i = .sending n a chunk rest → a.targets ≠ [] ∧
    ∀ dn ∈ a.targets, dn ∈ s.cluster.ns.locations a.block.blockId
  placed : ∀ id chunk, s.made id = some chunk → s.cluster.Ready id chunk ∨
    ∃ i n a ch rest, w i = .sending n a ch rest ∧ a.block.blockId = id

/-- The system in which every client is about to write. -/
def startWrites (c : Cluster) (path : ι → Bytes) (data : ι → Buffer) : System ι where
  cluster := c
  clients i := [.write (path i) true (.allocating 0 (data i))]

theorem startWrites_writers {c : Cluster} (hr : c.ns.Reachable) (hacc : ∀ i, c.ns.Accepts (path i) true) :
    Writers blockSize path data (startWrites c path data) fun i => .allocating 0 (data i) := by
  refine ⟨fun _ => rfl, ⟨fun _ _ _ _ h => (by cases h), fun i act hact => ?_⟩, hr.tree_ok, hacc,
    fun i => ⟨Nat.zero_le _, rfl⟩, fun i h => absurd h (Nat.lt_irrefl 0), fun i _ _ _ _ h => (by cases h),
    fun _ _ h => (by cases h)⟩
  rw [List.mem_singleton.1 hact]; trivial

/-- No path of a writer is properly above that of another. -/
def NoneAbove (path : ι → Bytes) : Prop :=
  ∀ i j, splitPath (path i) <+: splitPath (path j) → splitPath (path i) = splitPath (path j)

theorem counts_update [DecidableEq ι] {w : ι → Writer} {i : ι} {w' : Writer} :
    counts blockSize data (Function.update w i w') =
      Function.update (counts blockSize data w) i (w'.allocated (chunksOf blockSize data i).length) := by
  funext j
  unfold counts
  by_cases hj : j = i
  · subst hj; rw [Function.update_self, Function.update_self]
  · rw [Function.update_of_ne hj, Function.update_of_ne hj]

/-! ## Steps that allocate and send nothing -/

section Still

variable {s : System ι} {w : ι → Writer}

/-- A change of the cluster that only adds locations. -/
theorem Writers.quiet (h : Writers blockSize path data s w) {c : Cluster} (hq : Quiet s.cluster c) :
    Writers blockSize path data { s with cluster := c } w := by
  refine ⟨h.clients, ⟨fun address id chunk d hm hd => ?_, h.sound.sending⟩, hq.tree ▸ h.tree, fun i => ?_, h.follows,
    fun i hi => ?_, fun i n a chunk rest hw => ?_, fun id chunk hm => ?_⟩
  · rw [show ({ s with cluster := c } : System ι).cluster.stores = s.cluster.stores from hq.stores] at hd
    exact h.sound.whole address id chunk d hm hd
  · have hacc := h.accepts i
    exact ⟨hq.writable hacc.writable, .inl rfl, hacc.proper, hq.tree ▸ hacc.parents⟩
  · exact hq.tree ▸ h.started i hi
  · obtain ⟨hne, hlisted⟩ := h.sending i n a chunk rest hw
    exact ⟨hne, fun dn hdn => hq.locations _ (hlisted dn hdn)⟩
  · refine (h.placed id chunk hm).imp_left ?_
    rintro ⟨dn, hdn, hheld⟩
    exact ⟨dn, hq.locations _ hdn, by rw [hq.stores]; exact hheld⟩

variable [DecidableEq ι]

theorem Writers.clients_goto (h : Writers blockSize path data s w) {i : ι} {c : Cluster} {w' : Writer} (j : ι) :
    (s.goto i c [.write (path i) true w']).clients j = [.write (path j) true (Function.update w i w' j)] := by
  by_cases hj : j = i
  · subst hj; rw [goto_clients_self, Function.update_self]
  · rw [goto_clients_ne hj, Function.update_of_ne hj]; exact h.clients j

/-- A writer that is not sending goes on by itself. -/
theorem Writers.goOn (h : Writers blockSize path data s w) {i : ι} {w' : Writer}
    (hnot : ∀ n a chunk rest, w i ≠ .sending n a chunk rest)
    (hnot' : ∀ n a chunk rest, w' ≠ .sending n a chunk rest)
    (hfollows : w'.Follows (chunkLen blockSize) (data i).1)
    (hcount : w'.allocated (chunksOf blockSize data i).length = counts blockSize data w i) :
    Writers blockSize path data (s.goto i s.cluster [.write (path i) true w']) (Function.update w i w') := by
  have hcounts : counts blockSize data (Function.update w i w') = counts blockSize data w := by
    rw [counts_update, hcount, Function.update_eq_self]
  have hsound : (Activity.write (path i) true w').Sound s.made := by
    cases w' with
    | sending n a chunk rest => exact absurd rfl (hnot' n a chunk rest)
    | _ => trivial
  refine ⟨h.clients_goto, h.sound.goto rfl (by simpa using hsound), h.tree, h.accepts, fun j => ?_, fun j hj => ?_,
    fun j n a chunk rest hw => ?_, fun id chunk hm => ?_⟩
  · by_cases hj : j = i
    · subst hj; rw [Function.update_self]; exact hfollows
    · rw [Function.update_of_ne hj]; exact h.follows j
  · rw [hcounts] at hj; exact h.started j hj
  · by_cases hj : j = i
    · subst hj; rw [Function.update_self] at hw; exact absurd hw (hnot' n a chunk rest)
    · rw [Function.update_of_ne hj] at hw; exact h.sending j n a chunk rest hw
  · refine (h.placed id chunk hm).imp_right ?_
    rintro ⟨j, n, a, ch, rest, hw, hid⟩
    refine ⟨j, n, a, ch, rest, ?_, hid⟩
    rw [Function.update_of_ne, hw]
    rintro rfl
    exact hnot n a ch rest hw

end Still

/-! ## The transfer -/

section Send

variable [DecidableEq ι] {s : System ι} {w : ι → Writer}

/-- After its transfer a block can be read. -/
theorem Writers.send (h : Writers blockSize path data s w) {i : ι} {n : Nat} {a : Allocation} {chunk rest : Buffer}
    (hw : w i = .sending n a chunk rest)
    (hsound : (s.goto i (s.cluster.sendBlock a chunk.1 (.complete .written))
      [.write (path i) true (.confirming n a chunk.1.length a.targets rest)]).Sound) :
    Writers blockSize path data
      (s.goto i (s.cluster.sendBlock a chunk.1 (.complete .written))
        [.write (path i) true (.confirming n a chunk.1.length a.targets rest)])
      (Function.update w i (.confirming n a chunk.1.length a.targets rest)) := by
  have hcounts : counts blockSize data (Function.update w i (.confirming n a chunk.1.length a.targets rest)) =
      counts blockSize data w := by
    rw [counts_update]
    refine (congrArg _ ?_).trans (Function.update_eq_self i _)
    rw [counts, hw]; rfl
  have hns : (s.cluster.sendBlock a chunk.1 (.complete .written)).ns = s.cluster.ns := sendBlock_ns ..
  have hmade : s.made a.block.blockId = some chunk.1 :=
    h.sound.sending i (.write (path i) true (.sending n a chunk rest))
      (by rw [h.clients i, hw]; exact List.mem_singleton_self _) (h.sending i n a chunk rest hw).1
  have hfollows := h.follows i
  rw [hw] at hfollows
  refine ⟨h.clients_goto, hsound, by rw [goto_cluster, hns]; exact h.tree,
    fun j => by rw [goto_cluster, hns]; exact h.accepts j, fun j => ?_, fun j hj => ?_, fun j n' a' chunk' rest' hw' => ?_, fun id ch hm => ?_⟩
  · by_cases hj : j = i
    · subst hj
      rw [Function.update_self]; exact hfollows.send
    · rw [Function.update_of_ne hj]; exact h.follows j
  · rw [hcounts] at hj
    rw [goto_cluster, hns]; exact h.started j hj
  · by_cases hj : j = i
    · subst hj; rw [Function.update_self] at hw'; cases hw'
    · rw [Function.update_of_ne hj] at hw'
      rw [goto_cluster, hns]; exact h.sending j n' a' chunk' rest' hw'
  · rw [goto_made] at hm
    rw [goto_cluster, Cluster.Ready, hns]
    have hheld := held_sendBlock s.cluster a chunk.2 (.complete .written)
    by_cases hid : id = a.block.blockId
    · -- the block just sent is held by its first target
      left
      subst hid
      have hsame := hmade.symm.trans hm
      cases hsame
      obtain ⟨hne, hlisted⟩ := h.sending i n a chunk rest hw
      obtain ⟨dn, dns, hdns⟩ := List.exists_cons_of_ne_nil hne
      refine ⟨dn, hlisted dn (by rw [hdns]; exact List.mem_cons_self ..), ?_⟩
      rw [hheld, hdns, if_pos ⟨rfl, rfl⟩]; rfl
    · refine (h.placed id ch hm).imp ?_ ?_
      · rintro ⟨dn, hdn, hd⟩
        exact ⟨dn, hdn, by rw [hheld, if_neg fun hto => hid hto.2]; exact hd⟩
      · rintro ⟨j, n', a', ch', rest', hw', hid'⟩
        refine ⟨j, n', a', ch', rest', ?_, hid'⟩
        rw [Function.update_of_ne, hw']
        rintro rfl
        rw [hw] at hw'
        cases hw'
        exact hid hid'.symm

end Send

/-! ## The allocation -/

section Allocate

variable {s : System ι} {w : ι → Writer}

/-- The next allocation of a writer is not refused. -/
theorem Writers.allocated (h : Writers blockSize path data s w) {i : ι} {n : Nat} {rest : Buffer}
    (hw : w i = .allocating n rest) (e : ChunkEnv) :
    ∃ old, Allocated s.cluster e (path i) old (allocateBlock (n = 0) e.id e.order (path i) true s.cluster.ns) ∧
      (n = 0 → old = []) ∧
      (0 < n → entryAt s.cluster.ns.tree (splitPath (path i)) = some ⟨.kFile, old⟩) := by
  rcases Nat.eq_zero_or_pos n with rfl | hn
  · exact ⟨[], allocated_first h.tree (h.accepts i), fun _ => rfl, fun h => absurd h (Nat.lt_irrefl 0)⟩
  · obtain ⟨bl, hbl⟩ := h.started i (by rw [counts, hw]; exact hn)
    exact ⟨bl, allocated_next hn h.tree hbl, fun h0 => absurd h0 (Nat.pos_iff_ne_zero.1 hn), fun _ => hbl⟩

variable [DecidableEq ι]

/-- An allocation leaves every writer where it was, but for its own, which has its next block. -/
theorem Writers.allocate (h : Writers blockSize path data s w) (hb : 0 < blockSize) (habove : NoneAbove path) {i : ι}
    {n : Nat} {rest : Buffer} {e : ChunkEnv} {old : List Int64} {r : FsNamesystem × Allocation}
    (hw : w i = .allocating n rest) (hne : rest.1 ≠ []) (hnew : s.made e.id = none)
    (hal : Allocated s.cluster e (path i) old r) {s' : System ι}
    (hs' : s' = (s.goto i { s.cluster with ns := r.1 } [.write (path i) true
      (.sending n r.2 (rest.take (chunkLen blockSize)) (rest.drop (chunkLen blockSize)))]).generate e.id
        (rest.1.take (chunkLen blockSize)))
    (hsound : s'.Sound) :
    Writers blockSize path data s' (Function.update w i
      (.sending n r.2 (rest.take (chunkLen blockSize)) (rest.drop (chunkLen blockSize)))) := by
  subst hs'
  have hfollows := h.follows i
  rw [hw] at hfollows
  have htargets : s.cluster.targets e ≠ [] :=
    FsNamesystem.chooseTargets_ne_nil (datanodes_of_not_safe (h.accepts i).writable) _
  -- the blocks on their way have other ids
  have hother : ∀ j n' a ch rest', w j = .sending n' a ch rest' → a.block.blockId ≠ e.id := by
    intro j n' a ch rest' hwj hid
    have hmade := h.sound.sending j (.write (path j) true (.sending n' a ch rest'))
      (by rw [h.clients j, hwj]; exact List.mem_singleton_self _) (h.sending j n' a ch rest' hwj).1
    rw [hid, hnew] at hmade; cases hmade
  refine ⟨by rw [generate_clients]; exact h.clients_goto, hsound, hal.tree,
    fun j => hal.accepts (h.accepts j) (habove i j), fun j => ?_, fun j hj => ?_, fun j n' a ch rest' hwj => ?_,
    fun id ch hm => ?_⟩
  · by_cases hj : j = i
    · subst hj
      rw [Function.update_self]; exact hfollows.allocate (chunkLen_pos hb) hne
    · rw [Function.update_of_ne hj]; exact h.follows j
  · show IsFile r.1.tree (splitPath (path j))
    by_cases hpre : splitPath (path i) <+: splitPath (path j)
    · rw [← habove i j hpre]; exact ⟨_, hal.file⟩
    · have hji : j ≠ i := by
        rintro rfl; exact hpre (List.prefix_refl _)
      rw [counts, Function.update_of_ne hji] at hj
      obtain ⟨bl, hbl⟩ := h.started j hj
      exact ⟨bl, hal.kept _ _ hpre hbl⟩
  · show a.targets ≠ [] ∧ ∀ dn ∈ a.targets, dn ∈ r.1.locations a.block.blockId
    by_cases hj : j = i
    · subst hj
      rw [Function.update_self] at hwj
      cases hwj
      rw [hal.block]
      refine ⟨htargets, fun dn hdn => ?_⟩
      show dn ∈ r.1.locations e.id
      rw [hal.locations, if_pos rfl]; exact hdn
    · rw [Function.update_of_ne hj] at hwj
      rw [hal.locations, if_neg (hother j n' a ch rest' hwj)]
      exact h.sending j n' a ch rest' hwj
  · by_cases hid : id = e.id
    · right
      refine ⟨i, n, r.2, _, _, Function.update_self .., ?_⟩
      rw [hal.block, hid]; rfl
    · rw [generate_made_ne hid] at hm
      refine (h.placed id ch hm).imp ?_ ?_
      · rintro ⟨dn, hdn, hd⟩
        refine ⟨dn, ?_, hd⟩
        show dn ∈ r.1.locations id
        rw [hal.locations, if_neg hid]; exact hdn
      · rintro ⟨j, n', a, ch', rest', hwj, hid'⟩
        refine ⟨j, n', a, ch', rest', ?_, hid'⟩
        rw [Function.update_of_ne, hwj]
        rintro rfl
        rw [hw] at hwj; cases hwj

end Allocate

/-! ## Every step -/

section Step

variable {s s' : System ι} {w : ι → Writer}

/-- The client `i` has got the block for its next chunk: its path lists that chunk, alone if it is the first
one and else after those it listed, and no path that is not below it has changed. -/
structure Extends (blockSize : Int64) (path : ι → Bytes) (data : ι → Buffer) (s s' : System ι) (i : ι) (n : Nat)
    (chunk : Bytes) : Prop where
  next : (chunksOf blockSize data i)[n]? = some chunk
  first : n = 0 → s'.Lists (splitPath (path i)) [chunk]
  more : 0 < n → ∀ cs, s.Lists (splitPath (path i)) cs → s'.Lists (splitPath (path i)) (cs ++ [chunk])
  other : ∀ q cs, ¬ splitPath (path i) <+: q → s.Lists q cs → s'.Lists q cs

/-- The block of the next chunk is listed behind those of the chunks before it. -/
theorem Writers.extends_allocated (h : Writers blockSize path data s w) (hb : 0 < blockSize) {i : ι} {n : Nat}
    {rest : Buffer} {e : ChunkEnv} {old : List Int64} {r : FsNamesystem × Allocation}
    (hw : w i = .allocating n rest) (hne : rest.1 ≠ []) (hnew : s.made e.id = none)
    (hal : Allocated s.cluster e (path i) old r) (hfirst : n = 0 → old = [])
    (hmore : 0 < n → entryAt s.cluster.ns.tree (splitPath (path i)) = some ⟨.kFile, old⟩)
    (hns : s'.cluster.ns = r.1) (hmade : s'.made = (s.generate e.id (rest.1.take (chunkLen blockSize))).made) :
    Extends blockSize path data s s' i n (rest.1.take (chunkLen blockSize)) := by
  have hfollows := h.follows i
  rw [hw] at hfollows
  constructor
  · exact (@Writer.Follows.allocate _ _ _ {} _ (chunkLen_pos hb) hfollows hne).nextChunk
  · intro hn
    rw [hfirst hn] at hal
    exact hal.lists hnew hns hmade (show ([] : List Int64).map s.made = ([] : List Bytes).map some from rfl)
  · rintro hn cs ⟨bl, hbl, hcs⟩
    rw [hmore hn] at hbl
    cases hbl
    exact hal.lists hnew hns hmade hcs
  · exact fun q cs hq hl => hal.lists_other hnew hns hmade hq hl

/-- What a step does to the block counts and to what the paths list. -/
def Effect [DecidableEq ι] (blockSize : Int64) (path : ι → Bytes) (data : ι → Buffer) (s s' : System ι)
    (n n' : ι → Nat) : Prop :=
  (n' = n ∧ s'.cluster.ns.tree = s.cluster.ns.tree ∧ s'.made = s.made) ∨
    ∃ i chunk, n' = Function.update n i (n i + 1) ∧ Extends blockSize path data s s' i (n i) chunk

variable [DecidableEq ι]

theorem Effect.still {c : Cluster} {i : ι} {cl : Client} {n n' : ι → Nat} (hn : n' = n)
    (ht : c.ns.tree = s.cluster.ns.tree) : Effect blockSize path data s (s.goto i c cl) n n' :=
  .inl ⟨hn, ht, rfl⟩

theorem stepsOf_client (i j : ι) (e : ChunkEnv) (o : ReadOutcome) :
    stepsOf j [Event.client i e o] = if i = j then 1 else 0 := by
  unfold stepsOf
  by_cases h : i = j <;> simp [h]

/-- A writer that moves has a step less to go. -/
theorem toGo_update {i j : ι} {w' : Writer} {e : ChunkEnv} {o : ReadOutcome} {k : Nat}
    (h : w'.toGo k + 1 ≤ (w i).toGo k) :
    (Function.update w i w' j).toGo k ≤ (w j).toGo k - stepsOf j [Event.client i e o] := by
  rw [stepsOf_client]
  by_cases hj : j = i
  · subst hj
    rw [Function.update_self, if_pos rfl]
    omega
  · rw [Function.update_of_ne hj, if_neg (Ne.symm hj), Nat.sub_zero]

/-- A step of a writer that allocates and sends nothing. -/
theorem Writers.step_still (h : Writers blockSize path data s w) {i : ι} {c : Cluster} (hq : Quiet s.cluster c)
    {w' : Writer} (hnot : ∀ n a chunk rest, w i ≠ .sending n a chunk rest)
    (hnot' : ∀ n a chunk rest, w' ≠ .sending n a chunk rest)
    (hfollows : w'.Follows (chunkLen blockSize) (data i).1)
    (hcount : w'.allocated (chunksOf blockSize data i).length = counts blockSize data w i)
    (hgo : w'.toGo (chunkLen blockSize) + 1 ≤ (w i).toGo (chunkLen blockSize)) (e : ChunkEnv) (o : ReadOutcome) :
    ∃ w'', Writers blockSize path data (s.goto i c [.write (path i) true w']) w'' ∧
      (∀ j, (w'' j).toGo (chunkLen blockSize) ≤
        (w j).toGo (chunkLen blockSize) - stepsOf j [Event.client i e o]) ∧
      Effect blockSize path data s (s.goto i c [.write (path i) true w']) (counts blockSize data w)
        (counts blockSize data w'') := by
  refine ⟨_, (h.quiet hq).goOn hnot hnot' hfollows hcount, fun j => toGo_update hgo, Effect.still ?_ hq.tree⟩
  rw [counts_update, hcount, Function.update_eq_self]

theorem Writers.step_client (h : Writers blockSize path data s w) (hb : 0 < blockSize) (habove : NoneAbove path)
    {i : ι} (hm : Move blockSize s i s') (e : ChunkEnv) (o : ReadOutcome) :
    ∃ w', Writers blockSize path data s' w' ∧
      (∀ j, (w' j).toGo (chunkLen blockSize) ≤
        (w j).toGo (chunkLen blockSize) - stepsOf j [Event.client i e o]) ∧
      Effect blockSize path data s s' (counts blockSize data w) (counts blockSize data w') := by
  have hsound := hm.sound h.sound
  have hi := h.clients i
  have hfollows := h.follows i
  cases hm with
  | @allocate path' overwrite n rest tail e' hc hne hnew hfresh =>
    rw [hi] at hc
    obtain ⟨⟨rfl, rfl, hw⟩, rfl⟩ := by simpa using hc
    obtain ⟨old, hal, hfirst, hmore⟩ := h.allocated hw e'
    have hcounts : counts blockSize data w i = n := by rw [counts, hw]; rfl
    refine ⟨_, h.allocate hb habove hw hne hnew hal rfl hsound, fun j => toGo_update ?_,
      .inr ⟨i, rest.1.take (chunkLen blockSize), ?_, ?_⟩⟩
    · have hlen : (s.cluster.targets e').length = min 3 s.cluster.ns.datanodes.entries.length :=
        FsNamesystem.length_chooseTargets _ _
      have hcount := count_drop (chunkLen_pos hb) hne
      rw [hw, hal.block, Writer.toGo, Writer.toGo, hcount, Buffer.drop]
      simp only
      omega
    · rw [counts_update, hcounts]; rfl
    · rw [hcounts]
      exact h.extends_allocated hb hw hne hnew hal hfirst hmore rfl rfl
  | @send path' overwrite n a chunk rest tail hc =>
    rw [hi] at hc
    obtain ⟨⟨rfl, rfl, hw⟩, rfl⟩ := by simpa using hc
    refine ⟨_, h.send hw hsound, fun j => toGo_update ?_, Effect.still ?_ (by rw [sendBlock_ns])⟩
    · rw [hw, Writer.toGo, Writer.toGo]
      omega
    · rw [counts_update]
      refine (congrArg _ ?_).trans (Function.update_eq_self i _)
      rw [counts, hw]; rfl
  | @confirm path' overwrite n a len dn todo rest tail rpc hc =>
    rw [hi] at hc
    obtain ⟨⟨rfl, rfl, hw⟩, rfl⟩ := by simpa using hc
    rw [hw] at hfollows
    refine h.step_still (quiet_confirmBlock s.cluster a len dn rpc) ?_ ?_
      (show Writer.Follows _ _ (.confirming n a len todo rest) from hfollows) ?_ ?_ e o
    · rw [hw]; exact fun _ _ _ _ => Writer.noConfusion
    · exact fun _ _ _ _ => Writer.noConfusion
    · rw [counts, hw]; rfl
    · rw [hw, Writer.toGo, Writer.toGo, List.length_cons]
      omega
  | @turn path' overwrite n a len rest tail hc =>
    rw [hi] at hc
    obtain ⟨⟨rfl, rfl, hw⟩, rfl⟩ := by simpa using hc
    rw [hw] at hfollows
    refine h.step_still (Quiet.refl s.cluster) ?_ ?_ (show Writer.Follows _ _ (.allocating (n + 1) rest) from hfollows)
      ?_ ?_ e o
    · rw [hw]; exact fun _ _ _ _ => Writer.noConfusion
    · exact fun _ _ _ _ => Writer.noConfusion
    · rw [counts, hw]; rfl
    · rw [hw, Writer.toGo, Writer.toGo, List.length_nil]
      omega
  | @finish path' overwrite n rest tail hc hnil =>
    rw [hi] at hc
    obtain ⟨⟨rfl, rfl, hw⟩, rfl⟩ := by simpa using hc
    rw [hw] at hfollows
    refine h.step_still (Quiet.refl s.cluster) ?_ ?_ (show Writer.Follows _ _ (.returned .OK) from rfl) ?_ ?_ e o
    · rw [hw]; exact fun _ _ _ _ => Writer.noConfusion
    · exact fun _ _ _ _ => Writer.noConfusion
    · rw [counts, hw]; exact (hfollows.finish (chunkLen_pos hb) hnil).symm
    · rw [hw, Writer.toGo, Writer.toGo]
      omega
  | read o hc => rw [hi] at hc; cases hc
  | delete hc => rw [hi] at hc; cases hc
  | next hc _ hne =>
    rw [hi] at hc
    cases hc
    exact absurd rfl hne
  | stay hend =>
    rcases hend with hnil | ⟨act, st, hc, hr⟩
    · rw [hi] at hnil; cases hnil
    · rw [hi] at hc
      cases hc
      cases hw : w i with
      | returned st' =>
        refine ⟨w, h, fun j => ?_, .inl ⟨rfl, rfl, rfl⟩⟩
        rw [stepsOf_client]
        by_cases hj : i = j
        · subst hj; rw [hw]; exact Nat.zero_le _
        · rw [if_neg hj, Nat.sub_zero]
      | _ => rw [hw] at hr; cases hr

theorem Writers.step (h : Writers blockSize path data s w) (hb : 0 < blockSize) (habove : NoneAbove path)
    {ev : Event ι} (hstep : SystemStep blockSize s ev s') :
    ∃ w', Writers blockSize path data s' w' ∧
      (∀ j, (w' j).toGo (chunkLen blockSize) ≤ (w j).toGo (chunkLen blockSize) - stepsOf j [ev]) ∧
      Effect blockSize path data s s' (counts blockSize data w) (counts blockSize data w') := by
  obtain ⟨hev, rfl⟩ := hstep
  cases ev with
  | client i e o => exact h.step_client hb habove (client_move hev) e o
  | heartbeat now dnName host port capacity remaining =>
    exact ⟨w, h.quiet (quiet_heartbeat s.cluster now dnName host port capacity remaining), fun _ => Nat.le_refl _,
      .inl ⟨rfl, rfl, rfl⟩⟩
  | blockReport dnName blocks =>
    have hq := quiet_blockReport s.cluster dnName blocks
    exact ⟨w, h.quiet hq, fun _ => Nat.le_refl _, .inl ⟨rfl, hq.tree, rfl⟩⟩

/-- A fact about the block counts and the system that every effect keeps holds in every run, and a writer
that has taken enough steps has returned. -/
theorem writers_run {c : Cluster} (hr : c.ns.Reachable) (hacc : ∀ i, c.ns.Accepts (path i) true) (hb : 0 < blockSize)
    (habove : NoneAbove path) {inv : System ι → (ι → Nat) → Prop} (h₀ : inv (startWrites c path data) fun _ => 0)
    (hinv : ∀ s s' n n', inv s n → Effect blockSize path data s s' n n' → inv s' n') {es : List (Event ι)}
    (hrun : Run (SystemStep blockSize) (startWrites c path data) es s) :
    ∃ w, Writers blockSize path data s w ∧ inv s (counts blockSize data w) ∧
      ∀ j, (w j).toGo (chunkLen blockSize) ≤ 6 * blockCount blockSize (data j) + 1 - stepsOf j es := by
  refine @Run.invariant _ _ _ (fun es s => ∃ w, Writers blockSize path data s w ∧ inv s (counts blockSize data w) ∧
    ∀ j, (w j).toGo (chunkLen blockSize) ≤ 6 * blockCount blockSize (data j) + 1 - stepsOf j es) _ _ _ hrun
    ⟨_, startWrites_writers hr hacc, h₀, fun j => Nat.le_refl _⟩ ?_
  rintro es s ev s' ⟨w, hw, hi, hgo⟩ hstep
  obtain ⟨w', hw', hgo', heff⟩ := hw.step hb habove hstep
  refine ⟨w', hw', hinv _ _ _ _ hi heff, fun j => ?_⟩
  have hsteps : stepsOf j (es ++ [ev]) = stepsOf j es + stepsOf j [ev] := List.countP_append
  have h1 := hgo j
  have h2 := hgo' j
  omega

end Step

/-! ## At the end -/

section Result

variable {s : System ι} {w : ι → Writer}

/-- The status that the call of a client has returned. -/
def System.result (s : System ι) (i : ι) : Option Status := (s.clients i).head?.bind Activity.result

theorem Writers.result_eq (h : Writers blockSize path data s w) {i : ι} {st : Status} :
    s.result i = some st ↔ w i = .returned st := by
  rw [System.result, h.clients i]
  show (Activity.write (path i) true (w i)).result = some st ↔ _
  cases w i with
  | returned st' =>
    constructor
    · intro heq; cases heq; rfl
    · intro heq; cases heq; rfl
  | _ =>
    constructor
    · intro heq; cases heq
    · intro heq; cases heq

/-- No write returns anything but OK. -/
theorem Writers.result_ok (h : Writers blockSize path data s w) {i : ι} {st : Status} (hr : s.result i = some st) :
    st = .OK := by
  have hf := h.follows i
  rw [h.result_eq.1 hr] at hf
  exact hf

/-- When all writes have returned, all blocks have been allocated and can be read. -/
theorem Writers.finished (h : Writers blockSize path data s w) (hall : ∀ i, (s.result i).isSome) :
    (∀ i, counts blockSize data w i = (chunksOf blockSize data i).length) ∧
      ∀ {p : Bytes} {cs : List Bytes}, s.Lists (splitPath p) cs → s.cluster.read p = (.OK, cs.flatten) := by
  have hret : ∀ i, ∃ st, w i = .returned st := by
    intro i
    obtain ⟨st, hst⟩ := Option.isSome_iff_exists.1 (hall i)
    exact ⟨st, h.result_eq.1 hst⟩
  refine ⟨fun i => ?_, fun hl => hl.read h.sound fun id chunk hm => ?_⟩
  · obtain ⟨st, hst⟩ := hret i
    rw [counts, hst]; rfl
  · refine (h.placed id chunk hm).resolve_right ?_
    rintro ⟨i, n, a, ch, rest, hw, -⟩
    obtain ⟨st, hst⟩ := hret i
    rw [hst] at hw; cases hw

end Result

/-! ## Unrelated paths -/

section Unrelated

variable [DecidableEq ι] {s : System ι}

/-- Clients that write to unrelated paths, in any interleaving, with any heartbeats and block reports between
their steps: a client that has taken enough steps has returned, a client that has returned has returned
OK, and when all have, every path reads as its data. -/
theorem unrelated_writers {c : Cluster} (hr : c.ns.Reachable) (hb : 0 < blockSize)
    (hacc : ∀ i, c.ns.Accepts (path i) true) (hne : ∀ i, (data i).1 ≠ [])
    (hpaths : ∀ i j, i ≠ j → ¬ splitPath (path i) <+: splitPath (path j)) {es : List (Event ι)}
    (hrun : Run (SystemStep blockSize) (startWrites c path data) es s) :
    (∀ i, 6 * blockCount blockSize (data i) + 1 ≤ stepsOf i es → s.result i = some .OK) ∧
    (∀ i st, s.result i = some st → st = .OK) ∧
    ((∀ i, (s.result i).isSome) → ∀ i, s.cluster.read (path i) = (.OK, (data i).1)) := by
  have habove : NoneAbove path := by
    intro i j hpre
    by_cases hij : i = j
    · rw [hij]
    · exact absurd hpre (hpaths i j hij)
  -- every path lists the chunks its writer has allocated
  obtain ⟨w, hw, hlists, hgo⟩ := @writers_run ι blockSize path data s _ c hr hacc hb habove
    (fun s n => ∀ i, 0 < n i → s.Lists (splitPath (path i)) ((chunksOf blockSize data i).take (n i)))
    (fun _ h => absurd h (Nat.lt_irrefl 0)) (by
      rintro s s' n n' hinv (⟨rfl, htree, hmade⟩ | ⟨i, chunk, rfl, hext⟩) j hj
      · exact (hinv j hj).same htree hmade
      · by_cases hji : j = i
        · subst hji
          rw [Function.update_self, take_succ_of_next hext.next]
          rcases Nat.eq_zero_or_pos (n j) with hzero | hpos
          · rw [hzero, List.take_zero]; exact hext.first hzero
          · exact hext.more hpos _ (hinv j hpos)
        · rw [Function.update_of_ne hji] at hj ⊢
          exact hext.other _ _ (hpaths i j (Ne.symm hji)) (hinv j hj)) es hrun
  refine ⟨fun i hi => ?_, fun i st hst => hw.result_ok hst, fun hall i => ?_⟩
  · have hzero : (w i).toGo (chunkLen blockSize) = 0 := by have := hgo i; omega
    obtain ⟨st, hst⟩ := Writer.returned_of_toGo hzero
    have hres := hw.result_eq.2 hst
    rw [hres, hw.result_ok hres]
  · obtain ⟨hcounts, hread⟩ := hw.finished hall
    have hk := chunkLen_pos hb
    have hpos : 0 < (chunksOf blockSize data i).length :=
      List.length_pos_iff.2 fun hnil => hne i ((chunks_eq_nil hk).1 hnil)
    have hl := hlists i (by rw [hcounts]; exact hpos)
    rw [hcounts, List.take_length] at hl
    rw [hread hl, chunksOf, flatten_chunks hk]

end Unrelated

end Writers

/-- The clients take steps in the given order; every step would generate a new id. -/
def healthySchedule {ι : Type} (order : List ι) : List (Event ι) :=
  order.zipIdx.map fun p => .client p.1 (healthyTurn p.2) .complete

/-- A run of two writers on a new cluster with one DataNode. -/
theorem healthySchedule_run {blockSize : Int64} {path : Bool → Bytes} {data : Bool → Buffer} (order : List Bool)
    (h : allNew blockSize (startWrites (freshCluster [localNode 9000]) path data) (healthySchedule order) = true) :
    Run (SystemStep blockSize) (startWrites (freshCluster [localNode 9000]) path data) (healthySchedule order)
      ((healthySchedule order).foldl (System.step blockSize) (startWrites (freshCluster [localNode 9000]) path data)) := by
  refine run_of_allNew _ ⟨fun _ _ _ _ hm => (by cases hm), fun i act hact => ?_⟩ ⟨emptyTree_ok, fun id _ => ?_⟩ h
  · rw [List.mem_singleton.1 hact]; trivial
  · exact Cluster.fresh_of_empty (freshCluster_tree _) (fun _ _ => rfl) id

def twoPaths (i : Bool) : Bytes := if i then bytes "/a" else bytes "/b"

theorem unrelated_writers_twoPaths :
    ∃ es s, Run (SystemStep 2) (startWrites (freshCluster [localNode 9000]) twoPaths fun _ => threeBytes) es s ∧
      s.cluster.read (bytes "/a") = (.OK, [1, 2, 3]) ∧ s.cluster.read (bytes "/b") = (.OK, [1, 2, 3]) := by
  have hacc : ∀ i, (freshCluster [localNode 9000]).ns.Accepts (twoPaths i) true := by
    intro i
    cases i
    · exact ⟨by decide, .inl rfl, by decide, noFileOn_nil emptyTree_ok⟩
    · exact ⟨by decide, .inl rfl, by decide, noFileOn_nil emptyTree_ok⟩
  have hrun := @healthySchedule_run 2 twoPaths (fun _ => threeBytes)
    ((List.replicate 13 [true, false]).flatten) (by decide)
  obtain ⟨hret, -, hread⟩ := unrelated_writers (freshCluster_reachable _) (by decide) hacc (fun _ => by decide)
    (by intro i j hij; cases i <;> cases j <;> first | exact absurd rfl hij | decide) hrun
  have hall := hread fun i => by
    rw [hret i (by cases i <;> decide)]; rfl
  exact ⟨_, _, hrun, hall true, hall false⟩

/-! ## One path -/

/-- The third list has the elements of the first two, each in its order. -/
inductive Merge {α : Type} : List α → List α → List α → Prop
  | nil : Merge [] [] []
  | left {xs ys zs : List α} (x : α) : Merge xs ys zs → Merge (xs ++ [x]) ys (zs ++ [x])
  | right {xs ys zs : List α} (y : α) : Merge xs ys zs → Merge xs (ys ++ [y]) (zs ++ [y])

section OnePath

variable {blockSize : Int64} {path : Bytes} {data : Bool → Buffer} {s : System Bool} {c : Cluster}

/-- What the path of two writers lists: nothing new as long as no block is allocated, and then the chunks of
the writer that came last with its first block, merged with those that the other one got blocks for after
that. -/
def MergeListed (blockSize : Int64) (path : Bytes) (data : Bool → Buffer) (c : Cluster) (s : System Bool)
    (n : Bool → Nat) : Prop :=
  ((∀ i, n i = 0) ∧ s.cluster.ns.tree = c.ns.tree) ∨
    ∃ i m cs, 0 < n i ∧ (n (!i) = 0 ∨ 0 < m ∧ m ≤ n (!i)) ∧
      Merge ((chunksOf blockSize data i).take (n i)) (((chunksOf blockSize data (!i)).take (n (!i))).drop m) cs ∧
      s.Lists (splitPath path) cs

theorem not_eq_of_ne {i j : Bool} (h : j ≠ i) : j = !i := by
  cases i <;> cases j <;> first | rfl | exact absurd rfl h

theorem MergeListed.step {s s' : System Bool} {n n' : Bool → Nat} (h : MergeListed blockSize path data c s n)
    (heff : Effect blockSize (fun _ => path) data s s' n n') : MergeListed blockSize path data c s' n' := by
  rcases heff with ⟨rfl, htree, hmade⟩ | ⟨j, chunk, rfl, hext⟩
  · rcases h with ⟨hzero, hsame⟩ | ⟨i, m, cs, hi, hm, hmerge, hl⟩
    · exact .inl ⟨hzero, htree.trans hsame⟩
    · exact .inr ⟨i, m, cs, hi, hm, hmerge, hl.same htree hmade⟩
  · right
    have htake := take_succ_of_next hext.next
    have hself : Function.update n j (n j + 1) j = n j + 1 := Function.update_self ..
    have hnot : Function.update n j (n j + 1) (!j) = n (!j) := Function.update_of_ne (by cases j <;> decide) ..
    rcases Nat.eq_zero_or_pos (n j) with hzero | hpos
    · -- the first block: what was there is gone
      refine ⟨j, n (!j), [chunk], by rw [hself]; omega, ?_, ?_, hext.first hzero⟩
      · rw [hnot]; omega
      · rw [hself, hnot, htake, hzero, List.take_zero, List.drop_of_length_le (by rw [List.length_take]; omega)]
        exact .left chunk .nil
    · rcases h with ⟨hzero, -⟩ | ⟨i, m, cs, hi, hm, hmerge, hl⟩
      · exact absurd (hzero j) (by omega)
      · refine ⟨i, m, cs ++ [chunk], ?_, ?_, ?_, hext.more hpos cs hl⟩
        · by_cases hij : i = j
          · rw [hij, hself]; omega
          · rw [Function.update_of_ne hij]; exact hi
        · by_cases hij : i = j
          · rw [hij, hnot, ← hij]; exact hm
          · rw [not_eq_of_ne (Ne.symm hij)] at hpos
            rw [← not_eq_of_ne (Ne.symm hij), hself, not_eq_of_ne (Ne.symm hij)]
            omega
        · by_cases hij : i = j
          · subst hij
            rw [hself, hnot, htake]
            exact .left chunk hmerge
          · -- the other writer, which has started before
            have hj := not_eq_of_ne (Ne.symm hij)
            rw [Function.update_of_ne hij]
            rw [← hj] at hm hmerge ⊢
            have hlen : n j < (chunksOf blockSize data j).length := (List.getElem?_eq_some_iff.1 hext.next).1
            rw [hself, htake, List.drop_append_of_le_length (by rw [List.length_take]; omega)]
            exact .right chunk hmerge

/-- Two writers on one path: when both have returned, the path reads as a merge of all the chunks of the one
whose first block came last with the last chunks of the other, without its first one; if neither wrote
anything, the path has the blocks it had. -/
theorem same_path_writers (hr : c.ns.Reachable) (hb : 0 < blockSize) (hacc : c.ns.Accepts path true)
    {es : List (Event Bool)} (hrun : Run (SystemStep blockSize) (startWrites c (fun _ => path) data) es s)
    (hall : ∀ i, s.result i = some .OK) :
    ((∀ i, (data i).1 = []) ∧ (s.cluster.ns.getBlocks path).blocks = (c.ns.getBlocks path).blocks) ∨
    ∃ i m cs, (data i).1 ≠ [] ∧ ((data (!i)).1 = [] ∨ 0 < m) ∧
      Merge (chunks blockSize.toUInt64.toNat (data i).1)
        ((chunks blockSize.toUInt64.toNat (data (!i)).1).drop m) cs ∧
      s.cluster.read path = (.OK, cs.flatten) := by
  have hk := chunkLen_pos hb
  obtain ⟨w, hw, hinv, -⟩ := @writers_run Bool blockSize (fun _ => path) data s _ c hr (fun _ => hacc) hb
    (fun _ _ _ => rfl) (MergeListed blockSize path data c) (.inl ⟨fun _ => rfl, rfl⟩)
    (fun _ _ _ _ h heff => h.step heff) es hrun
  obtain ⟨hcounts, hread⟩ := hw.finished fun i => by rw [hall i]; rfl
  have hnil : ∀ i, (chunksOf blockSize data i).length = 0 → (data i).1 = [] :=
    fun i h0 => (chunks_eq_nil hk).1 (List.length_eq_zero_iff.1 h0)
  rcases hinv with ⟨hzero, htree⟩ | ⟨i, m, cs, hi, hm, hmerge, hl⟩
  · refine .inl ⟨fun i => hnil i ((hcounts i).symm.trans (hzero i)), ?_⟩
    by_cases hf : IsFile c.ns.tree (splitPath path)
    · obtain ⟨bl, hbl⟩ := hf
      rw [FsNamesystem.getBlocks_file hbl, FsNamesystem.getBlocks_file (htree ▸ hbl)]
    · rw [FsNamesystem.getBlocks_not_file hf, FsNamesystem.getBlocks_not_file (htree ▸ hf)]
  · rw [hcounts i] at hi hmerge
    rw [hcounts (!i)] at hm hmerge
    rw [List.take_length, List.take_length] at hmerge
    refine .inr ⟨i, m, cs, fun h0 => ?_, hm.imp (hnil _) And.left, hmerge, hread hl⟩
    rw [chunksOf, h0, chunks_nil hk] at hi
    exact absurd hi (Nat.lt_irrefl 0)

end OnePath

/-- Two bytes for one client and one byte for the other. -/
def twoAndOne (i : Bool) : Buffer := if i then ⟨[1, 2], lt_maxSize (by decide)⟩ else ⟨[3], lt_maxSize (by decide)⟩

/-- One client gets its first block, then the other one; after that each finishes by itself. -/
def startsCross : List Bool := [true, false] ++ List.replicate 12 true ++ List.replicate 8 false

theorem startsCross_run :
    ∃ s, Run (SystemStep 1) (startWrites (freshCluster [localNode 9000]) (fun _ => bytes "/f") twoAndOne)
        (healthySchedule startsCross) s ∧
      (∀ i, s.result i = some .OK) ∧ s.cluster.read (bytes "/f") = (.OK, [3, 2]) :=
  ⟨_, healthySchedule_run startsCross (by decide), by decide, by decide +kernel⟩

theorem same_path_accepts : (freshCluster [localNode 9000]).ns.Accepts (bytes "/f") true :=
  ⟨by decide, .inl rfl, by decide, noFileOn_nil emptyTree_ok⟩

theorem same_path_writers_cross :
    ∃ (s : System Bool) (i : Bool) (m : Nat) (cs : List Bytes),
      Merge (chunks 1 (twoAndOne i).1) ((chunks 1 (twoAndOne (!i)).1).drop m) cs ∧
        s.cluster.read (bytes "/f") = (.OK, cs.flatten) ∧ cs.flatten = [3, 2] := by
  obtain ⟨s, hrun, hall, hread⟩ := startsCross_run
  rcases same_path_writers (freshCluster_reachable _) (by decide) same_path_accepts hrun hall with
    ⟨hnil, -⟩ | ⟨i, m, cs, -, -, hmerge, hcs⟩
  · exact absurd (hnil true) (by decide)
  · refine ⟨s, i, m, cs, hmerge, hcs, ?_⟩
    rw [hread] at hcs
    exact (Prod.mk.inj hcs).2.symm

/-- The path reads as the data of neither client. -/
theorem same_path_writers_mix :
    ¬ ∀ (c : Cluster) (blockSize : Int64) (path : Bytes) (data : Bool → Buffer) (es : List (Event Bool))
      (s : System Bool), c.ns.Reachable → 0 < blockSize → c.ns.Accepts path true →
        Run (SystemStep blockSize) (startWrites c (fun _ => path) data) es s → (∀ i, s.result i = some .OK) →
          ∃ i, s.cluster.read path = (.OK, (data i).1) := by
  intro h
  obtain ⟨s, hrun, hall, hread⟩ := startsCross_run
  obtain ⟨i, hi⟩ := h _ _ _ _ _ s (freshCluster_reachable _) (by decide) same_path_accepts hrun hall
  rw [hread] at hi
  cases i
  · exact absurd (Prod.mk.inj hi).2 (by decide)
  · exact absurd (Prod.mk.inj hi).2 (by decide)

end MiniHadoop.Ndfs

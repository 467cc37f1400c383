/-
A read that overlaps writes and deletions of the same path by another client. The reader takes a list of
blocks and then fetches them one by one; a block id is generated for one chunk of one write and is never
stored as anything else, so whatever happens to the path in between, what the reader gets are the first
chunks of one write.
-/
import MiniHadoop.Ndfs.FileMap
import MiniHadoop.Ndfs.Writers

namespace MiniHadoop.Ndfs

open Text Wire Chunks Runs

/-! ## The two clients -/

inductive Role where
  | reader
  | writer
  deriving DecidableEq, Repr

/-- A call of the writing client, on the path that is read. -/
inductive Job where
  | write (data : Buffer)
  | delete

def Job.activity (path : Bytes) : Job → Activity
  | .write data => .write path true (.allocating 0 data)
  | .delete => .delete path none

/-- One client is about to read the path, the other to make its calls one after another. -/
def startOverlap (c : Cluster) (path : Bytes) (jobs : List Job) : System Role where
  cluster := c
  clients
    | .reader => [.read (.asking path)]
    | .writer => jobs.map (Job.activity path)

/-! ## What the reader may see -/

section Overlap

variable {blockSize : Int64} {path : Bytes} {jobs : List Job}

/-- Nothing, or the first chunks of one of the writes. -/
def Version (blockSize : Int64) (jobs : List Job) (cs : List Bytes) : Prop :=
  cs = [] ∨ ∃ data n, Job.write data ∈ jobs ∧ cs = (chunks (chunkLen blockSize) data.1).take n

/-- The call the writer works on: the path lists the chunks it has blocks for. -/
def Working (blockSize : Int64) (path : Bytes) (jobs : List Job) (s : System Role) : Activity → Prop
  | .write p overwrite w => p = path ∧ overwrite = true ∧ ∃ data, Job.write data ∈ jobs ∧
      w.Follows (chunkLen blockSize) data.1 ∧
      (0 < w.allocated (chunks (chunkLen blockSize) data.1).length → s.Lists (splitPath path)
        ((chunks (chunkLen blockSize) data.1).take (w.allocated (chunks (chunkLen blockSize) data.1).length)))
  | .delete p _ => p = path
  | .read _ => False

/-- Where the reader stands: what it has, with what was generated for the blocks still to fetch, is a
version. -/
def Reads (blockSize : Int64) (path : Bytes) (jobs : List Job) (made : Int64 → Option Bytes) : Reader → Prop
  | .asking p => p = path
  | .fetching got todo => ∃ cs cs', Version blockSize jobs (cs ++ cs') ∧ got = cs.flatten ∧
      todo.map (fun b => made b.1.blockId) = cs'.map some
  | .returned st got => st = .OK → ∃ cs, Version blockSize jobs cs ∧ got = cs.flatten

structure Overlap (blockSize : Int64) (path : Bytes) (jobs : List Job) (s : System Role) : Prop where
  sound : s.Sound
  tree : TreeOk s.cluster.ns.tree
  accepts : s.cluster.ns.Accepts path true
  listed : ∀ bl, entryAt s.cluster.ns.tree (splitPath path) = some ⟨.kFile, bl⟩ →
    ∃ cs, Version blockSize jobs cs ∧ bl.map s.made = cs.map some
  reader : ∃ r, s.clients .reader = [.read r] ∧ Reads blockSize path jobs s.made r
  writer : ∀ act tail, s.clients .writer = act :: tail → Working blockSize path jobs s act ∧
    ∀ act' ∈ tail, ∃ job ∈ jobs, act' = job.activity path

theorem working_activity {job : Job} (h : job ∈ jobs) (s : System Role) :
    Working blockSize path jobs s (job.activity path) := by
  cases job with
  | write data => exact ⟨rfl, rfl, data, h, ⟨Nat.zero_le _, rfl⟩, fun h0 => absurd h0 (Nat.lt_irrefl 0)⟩
  | delete => rfl

theorem startOverlap_overlap {c : Cluster} (hr : c.ns.Reachable) (hacc : c.ns.Accepts path true)
    (hf : ¬ IsFile c.ns.tree (splitPath path)) : Overlap blockSize path jobs (startOverlap c path jobs) := by
  refine ⟨⟨fun _ _ _ _ h => (by cases h), fun i act hact => ?_⟩, hr.tree_ok, hacc, fun bl hbl => absurd ⟨bl, hbl⟩ hf,
    ⟨_, rfl, rfl⟩, fun act tail hc => ?_⟩
  · cases i with
    | reader => rw [List.mem_singleton.1 hact]; trivial
    | writer =>
      obtain ⟨job, -, rfl⟩ := List.mem_map.1 hact
      cases job <;> trivial
  · change jobs.map (Job.activity path) = act :: tail at hc
    have hmem : ∀ act' ∈ act :: tail, ∃ job ∈ jobs, act' = job.activity path := by
      intro act' hact'
      rw [← hc] at hact'
      obtain ⟨job, hjob, rfl⟩ := List.mem_map.1 hact'
      exact ⟨job, hjob, rfl⟩
    obtain ⟨job, hjob, rfl⟩ := hmem act (List.mem_cons_self ..)
    exact ⟨working_activity hjob _, fun act' hact' => hmem act' (List.mem_cons_of_mem _ hact')⟩

theorem Reads.mono {made made' : Int64 → Option Bytes}
    (hmono : ∀ id chunk, made id = some chunk → made' id = some chunk) : ∀ {r : Reader},
      Reads blockSize path jobs made r → Reads blockSize path jobs made' r
  | .asking _, h => h
  | .returned _ _, h => h
  | .fetching _ todo, ⟨cs, cs', hv, hgot, htodo⟩ => by
    refine ⟨cs, cs', hv, hgot, ?_⟩
    have hids : (todo.map fun b => b.1.blockId).map made = cs'.map some := by rw [List.map_map]; exact htodo
    have := map_made_mono hmono hids
    rwa [List.map_map] at this

theorem Working.lists {s s' : System Role} {act : Activity} (h : Working blockSize path jobs s act)
    (hl : ∀ cs, s.Lists (splitPath path) cs → s'.Lists (splitPath path) cs) : Working blockSize path jobs s' act := by
  cases act with
  | write p overwrite w =>
    obtain ⟨hp, ho, data, hdata, hf, hlists⟩ := h
    exact ⟨hp, ho, data, hdata, hf, fun hpos => hl _ (hlists hpos)⟩
  | delete p result => exact h
  | read r => exact h

/-! ## The steps -/

variable {s s' : System Role}

theorem Overlap.quiet (h : Overlap blockSize path jobs s) {c : Cluster} (hq : Quiet s.cluster c) :
    Overlap blockSize path jobs { s with cluster := c } := by
  refine ⟨⟨fun address id chunk d hm hd => ?_, h.sound.sending⟩, hq.tree ▸ h.tree,
    ⟨hq.writable h.accepts.writable, .inl rfl, h.accepts.proper, hq.tree ▸ h.accepts.parents⟩,
    fun bl hbl => h.listed bl (hq.tree ▸ hbl), h.reader, fun act tail hc => ?_⟩
  · rw [show ({ s with cluster := c } : System Role).cluster.stores = s.cluster.stores from hq.stores] at hd
    exact h.sound.whole address id chunk d hm hd
  · obtain ⟨hact, htail⟩ := h.writer act tail hc
    exact ⟨hact.lists fun cs hl => hl.same hq.tree rfl, htail⟩

/-- A step of the reader: it takes the list, fetches a block, tries the next location or returns. -/
theorem Overlap.reads (h : Overlap blockSize path jobs s) {r : Reader} (hr : Reads blockSize path jobs s.made r)
    (o : ReadOutcome) : Reads blockSize path jobs s.made (s.cluster.stepRead .answered o r) := by
  cases r with
  | asking p =>
    obtain rfl : p = path := hr
    show Reads blockSize p jobs s.made (.fetching []
      ((s.cluster.ns.getBlocks p).blocks.zip (s.cluster.ns.getBlocks p).locations))
    by_cases hf : IsFile s.cluster.ns.tree (splitPath p)
    · obtain ⟨bl, hbl⟩ := hf
      obtain ⟨cs, hv, hcs⟩ := h.listed bl hbl
      refine ⟨[], cs, hv, rfl, ?_⟩
      rw [FsNamesystem.getBlocks_file hbl, List.zip_map', List.map_map]
      exact hcs
    · rw [FsNamesystem.getBlocks_not_file hf]
      exact ⟨[], [], .inl rfl, rfl, rfl⟩
  | fetching got todo =>
    obtain ⟨cs, cs', hv, rfl, htodo⟩ := hr
    rcases todo with - | ⟨⟨block, targets⟩, rest⟩
    · -- all blocks are fetched
      cases cs' with
      | nil => exact fun _ => ⟨cs, by rw [List.append_nil] at hv; exact hv, rfl⟩
      | cons chunk cs' => cases htodo
    · cases targets with
      | nil => exact fun hst => by cases hst
      | cons dn targets =>
        cases hfetch : s.cluster.fetchBlock block.blockId dn o with
        | none =>
          rw [Cluster.stepRead, hfetch]
          exact ⟨cs, cs', hv, rfl, htodo⟩
        | some d =>
          rw [Cluster.stepRead, hfetch]
          cases cs' with
          | nil => cases htodo
          | cons chunk cs' =>
            rw [List.map_cons, List.map_cons, List.cons.injEq] at htodo
            obtain rfl := h.sound.whole dn.address _ chunk d htodo.1 (fetchBlock_held hfetch)
            exact ⟨cs ++ [d], cs', by rw [List.append_assoc]; exact hv, by simp, htodo.2⟩
  | returned st got => exact hr

/-- The writer goes on with the same tree. -/
theorem Overlap.goOn (h : Overlap blockSize path jobs s) {c : Cluster} {act act' : Activity} {tail : Client}
    (hc : s.clients .writer = act :: tail) (hsound : (s.goto .writer c (act' :: tail)).Sound)
    (htree : c.ns.tree = s.cluster.ns.tree) (hsafe : c.ns.inSafeMode = false)
    (hw : Working blockSize path jobs s act') : Overlap blockSize path jobs (s.goto .writer c (act' :: tail)) := by
  obtain ⟨r, hr, hreads⟩ := h.reader
  refine ⟨hsound, htree ▸ h.tree, ⟨hsafe, .inl rfl, h.accepts.proper, htree ▸ h.accepts.parents⟩,
    fun bl hbl => h.listed bl (htree ▸ hbl), ⟨r, ?_, hreads⟩, fun x t hx => ?_⟩
  · rw [goto_clients_ne (by decide)]; exact hr
  · rw [goto_clients_self] at hx
    cases hx
    exact ⟨hw.lists fun cs hl => hl.same htree rfl, (h.writer act tail hc).2⟩

/-- A new block of the write in progress: the path lists one chunk more of its data. -/
theorem Overlap.allocate (h : Overlap blockSize path jobs s) (hb : 0 < blockSize) {p : Bytes} {overwrite : Bool}
    {n : Nat} {rest : Buffer} {tail : Client} {e : ChunkEnv}
    (hc : s.clients .writer = .write p overwrite (.allocating n rest) :: tail) (hne : rest.1 ≠ [])
    (hnew : s.made e.id = none)
    (hs' : s' = (s.goto .writer
      { s.cluster with ns := (allocateBlock (n = 0) e.id e.order p overwrite s.cluster.ns).1 }
      (.write p overwrite (.sending n (allocateBlock (n = 0) e.id e.order p overwrite s.cluster.ns).2
        (rest.take (chunkLen blockSize)) (rest.drop (chunkLen blockSize))) :: tail)).generate e.id
      (rest.1.take (chunkLen blockSize))) (hsound : s'.Sound) : Overlap blockSize path jobs s' := by
  obtain ⟨⟨rfl, rfl, data, hdata, hfollows, hlists⟩, htail⟩ := h.writer _ _ hc
  have hk := chunkLen_pos hb
  have htake := take_succ_of_next (@Writer.Follows.allocate _ _ _ {} _ hk hfollows hne).nextChunk
  -- the allocation is not refused
  obtain ⟨old, hal, hold⟩ : ∃ old, Allocated s.cluster e p old
      (allocateBlock (n = 0) e.id e.order p true s.cluster.ns) ∧
        old.map s.made = ((chunks (chunkLen blockSize) data.1).take n).map some := by
    rcases Nat.eq_zero_or_pos n with rfl | hn
    · exact ⟨[], allocated_first h.tree h.accepts, by rw [List.take_zero]; rfl⟩
    · obtain ⟨bl, hbl, hcs⟩ := hlists hn
      exact ⟨bl, allocated_next hn h.tree hbl, hcs⟩
  have hl : s'.Lists (splitPath p) ((chunks (chunkLen blockSize) data.1).take (n + 1)) := by
    rw [htake]
    refine hal.lists hnew ?_ ?_ hold
    · rw [hs']; rfl
    · rw [hs']; rfl
  obtain ⟨r, hr, hreads⟩ := h.reader
  refine ⟨hsound, ?_, ?_, fun bl hbl => ?_, ⟨r, ?_, ?_⟩, fun act t hact => ?_⟩
  · rw [hs']; exact hal.tree
  · rw [hs']; exact hal.accepts h.accepts fun _ => rfl
  · obtain ⟨bl', hbl', hcs⟩ := hl
    rw [hbl] at hbl'
    cases hbl'
    exact ⟨_, .inr ⟨data, n + 1, hdata, rfl⟩, hcs⟩
  · rw [hs', generate_clients, goto_clients_ne (by decide)]; exact hr
  · rw [hs']; exact hreads.mono fun _ _ hm => generate_made_mono hnew hm
  · have hact' := hact
    rw [hs', generate_clients, goto_clients_self] at hact'
    cases hact'
    exact ⟨⟨rfl, rfl, data, hdata, hfollows.allocate hk hne, fun _ => hl⟩, htail⟩

/-- After a deletion the path is no file. -/
theorem Overlap.delete (h : Overlap blockSize path jobs s) {p : Bytes} {tail : Client} {st : Status}
    (hc : s.clients .writer = .delete p none :: tail)
    (hsound : (s.goto .writer (s.cluster.delete .answered p).1 (.delete p (some st) :: tail)).Sound) :
    Overlap blockSize path jobs (s.goto .writer (s.cluster.delete .answered p).1 (.delete p (some st) :: tail)) := by
  obtain ⟨hp, htail⟩ := h.writer _ _ hc
  obtain rfl : p = path := hp
  obtain ⟨ht, hent⟩ := FsNamesystem.delete_tree h.tree p
  have hns : (s.goto .writer (s.cluster.delete .answered p).1 (.delete p (some st) :: tail)).cluster.ns =
      (s.cluster.ns.delete p).1 := rfl
  obtain ⟨r, hr, hreads⟩ := h.reader
  refine ⟨hsound, by rw [hns]; exact ht, ⟨?_, .inl rfl, h.accepts.proper, ?_⟩, fun bl hbl => ?_, ⟨r, ?_, hreads⟩,
    fun act t hact => ?_⟩
  · rw [hns, FsNamesystem.delete_inSafeMode]; exact h.accepts.writable
  · rintro q hq ⟨bl, hbl⟩
    rw [hns, hent] at hbl
    split at hbl
    · cases hbl
    · exact h.accepts.parents q hq ⟨bl, hbl⟩
  · rw [hns, hent, if_pos ⟨h.accepts.proper.splitPath_ne_nil, List.prefix_refl _⟩] at hbl
    cases hbl
  · rw [goto_clients_ne (by decide)]; exact hr
  · rw [goto_clients_self] at hact
    cases hact
    exact ⟨rfl, htail⟩

theorem Overlap.step_reader (h : Overlap blockSize path jobs s) (hm : Move blockSize s .reader s') :
    Overlap blockSize path jobs s' := by
  have hsound := hm.sound h.sound
  obtain ⟨r, hr, hreads⟩ := h.reader
  cases hm with
  | read o hc =>
    rw [hr] at hc
    cases hc
    refine ⟨hsound, h.tree, h.accepts, h.listed, ⟨_, goto_clients_self, h.reads hreads o⟩, fun act t hact => ?_⟩
    rw [goto_clients_ne (by decide)] at hact
    obtain ⟨hwork, htail⟩ := h.writer act t hact
    exact ⟨hwork.lists fun cs hl => hl, htail⟩
  | next hc _ hne =>
    rw [hr] at hc
    cases hc
    exact absurd rfl hne
  | stay _ => exact h
  | allocate e hc _ _ _ => rw [hr] at hc; cases hc
  | send hc => rw [hr] at hc; cases hc
  | confirm rpc hc => rw [hr] at hc; cases hc
  | turn hc => rw [hr] at hc; cases hc
  | finish hc _ => rw [hr] at hc; cases hc
  | delete hc => rw [hr] at hc; cases hc

theorem Overlap.step_writer (h : Overlap blockSize path jobs s) (hb : 0 < blockSize)
    (hm : Move blockSize s .writer s') : Overlap blockSize path jobs s' := by
  have hsound := hm.sound h.sound
  have hsafe := h.accepts.writable
  cases hm with
  | allocate e hc hne hnew hfresh => exact h.allocate hb hc hne hnew rfl hsound
  | @send p overwrite n a chunk rest tail hc =>
    obtain ⟨⟨rfl, rfl, data, hdata, hfollows, hlists⟩, -⟩ := h.writer _ _ hc
    exact h.goOn hc hsound (by rw [sendBlock_ns]) (by rw [sendBlock_ns]; exact hsafe)
      ⟨rfl, rfl, data, hdata, hfollows.send, hlists⟩
  | @confirm p overwrite n a len dn todo rest tail rpc hc =>
    obtain ⟨⟨rfl, rfl, data, hdata, hfollows, hlists⟩, -⟩ := h.writer _ _ hc
    have hq := quiet_confirmBlock s.cluster a len dn rpc
    exact h.goOn hc hsound hq.tree (hq.writable hsafe) ⟨rfl, rfl, data, hdata, hfollows, hlists⟩
  | turn hc =>
    obtain ⟨⟨rfl, rfl, data, hdata, hfollows, hlists⟩, -⟩ := h.writer _ _ hc
    exact h.goOn hc hsound rfl hsafe ⟨rfl, rfl, data, hdata, hfollows, hlists⟩
  | @finish p overwrite n rest tail hc hnil =>
    obtain ⟨⟨rfl, rfl, data, hdata, hfollows, hlists⟩, -⟩ := h.writer _ _ hc
    refine h.goOn hc hsound rfl hsafe ⟨rfl, rfl, data, hdata, rfl, ?_⟩
    rw [Writer.allocated, ← hfollows.finish (chunkLen_pos hb) hnil]; exact hlists
  | delete hc => exact h.delete hc hsound
  | @next act tail st hc hres hne =>
    obtain ⟨-, htail⟩ := h.writer _ _ hc
    obtain ⟨r, hr, hreads⟩ := h.reader
    refine ⟨hsound, h.tree, h.accepts, h.listed, ⟨r, ?_, hreads⟩, fun act' t hact => ?_⟩
    · rw [goto_clients_ne (by decide)]; exact hr
    · rw [goto_clients_self] at hact
      subst hact
      obtain ⟨job, hjob, rfl⟩ := htail act' (List.mem_cons_self ..)
      exact ⟨working_activity hjob _, fun x hx => htail x (List.mem_cons_of_mem _ hx)⟩
  | read o hc => exact ((h.writer _ _ hc).1).elim
  | stay _ => exact h

theorem Overlap.step (h : Overlap blockSize path jobs s) (hb : 0 < blockSize) {ev : Event Role}
    (hstep : SystemStep blockSize s ev s') : Overlap blockSize path jobs s' := by
  obtain ⟨hev, rfl⟩ := hstep
  cases ev with
  | client i e o =>
    cases i with
    | reader => exact h.step_reader (client_move hev)
    | writer => exact h.step_writer hb (client_move hev)
  | heartbeat now dnName host port capacity remaining => exact h.quiet (quiet_heartbeat s.cluster ..)
  | blockReport dnName blocks => exact h.quiet (quiet_blockReport s.cluster ..)

/-- A read that overlaps any writes and deletions of its path by another client: if it returns OK, what it
has read are the first chunks of one of the writes, or nothing. -/
theorem overlapping_read {c : Cluster} (hr : c.ns.Reachable) (hb : 0 < blockSize) (hacc : c.ns.Accepts path true)
    (hf : ¬ IsFile c.ns.tree (splitPath path)) {es : List (Event Role)}
    (hrun : Run (SystemStep blockSize) (startOverlap c path jobs) es s) {got : Bytes}
    (hread : s.clients .reader = [.read (.returned .OK got)]) :
    got = [] ∨ ∃ data n, Job.write data ∈ jobs ∧ got = ((chunks blockSize.toUInt64.toNat data.1).take n).flatten := by
  have hover : Overlap blockSize path jobs s :=
    @Run.invariant _ _ _ (fun _ s => Overlap blockSize path jobs s) _ _ _ hrun (startOverlap_overlap hr hacc hf)
      fun _ _ _ _ h hstep => h.step hb hstep
  obtain ⟨r, hr', hreads⟩ := hover.reader
  rw [hread] at hr'
  cases hr'
  obtain ⟨cs, rfl | ⟨data, n, hdata, rfl⟩, rfl⟩ := hreads rfl
  · exact .inl rfl
  · exact .inr ⟨data, n, hdata, rfl⟩

end Overlap

/-- The reader takes its list after the first block of a write; the write then ends and the file is
deleted before the reader fetches the block. -/
def readAcrossDelete : List Role :=
  List.replicate 4 .writer ++ [.reader] ++ List.replicate 7 .writer ++ List.replicate 2 .reader

theorem overlapping_read_across_delete :
    ∃ (es : List (Event Role)) (s : System Role),
      Run (SystemStep 2) (startOverlap (freshCluster [localNode 9000]) (bytes "/f") [.write threeBytes, .delete]) es s ∧
      s.clients .reader = [.read (.returned .OK [1, 2])] ∧
      ((([1, 2] : Bytes) = []) ∨ ∃ data n, Job.write data ∈ [.write threeBytes, .delete] ∧
        [1, 2] = ((chunks 2 data.1).take n).flatten) := by
  have hacc : (freshCluster [localNode 9000]).ns.Accepts (bytes "/f") true :=
    ⟨by decide, .inl rfl, by decide, noFileOn_nil emptyTree_ok⟩
  have hf : ¬ IsFile (freshCluster [localNode 9000]).ns.tree (splitPath (bytes "/f")) :=
    (freshCluster_empty (localNode 9000)).no_file _
  have hstart := @startOverlap_overlap 2 (bytes "/f") [.write threeBytes, .delete] (freshCluster [localNode 9000])
    (freshCluster_reachable _) hacc hf
  have hrun := run_of_allNew (healthySchedule readAcrossDelete) hstart.sound
    ⟨emptyTree_ok, fun id _ => Cluster.fresh_of_empty (freshCluster_tree _) (fun _ _ => rfl) id⟩
    (show allNew 2 (startOverlap (freshCluster [localNode 9000]) (bytes "/f") [.write threeBytes, .delete])
      (healthySchedule readAcrossDelete) = true by decide)
  have hread : ((healthySchedule readAcrossDelete).foldl (System.step 2)
      (startOverlap (freshCluster [localNode 9000]) (bytes "/f") [.write threeBytes, .delete])).clients .reader =
        [.read (.returned .OK [1, 2])] := by decide +kernel
  exact ⟨_, _, hrun, hread, overlapping_read (freshCluster_reachable _) (by decide) hacc hf hrun hread⟩

end MiniHadoop.Ndfs

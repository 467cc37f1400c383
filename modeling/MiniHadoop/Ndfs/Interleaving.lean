/-
What a step of the system can do. Every step of a client in a healthy cluster is one of nine moves; of
these only an allocation and a deletion change the tree, only a transfer changes a store, and a stored
block is always the chunk its id was generated for.
-/
import MiniHadoop.Ndfs.Clients

namespace MiniHadoop.Ndfs

open Text Wire Chunks Runs

/-! ## The moves of a client -/

section Fields

variable {ι : Type}

/-- The system when the client `i` has come to `cl`, in the cluster `c`. -/
def System.goto [DecidableEq ι] (s : System ι) (i : ι) (c : Cluster) (cl : Client) : System ι :=
  { s with cluster := c, clients := Function.update s.clients i cl }

/-- The system with the id generated for the chunk. -/
def System.generate (s : System ι) (id : Int64) (chunk : Bytes) : System ι :=
  { s with made := Function.update s.made id (some chunk) }

variable {s : System ι} {id id' : Int64} {chunk chunk' : Bytes}

@[simp] theorem generate_cluster : (s.generate id chunk).cluster = s.cluster := rfl

@[simp] theorem generate_clients : (s.generate id chunk).clients = s.clients := rfl

@[simp] theorem generate_made_self : (s.generate id chunk).made id = some chunk := Function.update_self ..

theorem generate_made_ne (h : id' ≠ id) : (s.generate id chunk).made id' = s.made id' := Function.update_of_ne h ..

/-- A generated id keeps its chunk when a new id is generated. -/
theorem generate_made_mono (hnew : s.made id = none) (h : s.made id' = some chunk') :
    (s.generate id chunk).made id' = some chunk' := by
  rw [generate_made_ne, h]
  rintro rfl
  rw [hnew] at h; cases h

variable [DecidableEq ι] {i j : ι} {c : Cluster} {cl : Client}

@[simp] theorem goto_cluster : (s.goto i c cl).cluster = c := rfl

@[simp] theorem goto_made : (s.goto i c cl).made = s.made := rfl

@[simp] theorem goto_clients_self : (s.goto i c cl).clients i = cl := Function.update_self ..

theorem goto_clients_ne (h : j ≠ i) : (s.goto i c cl).clients j = s.clients j := Function.update_of_ne h ..

end Fields

section Moves

variable {ι : Type} [DecidableEq ι] {blockSize : Int64}

/-- What a step of the client `i` does in a healthy cluster. -/
inductive Move (blockSize : Int64) (s : System ι) (i : ι) : System ι → Prop
  | allocate {path : Bytes} {overwrite : Bool} {n : Nat} {rest : Buffer} {tail : Client} (e : ChunkEnv) :
      s.clients i = .write path overwrite (.allocating n rest) :: tail → rest.1 ≠ [] → s.made e.id = none →
      s.cluster.Fresh e.id →
      Move blockSize s i
        ((s.goto i { s.cluster with ns := (allocateBlock (n = 0) e.id e.order path overwrite s.cluster.ns).1 }
          (.write path overwrite (.sending n (allocateBlock (n = 0) e.id e.order path overwrite s.cluster.ns).2
            (rest.take (chunkLen blockSize)) (rest.drop (chunkLen blockSize))) :: tail)).generate e.id
          (rest.1.take (chunkLen blockSize)))
  | send {path : Bytes} {overwrite : Bool} {n : Nat} {a : Allocation} {chunk rest : Buffer} {tail : Client} :
      s.clients i = .write path overwrite (.sending n a chunk rest) :: tail →
      Move blockSize s i (s.goto i (s.cluster.sendBlock a chunk.1 (.complete .written))
        (.write path overwrite (.confirming n a chunk.1.length a.targets rest) :: tail))
  | confirm {path : Bytes} {overwrite : Bool} {n : Nat} {a : Allocation} {len : Nat} {dn : DataNodeInfo}
      {todo : List DataNodeInfo} {rest : Buffer} {tail : Client} (rpc : RpcOutcome) :
      s.clients i = .write path overwrite (.confirming n a len (dn :: todo) rest) :: tail →
      Move blockSize s i (s.goto i (s.cluster.confirmBlock a len dn rpc)
        (.write path overwrite (.confirming n a len todo rest) :: tail))
  | turn {path : Bytes} {overwrite : Bool} {n : Nat} {a : Allocation} {len : Nat} {rest : Buffer} {tail : Client} :
      s.clients i = .write path overwrite (.confirming n a len [] rest) :: tail →
      Move blockSize s i (s.goto i s.cluster (.write path overwrite (.allocating (n + 1) rest) :: tail))
  | finish {path : Bytes} {overwrite : Bool} {n : Nat} {rest : Buffer} {tail : Client} :
      s.clients i = .write path overwrite (.allocating n rest) :: tail → rest.1 = [] →
      Move blockSize s i (s.goto i s.cluster (.write path overwrite (.returned .OK) :: tail))
  | read {r : Reader} {tail : Client} (o : ReadOutcome) :
      s.clients i = .read r :: tail →
      Move blockSize s i (s.goto i s.cluster (.read (s.cluster.stepRead .answered o r) :: tail))
  | delete {path : Bytes} {tail : Client} :
      s.clients i = .delete path none :: tail →
      Move blockSize s i (s.goto i (s.cluster.delete .answered path).1
        (.delete path (some (s.cluster.delete .answered path).2) :: tail))
  | next {act : Activity} {tail : Client} {st : Status} :
      s.clients i = act :: tail → act.result = some st → tail ≠ [] → Move blockSize s i (s.goto i s.cluster tail)
  | stay : (s.clients i = [] ∨ ∃ act st, s.clients i = [act] ∧ act.result = some st) → Move blockSize s i s

theorem stepWrite_allocating {c : Cluster} {path : Bytes} {overwrite : Bool} {n : Nat} {rest : Buffer} {e : ChunkEnv}
    (hne : rest.1 ≠ []) (he : e.rpc = .answered) :
    c.stepWrite blockSize path overwrite e (.allocating n rest) =
      ({ c with ns := (allocateBlock (n = 0) e.id e.order path overwrite c.ns).1 },
        .sending n (allocateBlock (n = 0) e.id e.order path overwrite c.ns).2 (rest.take (chunkLen blockSize))
          (rest.drop (chunkLen blockSize))) := by
  have htake : rest.take (min blockSize.toUInt64.toNat rest.1.length) = rest.take (chunkLen blockSize) :=
    Subtype.ext List.take_eq_take_min.symm
  have hdrop : rest.drop (min blockSize.toUInt64.toNat rest.1.length) = rest.drop (chunkLen blockSize) :=
    Subtype.ext List.drop_eq_drop_min.symm
  rw [Cluster.stepWrite, if_neg fun h => hne (List.length_eq_zero_iff.1 h)]
  simp only [callRaw, he, RpcOutcome.delivered, if_true, htake, hdrop]

/-- A step in which no block is asked for. -/
theorem step_goto {s : System ι} {i : ι} {e : ChunkEnv} {o : ReadOutcome} {cl : Client} {c : Cluster}
    (hchunk : (s.clients i).chunk blockSize = none)
    (hstep : s.cluster.stepClient blockSize e o (s.clients i) = (c, cl)) :
    s.step blockSize (.client i e o) = s.goto i c cl := by
  rw [System.step, hchunk, hstep]; rfl

theorem stepClient_current {c : Cluster} {e : ChunkEnv} {o : ReadOutcome} {act : Activity} (tail : Client)
    (h : act.result = none) : c.stepClient blockSize e o (act :: tail) =
      ((c.stepActivity blockSize e o act).1, (c.stepActivity blockSize e o act).2 :: tail) := by
  simp only [Cluster.stepClient, h]

theorem stepActivity_returned {c : Cluster} {e : ChunkEnv} {o : ReadOutcome} {act : Activity} {st : Status}
    (h : act.result = some st) : c.stepActivity blockSize e o act = (c, act) := by
  cases act with
  | write path overwrite w => cases w <;> first | rfl | cases h
  | read r => cases r <;> first | rfl | cases h
  | delete path result =>
    cases result with
    | none => cases h
    | some st => rfl

theorem chunk_returned {act : Activity} {st : Status} (tail : Client) (h : act.result = some st) :
    Client.chunk blockSize (act :: tail) = none := by
  cases act with
  | write path overwrite w => cases w <;> first | rfl | cases h
  | read r => rfl
  | delete path result => rfl

theorem goto_self {s : System ι} (i : ι) : s.goto i s.cluster (s.clients i) = s := by
  rw [System.goto, Function.update_eq_self]

/-- Every step of a client in a healthy cluster is a move. -/
theorem client_move {s : System ι} {i : ι} {e : ChunkEnv} {o : ReadOutcome}
    (h : (Event.client i e o).Healthy blockSize s) : Move blockSize s i (s.step blockSize (.client i e o)) := by
  obtain ⟨hh, hfresh⟩ := h
  cases hc : s.clients i with
  | nil =>
    have hstep : s.cluster.stepClient blockSize e o (s.clients i) = (s.cluster, s.clients i) := by rw [hc]; rfl
    rw [step_goto (by rw [hc]; rfl) hstep, goto_self]
    exact .stay (.inl hc)
  | cons act tail =>
    cases hr : act.result with
    | some st =>
      have hchunk : (s.clients i).chunk blockSize = none := by rw [hc]; exact chunk_returned tail hr
      cases tail with
      | nil =>
        have hstep : s.cluster.stepClient blockSize e o (s.clients i) = (s.cluster, s.clients i) := by
          rw [hc]
          simp only [Cluster.stepClient, hr, stepActivity_returned hr]
        rw [step_goto hchunk hstep, goto_self]
        exact .stay (.inr ⟨act, st, hc, hr⟩)
      | cons act' tail =>
        have hstep : s.cluster.stepClient blockSize e o (s.clients i) = (s.cluster, act' :: tail) := by
          rw [hc]
          simp only [Cluster.stepClient, hr]
        rw [step_goto hchunk hstep]
        exact .next hc hr (by simp)
    | none =>
      have hstep := @stepClient_current blockSize s.cluster e o act tail hr
      rw [← hc] at hstep
      cases act with
      | write path overwrite w =>
        cases w with
        | allocating n rest =>
          by_cases hne : rest.1 = []
          · have hdone : s.cluster.stepWrite blockSize path overwrite e (.allocating n rest) =
                (s.cluster, .returned .OK) := by
              rw [Cluster.stepWrite, if_pos (List.length_eq_zero_iff.2 hne)]
            rw [Cluster.stepActivity, hdone] at hstep
            have hchunk : (s.clients i).chunk blockSize = none := by
              rw [hc, Client.chunk, if_pos (List.length_eq_zero_iff.2 hne)]
            rw [step_goto hchunk hstep]
            exact .finish hc hne
          · have hchunk : (s.clients i).chunk blockSize = some (rest.1.take (chunkLen blockSize)) := by
              rw [hc, Client.chunk, if_neg fun h => hne (List.length_eq_zero_iff.1 h)]
            obtain ⟨hmade, hnew⟩ := hfresh (by rw [hchunk]; simp)
            rw [Cluster.stepActivity, stepWrite_allocating hne hh.rpc] at hstep
            rw [System.step, hchunk, hstep]
            exact .allocate e hc hne hmade hnew
        | sending n a chunk rest =>
          rw [step_goto (by rw [hc]; rfl) hstep, Cluster.stepActivity, Cluster.stepWrite, hh.xfer]
          exact .send hc
        | confirming n a len todo rest =>
          cases todo with
          | nil =>
            rw [step_goto (by rw [hc]; rfl) hstep]
            exact .turn hc
          | cons dn todo =>
            rw [step_goto (by rw [hc]; rfl) hstep]
            exact .confirm (e.confirm dn) hc
        | returned st => cases hr
      | read r =>
        rw [step_goto (by rw [hc]; rfl) hstep, Cluster.stepActivity, hh.rpc]
        exact .read o hc
      | delete path result =>
        cases result with
        | some st => cases hr
        | none =>
          rw [step_goto (by rw [hc]; rfl) hstep, Cluster.stepActivity, hh.rpc]
          exact .delete hc

end Moves

/-! ## What the exchanges do to the cluster -/

/-- The namespace and the stores are the same; the NameNode may list more locations. -/
structure Quiet (c c' : Cluster) : Prop where
  tree : c'.ns.tree = c.ns.tree
  stores : c'.stores = c.stores
  writable : c.ns.inSafeMode = false → c'.ns.inSafeMode = false
  locations : ∀ id, c.ns.locations id ⊆ c'.ns.locations id

section Quiet

variable (c : Cluster)

theorem Quiet.refl : Quiet c c := ⟨rfl, rfl, id, fun _ => List.Subset.refl _⟩

theorem quiet_confirmBlock (a : Allocation) (len : Nat) (dn : DataNodeInfo) (rpc : RpcOutcome) :
    Quiet c (c.confirmBlock a len dn rpc) := by
  unfold Cluster.confirmBlock callRaw
  cases rpc.delivered with
  | false => exact Quiet.refl c
  | true =>
    exact ⟨FsNamesystem.blockReceived_tree _ _ _ [], rfl, (FsNamesystem.blockReceived_inSafeMode _ _ _ []).trans,
      fun id => (FsNamesystem.blockReceived_locations _ _ _ [] id).subset⟩

theorem quiet_heartbeat (now : Int64) (dnName host : Bytes) (port : Int32) (capacity remaining : Int64) :
    Quiet c { c with ns := c.ns.heartbeat now dnName host port capacity remaining } :=
  ⟨rfl, rfl, FsNamesystem.heartbeat_inSafeMode c.ns now dnName host port capacity remaining,
    fun _ => List.Subset.refl _⟩

theorem quiet_blockReport (dnName : Bytes) (blocks : List Block) :
    Quiet c { c with ns := c.ns.blockReport dnName blocks } :=
  ⟨FsNamesystem.blockReport_tree .., rfl, (FsNamesystem.blockReport_inSafeMode ..).trans,
    fun _ => (FsNamesystem.blockReport_locations ..).subset⟩

end Quiet

/-- An allocation that was not refused: the new block is the last one of the file, it is listed at its
targets, and the only file that came up is the one at the path. -/
structure Allocated (c : Cluster) (e : ChunkEnv) (path : Bytes) (old : List Int64) (r : FsNamesystem × Allocation) :
    Prop where
  block : r.2 = { block := Block.generate e.id 0, targets := c.targets e }
  tree : TreeOk r.1.tree
  safeMode : r.1.inSafeMode = c.ns.inSafeMode
  locations : ∀ id, r.1.locations id = if id = e.id then c.targets e else c.ns.locations id
  file : entryAt r.1.tree (splitPath path) = some ⟨.kFile, old ++ [e.id]⟩
  kept : ∀ q x, ¬ splitPath path <+: q → entryAt c.ns.tree q = some x → entryAt r.1.tree q = some x
  files : ∀ q, IsFile r.1.tree q → q = splitPath path ∨ IsFile c.ns.tree q

section Allocated

variable {c : Cluster} {e : ChunkEnv} {path : Bytes} {overwrite : Bool}

theorem allocated_first (ht : TreeOk c.ns.tree) (hacc : c.ns.Accepts path overwrite) :
    Allocated c e path [] (allocateBlock ((0 : Nat) = 0) e.id e.order path overwrite c.ns) := by
  obtain ⟨t, htok, hstart, hent⟩ := FsNamesystem.startFile_accepted ht hacc e.id e.order
  have halloc : allocateBlock ((0 : Nat) = 0) e.id e.order path overwrite c.ns =
      c.ns.startFile e.id e.order path overwrite := by rw [allocateBlock, if_pos (by simp)]
  rw [halloc, hstart]
  refine ⟨rfl, htok, rfl, fun id => FsNamesystem.locations_insert { c.ns with tree := t } _ _ _ id,
    by rw [hent, if_pos rfl]; rfl, fun q x hq hx => ?_, ?_⟩
  · have hne : q ≠ splitPath path := by
      rintro rfl; exact hq (List.prefix_refl _)
    show entryAt t q = some x
    rw [hent, if_neg hne, if_neg hq, if_neg, hx]
    rintro ⟨-, hnone⟩
    rw [hx] at hnone; cases hnone
  · rintro q ⟨bl, hbl⟩
    change entryAt t q = _ at hbl
    rw [hent] at hbl
    split at hbl
    · rename_i hq; exact .inl hq
    · split at hbl
      · cases hbl
      · split at hbl
        · cases hbl
        · exact .inr ⟨bl, hbl⟩

theorem allocated_next {n : Nat} (hn : 0 < n) {bl : List Int64} (ht : TreeOk c.ns.tree)
    (hf : entryAt c.ns.tree (splitPath path) = some ⟨.kFile, bl⟩) :
    Allocated c e path bl (allocateBlock (n = 0) e.id e.order path overwrite c.ns) := by
  have halloc : allocateBlock (n = 0) e.id e.order path overwrite c.ns = c.ns.addBlock e.id e.order path := by
    rw [allocateBlock, if_neg (by simp; omega)]
  rw [halloc, FsNamesystem.addBlock_file ⟨bl, hf⟩]
  have hent : ∀ q, entryAt (pushBlockAt c.ns.tree (splitPath path) e.id) q =
      if q = splitPath path then some ⟨.kFile, bl ++ [e.id]⟩ else entryAt c.ns.tree q := by
    intro q
    rw [entryAt_pushBlockAt, hf]; rfl
  refine ⟨rfl, ht.pushBlockAt ⟨bl, hf⟩ e.id, rfl,
    fun id => FsNamesystem.locations_insert { c.ns with tree := _ } _ _ _ id, (hent _).trans (if_pos rfl),
    fun q x hq hx => ?_, ?_⟩
  · have hne : q ≠ splitPath path := by
      rintro rfl; exact hq (List.prefix_refl _)
    exact (hent q).trans ((if_neg hne).trans hx)
  · rintro q ⟨bl', hbl'⟩
    by_cases hq : q = splitPath path
    · exact .inl hq
    · exact .inr ⟨bl', ((hent q).trans (if_neg hq)).symm.trans hbl'⟩

/-- A path that the new file is not above is still accepted. -/
theorem Allocated.accepts {old : List Int64} {r : FsNamesystem × Allocation} {p : Bytes}
    (h : Allocated c e path old r) (hacc : c.ns.Accepts p true)
    (habove : splitPath path <+: splitPath p → splitPath path = splitPath p) : r.1.Accepts p true := by
  refine ⟨h.safeMode.trans hacc.writable, .inl rfl, hacc.proper, fun q hq hf => ?_⟩
  rcases h.files q hf with rfl | hold
  · have heq := habove (hq.trans hacc.proper.parent_isPrefix)
    exact absurd (heq ▸ hq) hacc.proper.not_prefix_parent
  · exact hacc.parents q hq hold

/-- Whatever an allocation with targets answers, the block has the id that was generated. -/
theorem allocateBlock_id {first : Bool} {id : Int64} {order : DataNodeOrder} {s : FsNamesystem}
    (h : (allocateBlock first id order path overwrite s).2.targets ≠ []) :
    (allocateBlock first id order path overwrite s).2.block.blockId = id := by
  unfold allocateBlock FsNamesystem.startFile FsNamesystem.addBlock at h ⊢
  cases first with
  | true =>
    simp only [if_true] at h ⊢
    split
    · rename_i hs; rw [if_pos hs] at h; exact absurd rfl h
    · rename_i hs
      rw [if_neg hs] at h
      split
      · rename_i hex; rw [if_pos hex] at h; exact absurd rfl h
      · rename_i hex
        rw [if_neg hex] at h
        split
        · rename_i hcreate; rw [hcreate] at h; exact absurd rfl h
        · rfl
  | false =>
    simp only [Bool.false_eq_true, if_false] at h ⊢
    split
    · rename_i hn; rw [hn] at h; exact absurd rfl h
    · rename_i file hn
      rw [hn] at h
      split
      · rename_i hty; exact absurd (by simp [hty]) h
      · rfl

theorem allocateBlock_tree_ok {s : FsNamesystem} (ht : TreeOk s.tree) (first : Bool) (id : Int64) (order : DataNodeOrder) :
    TreeOk (allocateBlock first id order path overwrite s).1.tree := by
  cases first with
  | true => exact FsNamesystem.startFile_tree_ok ht id order path overwrite
  | false => exact FsNamesystem.addBlock_tree_ok ht id order path

/-- The only block id that an allocation brings into the tree is the generated one. -/
theorem allocateBlock_ids {s : FsNamesystem} (ht : TreeOk s.tree) {first : Bool} {id : Int64} {order : DataNodeOrder}
    {q : List Bytes} {bl : List Int64}
    (h : entryAt (allocateBlock first id order path overwrite s).1.tree q = some ⟨.kFile, bl⟩) {id' : Int64}
    (hid : id' ∈ bl) : id' = id ∨ ∃ q' bl', entryAt s.tree q' = some ⟨.kFile, bl'⟩ ∧ id' ∈ bl' := by
  cases first with
  | true =>
    rcases FsNamesystem.startFile_files ht h with ⟨-, rfl⟩ | hold
    · exact .inl (List.mem_singleton.1 hid)
    · exact .inr ⟨q, bl, hold, hid⟩
  | false =>
    change entryAt (s.addBlock id order path).1.tree q = _ at h
    by_cases hf : IsFile s.tree (splitPath path)
    · obtain ⟨old, hold⟩ := hf
      rw [FsNamesystem.addBlock_file ⟨old, hold⟩] at h
      change entryAt (pushBlockAt s.tree (splitPath path) id) q = _ at h
      rw [entryAt_pushBlockAt, hold] at h
      split at h
      · cases h
        rcases List.mem_append.1 hid with hid | hid
        · exact .inr ⟨_, old, hold, hid⟩
        · exact .inl (List.mem_singleton.1 hid)
      · exact .inr ⟨q, bl, h, hid⟩
    · rw [FsNamesystem.addBlock_not_file hf] at h
      exact .inr ⟨q, bl, h, hid⟩

end Allocated

/-! ## Stored blocks are chunks -/

/-- A block on its way is one that was generated for the chunk. -/
def Activity.Sound (made : Int64 → Option Bytes) : Activity → Prop
  | .write _ _ (.sending _ a chunk _) => a.targets ≠ [] → made a.block.blockId = some chunk.1
  | _ => True

section Sound

variable {ι : Type} {blockSize : Int64} {s s' : System ι} {i : ι}

/-- Wherever a block that was generated is held, it is the chunk it was generated for. -/
structure System.Sound (s : System ι) : Prop where
  whole : ∀ address id chunk d, s.made id = some chunk → (s.cluster.stores address).held id = some d → d = chunk
  sending : ∀ i, ∀ act ∈ s.clients i, act.Sound s.made

/-- The client goes on with a call that is not sending. -/
theorem System.Sound.tail (h : s.Sound) {act act' : Activity} {tail : Client} (hc : s.clients i = act :: tail)
    (hact : act'.Sound s.made) : ∀ x ∈ act' :: tail, x.Sound s.made := by
  intro x hx
  rcases List.mem_cons.1 hx with rfl | hx
  · exact hact
  · exact h.sending i x (by rw [hc]; exact List.mem_cons_of_mem _ hx)

variable [DecidableEq ι]

theorem System.Sound.goto (h : s.Sound) {c : Cluster} {cl : Client} (hstores : c.stores = s.cluster.stores)
    (hcl : ∀ act ∈ cl, act.Sound s.made) : (s.goto i c cl).Sound := by
  refine ⟨fun address id chunk d hm hd => ?_, fun j act hact => ?_⟩
  · rw [goto_cluster, hstores] at hd
    exact h.whole address id chunk d hm hd
  · by_cases hj : j = i
    · subst hj
      rw [goto_clients_self] at hact
      exact hcl act hact
    · rw [goto_clients_ne hj] at hact
      exact h.sending j act hact

theorem Activity.Sound.mono {made made' : Int64 → Option Bytes}
    (hmono : ∀ id chunk, made id = some chunk → made' id = some chunk) : ∀ {act : Activity}, act.Sound made →
      act.Sound made'
  | .write _ _ (.sending _ _ _ _), h => fun hne => hmono _ _ (h hne)
  | .write _ _ (.allocating _ _), _ => trivial
  | .write _ _ (.confirming _ _ _ _ _), _ => trivial
  | .write _ _ (.returned _), _ => trivial
  | .read _, _ => trivial
  | .delete _ _, _ => trivial

theorem Move.sound (hm : Move blockSize s i s') (h : s.Sound) : s'.Sound := by
  cases hm with
  | @allocate path overwrite n rest tail e hc hne hnew hfresh =>
    have hmono : ∀ {act : Activity} {t : System ι}, t.made = s.made → act.Sound s.made →
        act.Sound (t.generate e.id (rest.1.take (chunkLen blockSize))).made := fun ht hact =>
      hact.mono fun id chunk hid => generate_made_mono (by rw [ht]; exact hnew) (by rw [ht]; exact hid)
    refine ⟨fun address id chunk d hmade hd => ?_, fun j act hact => ?_⟩
    · rw [generate_cluster, goto_cluster] at hd
      by_cases hid : id = e.id
      · rw [hid, hfresh.stores] at hd; cases hd
      · rw [generate_made_ne hid] at hmade
        exact h.whole address id chunk d hmade hd
    · rw [generate_clients] at hact
      by_cases hj : j = i
      · subst hj
        rw [goto_clients_self, List.mem_cons] at hact
        rcases hact with rfl | hact
        · intro htargets
          rw [allocateBlock_id htargets]
          exact generate_made_self ..
        · exact hmono rfl (h.sending j act (by rw [hc]; exact List.mem_cons_of_mem _ hact))
      · rw [goto_clients_ne hj] at hact
        exact hmono rfl (h.sending j act hact)
  | @send path overwrite n a chunk rest tail hc =>
    have hthis : Activity.Sound s.made (.write path overwrite (.sending n a chunk rest)) :=
      h.sending i _ (by rw [hc]; exact List.mem_cons_self ..)
    have hgoto : (s.goto i s.cluster (.write path overwrite (.confirming n a chunk.1.length a.targets rest) :: tail)).Sound :=
      h.goto rfl (h.tail hc trivial)
    refine ⟨fun address id ch d hmade hd => ?_, hgoto.sending⟩
    rw [goto_cluster, held_sendBlock _ _ chunk.2] at hd
    split at hd
    · rename_i hto
      obtain ⟨hhead, rfl⟩ := hto
      have htargets : a.targets ≠ [] := by
        intro hnil; rw [hnil] at hhead; cases hhead
      have hsame := (hthis htargets).symm.trans hmade
      cases hsame
      cases hd
      rfl
    · exact h.whole address id ch d hmade hd
  | confirm rpc hc => exact h.goto (quiet_confirmBlock ..).stores (h.tail hc trivial)
  | turn hc => exact h.goto rfl (h.tail hc trivial)
  | finish hc _ => exact h.goto rfl (h.tail hc trivial)
  | read o hc => exact h.goto rfl (h.tail hc trivial)
  | delete hc => exact h.goto rfl (h.tail hc trivial)
  | next hc _ _ => exact h.goto rfl fun act hact => h.sending i act (by rw [hc]; exact List.mem_cons_of_mem _ hact)
  | stay _ => exact h

/-- All ids in use were generated in the run: an id that was not is fresh. -/
structure System.Covered (s : System ι) : Prop where
  tree : TreeOk s.cluster.ns.tree
  fresh : ∀ id, s.made id = none → s.cluster.Fresh id

theorem Move.covered (hm : Move blockSize s i s') (hs : s.Sound) (h : s.Covered) : s'.Covered := by
  cases hm with
  | @allocate path overwrite n rest tail e hc hne hnew hfresh =>
    refine ⟨allocateBlock_tree_ok h.tree .., fun id hid => ?_⟩
    have hne' : id ≠ e.id := by
      rintro rfl
      rw [generate_made_self] at hid; cases hid
    rw [generate_made_ne hne'] at hid
    refine ⟨fun q bl hq hmem => ?_, (h.fresh id hid).stores⟩
    rcases allocateBlock_ids h.tree hq hmem with heq | ⟨q', bl', hq', hmem'⟩
    · exact hne' heq
    · exact (h.fresh id hid).tree q' bl' hq' hmem'
  | @send path overwrite n a chunk rest tail hc =>
    have hns : (s.cluster.sendBlock a chunk.1 (.complete .written)).ns = s.cluster.ns := sendBlock_ns ..
    refine ⟨by rw [goto_cluster, hns]; exact h.tree, fun id hid => ⟨?_, fun address => ?_⟩⟩
    · rw [goto_cluster, hns]; exact (h.fresh id hid).tree
    · rw [goto_cluster, held_sendBlock _ _ chunk.2, if_neg]
      · exact (h.fresh id hid).stores address
      · -- the block sent was generated
        rintro ⟨hhead, rfl⟩
        have hthis : Activity.Sound s.made (.write path overwrite (.sending n a chunk rest)) :=
          hs.sending i _ (by rw [hc]; exact List.mem_cons_self ..)
        rw [goto_made, hthis (by intro hnil; rw [hnil] at hhead; cases hhead)] at hid
        cases hid
  | @confirm path overwrite n a len dn todo rest tail rpc hc =>
    have hq := quiet_confirmBlock s.cluster a len dn rpc
    exact ⟨hq.tree ▸ h.tree, fun id hid => ⟨hq.tree ▸ (h.fresh id hid).tree, hq.stores ▸ (h.fresh id hid).stores⟩⟩
  | @delete path tail hc =>
    obtain ⟨ht, hent⟩ := FsNamesystem.delete_tree h.tree path
    refine ⟨ht, fun id hid => ⟨fun q bl hq => ?_, (h.fresh id hid).stores⟩⟩
    change entryAt (s.cluster.ns.delete path).1.tree q = _ at hq
    rw [hent] at hq
    split at hq
    · cases hq
    · exact (h.fresh id hid).tree q bl hq
  | turn _ => exact ⟨h.tree, h.fresh⟩
  | finish _ _ => exact ⟨h.tree, h.fresh⟩
  | read _ _ => exact ⟨h.tree, h.fresh⟩
  | next _ _ _ => exact ⟨h.tree, h.fresh⟩
  | stay _ => exact h

theorem SystemStep.sound {ev : Event ι} (hstep : SystemStep blockSize s ev s') (h : s.Sound) : s'.Sound := by
  obtain ⟨hev, rfl⟩ := hstep
  cases ev with
  | client i e o => exact (client_move hev).sound h
  | heartbeat now dnName host port capacity remaining => exact ⟨h.whole, h.sending⟩
  | blockReport dnName blocks => exact ⟨h.whole, h.sending⟩

theorem SystemStep.covered {ev : Event ι} (hstep : SystemStep blockSize s ev s') (hs : s.Sound) (h : s.Covered) :
    s'.Covered := by
  obtain ⟨hev, rfl⟩ := hstep
  cases ev with
  | client i e o => exact (client_move hev).covered hs h
  | heartbeat now dnName host port capacity remaining =>
    exact ⟨h.tree, fun id hid => ⟨(h.fresh id hid).tree, (h.fresh id hid).stores⟩⟩
  | blockReport dnName blocks =>
    have hq := quiet_blockReport s.cluster dnName blocks
    exact ⟨hq.tree ▸ h.tree, fun id hid => ⟨hq.tree ▸ (h.fresh id hid).tree, (h.fresh id hid).stores⟩⟩

/-! ## Runs from an empty cluster -/

/-- The event is healthy, and an id that is generated has not been generated before. -/
def Event.isNew (blockSize : Int64) (s : System ι) : Event ι → Bool
  | .client i e _ => e.rpc = .answered && e.xfer = .complete .written &&
    ((s.clients i).chunk blockSize = none || s.made e.id = none)
  | .heartbeat .. => true
  | .blockReport .. => true

def allNew (blockSize : Int64) : System ι → List (Event ι) → Bool
  | _, [] => true
  | s, ev :: es => ev.isNew blockSize s && allNew blockSize (s.step blockSize ev) es

/-- Where all ids in use were generated in the run, it is enough that none is generated twice. -/
theorem run_of_allNew : ∀ (es : List (Event ι)) {s : System ι}, s.Sound → s.Covered → allNew blockSize s es = true →
    Run (SystemStep blockSize) s es (es.foldl (System.step blockSize) s)
  | [], _, _, _, _ => .nil
  | ev :: es, s, hs, hcov, h => by
    rw [allNew, Bool.and_eq_true] at h
    have hev : ev.Healthy blockSize s := by
      cases ev with
      | client i e o =>
        simp only [Event.isNew, Bool.and_eq_true, Bool.or_eq_true, decide_eq_true_eq] at h
        obtain ⟨⟨⟨hrpc, hxfer⟩, hid⟩, -⟩ := h
        refine ⟨⟨hrpc, hxfer⟩, fun hchunk => ?_⟩
        have hnew := hid.resolve_left hchunk
        exact ⟨hnew, hcov.fresh _ hnew⟩
      | heartbeat => trivial
      | blockReport => trivial
    have hstep : SystemStep blockSize s ev (s.step blockSize ev) := ⟨hev, rfl⟩
    exact (Run.snoc .nil hstep).append (run_of_allNew es (hstep.sound hs) (hstep.covered hs hcov) h.2)

end Sound

/-! ## What a path lists -/

section Lists

variable {ι : Type} {s s' : System ι}

/-- The path is a file, and its blocks were generated for the chunks. -/
def System.Lists (s : System ι) (parts : List Bytes) (cs : List Bytes) : Prop :=
  ∃ bl, entryAt s.cluster.ns.tree parts = some ⟨.kFile, bl⟩ ∧ bl.map s.made = cs.map some

theorem System.Lists.same {parts : List Bytes} {cs : List Bytes} (h : s.Lists parts cs)
    (ht : s'.cluster.ns.tree = s.cluster.ns.tree) (hm : s'.made = s.made) : s'.Lists parts cs := by
  obtain ⟨bl, hbl, hcs⟩ := h
  exact ⟨bl, by rw [ht]; exact hbl, by rw [hm]; exact hcs⟩

theorem map_made_mono {made made' : Int64 → Option Bytes}
    (hmono : ∀ id chunk, made id = some chunk → made' id = some chunk) : ∀ {bl : List Int64} {cs : List Bytes},
      bl.map made = cs.map some → bl.map made' = cs.map some
  | [], [], _ => rfl
  | [], _ :: _, h => by cases h
  | _ :: _, [], h => by cases h
  | id :: bl, chunk :: cs, h => by
    rw [List.map_cons, List.map_cons, List.cons.injEq] at h
    rw [List.map_cons, List.map_cons, hmono id chunk h.1, map_made_mono hmono h.2]

section Allocation

variable {e : ChunkEnv} {path : Bytes} {old : List Int64} {r : FsNamesystem × Allocation} {chunk : Bytes}

/-- After an allocation the path lists one chunk more. -/
theorem Allocated.lists (h : Allocated s.cluster e path old r) (hnew : s.made e.id = none)
    (hns : s'.cluster.ns = r.1) (hmade : s'.made = (s.generate e.id chunk).made) {cs : List Bytes}
    (hold : old.map s.made = cs.map some) : s'.Lists (splitPath path) (cs ++ [chunk]) := by
  refine ⟨old ++ [e.id], by rw [hns]; exact h.file, ?_⟩
  have hkept := map_made_mono (fun id' chunk' => @generate_made_mono _ s e.id id' chunk chunk' hnew) hold
  rw [hmade, List.map_append, List.map_append, hkept, List.map_singleton, List.map_singleton, generate_made_self]

/-- The paths that are not below it list what they did. -/
theorem Allocated.lists_other (h : Allocated s.cluster e path old r) (hnew : s.made e.id = none)
    (hns : s'.cluster.ns = r.1) (hmade : s'.made = (s.generate e.id chunk).made) {q : List Bytes} {cs : List Bytes}
    (hq : ¬ splitPath path <+: q) (hl : s.Lists q cs) : s'.Lists q cs := by
  obtain ⟨bl, hbl, hcs⟩ := hl
  refine ⟨bl, by rw [hns]; exact h.kept q _ hq hbl, ?_⟩
  rw [hmade]; exact map_made_mono (fun _ _ => generate_made_mono hnew) hcs

end Allocation

/-- The block can be read as the chunk. -/
def Cluster.Ready (c : Cluster) (id : Int64) (chunk : Bytes) : Prop :=
  ∃ dn ∈ c.ns.locations id, (c.stores dn.address).held id = some chunk

/-- When all generated blocks can be read, a file reads as its chunks, one after another. -/
theorem System.Lists.read {path : Bytes} {cs : List Bytes} (h : s.Lists (splitPath path) cs) (hs : s.Sound)
    (hready : ∀ id chunk, s.made id = some chunk → s.cluster.Ready id chunk) :
    s.cluster.read path = (.OK, cs.flatten) := by
  have hblock : ∀ id chunk, s.made id = some chunk → s.cluster.blockData id = some chunk := by
    intro id chunk hmade
    obtain ⟨dn, hdn, hheld⟩ := hready id chunk hmade
    unfold Cluster.blockData
    cases hfind : (s.cluster.ns.locations id).findSome? fun dn => (s.cluster.stores dn.address).held id with
    | none =>
      rw [List.findSome?_eq_none_iff.1 hfind dn hdn] at hheld; cases hheld
    | some d =>
      obtain ⟨dn', -, hd⟩ := List.exists_of_findSome?_eq_some hfind
      rw [hs.whole _ id chunk d hmade hd]
  have hcontent : ∀ (bl : List Int64) (cs : List Bytes), bl.map s.made = cs.map some →
      s.cluster.content bl = some cs.flatten := by
    intro bl
    induction bl with
    | nil =>
      intro cs hcs
      cases cs with
      | nil => rfl
      | cons chunk cs => cases hcs
    | cons id bl ih =>
      intro cs hcs
      cases cs with
      | nil => cases hcs
      | cons chunk cs =>
        rw [List.map_cons, List.map_cons, List.cons.injEq] at hcs
        rw [Cluster.content, hblock id chunk hcs.1, ih cs hcs.2]; rfl
  obtain ⟨bl, hbl, hcs⟩ := h
  exact (read_file hbl _).2 (hcontent bl cs hcs)

end Lists

end MiniHadoop.Ndfs

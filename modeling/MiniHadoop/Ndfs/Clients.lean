/-
Several clients at once. A call of a client is a sequence of separate exchanges, with the NameNode or
with a DataNode, and the exchanges of different clients come in any order, with heartbeats and block
reports between them. A client that nobody comes between does what the whole calls of the client do.
-/
import MiniHadoop.Base.Runs
import MiniHadoop.Ndfs.WriteLoop

namespace MiniHadoop.Ndfs

open Text Wire Chunks Runs

/-! ## A write, exchange by exchange -/

/-- Where a `WriteFile` stands in the turn `n` of its loop. -/
inductive Writer where
  | allocating (n : Nat) (rest : Buffer)
  | sending (n : Nat) (a : Allocation) (chunk rest : Buffer)
  | confirming (n : Nat) (a : Allocation) (chunkSize : Nat) (todo : List DataNodeInfo) (rest : Buffer)
  | returned (st : Status)
  deriving DecidableEq

/-- The next exchange of a `WriteFile`; the turns of its loop are those of `writeLoop`. -/
def Cluster.stepWrite (blockSize : Int64) (path : Bytes) (overwrite : Bool) (c : Cluster) (e : ChunkEnv) :
    Writer → Cluster × Writer
  | .allocating n rest =>
    if rest.1.length = 0 then (c, .returned .OK)
    else
      let chunkSize := min blockSize.toUInt64.toNat rest.1.length
      match callRaw e.rpc c.ns (allocateBlock (n = 0) e.id e.order path overwrite) with
      | (ns, .error st) => ({ c with ns }, .returned st)
      | (ns, .ok a) => ({ c with ns }, .sending n a (rest.take chunkSize) (rest.drop chunkSize))
  | .sending n a chunk rest => (c.sendBlock a chunk.1 e.xfer, .confirming n a chunk.1.length a.targets rest)
  | .confirming n _ _ [] rest => (c, .allocating (n + 1) rest)
  | .confirming n a chunkSize (dn :: todo) rest =>
    (c.confirmBlock a chunkSize dn (e.confirm dn), .confirming n a chunkSize todo rest)
  | .returned st => (c, .returned st)

/-! ## A read, exchange by exchange -/

/-- Where a `ReadFile` stands: before the call of `GetBlocks`; with the bytes read so far, the blocks still
to read and the locations still to try; or at its end. -/
inductive Reader where
  | asking (path : Bytes)
  | fetching (data : Bytes) (todo : List (Block × List DataNodeInfo))
  | returned (st : Status) (data : Bytes)
  deriving DecidableEq

/-- The next exchange of a `ReadFile`. -/
def Cluster.stepRead (c : Cluster) (rpc : RpcOutcome) (o : ReadOutcome) : Reader → Reader
  | .asking path =>
    match callRaw rpc c.ns fun ns => (ns, ns.getBlocks path) with
    | (_, .error st) => .returned st []
    | (_, .ok r) => .fetching [] (r.blocks.zip r.locations)
  | .fetching data [] => .returned .OK data
  | .fetching data ((block, []) :: _) => .returned (.ioError (bytes "cannot read block " ++ toStr block.blockId)) data
  | .fetching data ((block, dn :: targets) :: rest) =>
    match c.fetchBlock block.blockId dn o with
    | some d => .fetching (data ++ d) rest
    | none => .fetching data ((block, targets) :: rest)
  | .returned st data => .returned st data

/-! ## Alone -/

section Alone

variable {blockSize : Int64} {path : Bytes} {overwrite : Bool} {env : Nat → ChunkEnv}

/-- The steps of one `WriteFile` that no other client comes between. -/
def Cluster.stepsWrite (blockSize : Int64) (path : Bytes) (overwrite : Bool) (es : List ChunkEnv)
    (p : Cluster × Writer) : Cluster × Writer :=
  es.foldl (fun p e => p.1.stepWrite blockSize path overwrite e p.2) p

theorem stepsWrite_cons (e : ChunkEnv) (es : List ChunkEnv) (c : Cluster) (w : Writer) :
    Cluster.stepsWrite blockSize path overwrite (e :: es) (c, w) =
      Cluster.stepsWrite blockSize path overwrite es (c.stepWrite blockSize path overwrite e w) := rfl

theorem stepsWrite_append (es es' : List ChunkEnv) (p : Cluster × Writer) :
    Cluster.stepsWrite blockSize path overwrite (es ++ es') p =
      Cluster.stepsWrite blockSize path overwrite es' (Cluster.stepsWrite blockSize path overwrite es p) :=
  List.foldl_append

/-- The confirmations of a turn, one after another. -/
theorem stepsWrite_confirming (e : ChunkEnv) (n : Nat) (a : Allocation) (len : Nat) (rest : Buffer) :
    ∀ (todo : List DataNodeInfo) (c : Cluster),
      Cluster.stepsWrite blockSize path overwrite (todo.map fun _ => e) (c, .confirming n a len todo rest) =
        (todo.foldl (fun c dn => c.confirmBlock a len dn (e.confirm dn)) c, .confirming n a len [] rest)
  | [], _ => rfl
  | dn :: todo, c => stepsWrite_confirming e n a len rest todo (c.confirmBlock a len dn (e.confirm dn))

/-- The exchanges of a turn after its allocation do what the turn does. -/
theorem stepsWrite_sending (e : ChunkEnv) (n : Nat) (a : Allocation) (chunk rest : Buffer) (c : Cluster) :
    Cluster.stepsWrite blockSize path overwrite (e :: (a.targets.map fun _ => e) ++ [e])
        (c, .sending n a chunk rest) = (c.deliver a chunk.1 e, .allocating (n + 1) rest) := by
  have hsend : c.stepWrite blockSize path overwrite e (.sending n a chunk rest) =
      (c.sendBlock a chunk.1 e.xfer, .confirming n a chunk.1.length a.targets rest) := rfl
  rw [List.cons_append, stepsWrite_cons, hsend, stepsWrite_append, stepsWrite_confirming]; rfl

theorem stepsWrite_loop : ∀ (fuel : Nat) (c : Cluster) (n : Nat) (rest : Buffer) {c' : Cluster} {st : Status},
    c.writeLoop blockSize path overwrite env fuel n rest.1 = some (c', st) →
      ∃ es, Cluster.stepsWrite blockSize path overwrite es (c, .allocating n rest) = (c', .returned st)
  | 0, _, _, _, _, _, h => by cases h
  | fuel + 1, c, n, rest, c', st, h => by
    rw [Cluster.writeLoop] at h
    by_cases hlen : rest.1.length = 0
    · rw [if_pos hlen] at h
      cases h
      exact ⟨[env n], by rw [stepsWrite_cons, Cluster.stepWrite, if_pos hlen]; rfl⟩
    · rw [if_neg hlen] at h
      have hstep := @Cluster.stepWrite.eq_1 blockSize path overwrite c (env n) n rest
      rw [if_neg hlen] at hstep
      rcases hcall : callRaw (env n).rpc c.ns (allocateBlock (n = 0) (env n).id (env n).order path overwrite) with
        ⟨ns, st' | a⟩
      · simp only [hcall] at h hstep
        cases h
        exact ⟨[env n], by rw [stepsWrite_cons, hstep]; rfl⟩
      · simp only [hcall] at h hstep
        obtain ⟨es, hes⟩ := stepsWrite_loop fuel _ (n + 1)
          (rest.drop (min blockSize.toUInt64.toNat rest.1.length)) h
        refine ⟨env n :: ((env n :: (a.targets.map fun _ => env n) ++ [env n]) ++ es), ?_⟩
        rw [stepsWrite_cons, hstep, stepsWrite_append, stepsWrite_sending]
        exact hes

/-- A write alone, exchange by exchange, is `WriteFile`. -/
theorem stepsWrite_writeFile {c c' : Cluster} {data : Buffer} {st : Status}
    (h : c.writeFile blockSize path data overwrite env = some (c', st)) :
    ∃ es, Cluster.stepsWrite blockSize path overwrite es (c, .allocating 0 data) = (c', .returned st) :=
  stepsWrite_loop _ c 0 data h

variable (c : Cluster) (rpc : RpcOutcome)

/-- The steps of one `ReadFile` that no other client comes between. -/
def Cluster.stepsRead (outs : List ReadOutcome) (r : Reader) : Reader :=
  outs.foldl (fun r o => c.stepRead rpc o r) r

theorem stepsRead_append (outs outs' : List ReadOutcome) (r : Reader) :
    c.stepsRead rpc (outs ++ outs') r = c.stepsRead rpc outs' (c.stepsRead rpc outs r) :=
  List.foldl_append

/-- The attempts at the locations of one block. -/
theorem stepsRead_block (attempt : Nat → ReadOutcome) (block : Block) (data : Bytes)
    (rest : List (Block × List DataNodeInfo)) : ∀ (targets : List DataNodeInfo) (j : Nat),
      ∃ outs, c.stepsRead rpc outs (.fetching data ((block, targets) :: rest)) =
        match c.tryLocations block.blockId attempt j targets with
        | some d => .fetching (data ++ d) rest
        | none => .fetching data ((block, []) :: rest)
  | [], _ => ⟨[], rfl⟩
  | dn :: targets, j => by
    rw [Cluster.tryLocations]
    have hstep : c.stepRead rpc (attempt j) (.fetching data ((block, dn :: targets) :: rest)) =
        match c.fetchBlock block.blockId dn (attempt j) with
        | some d => .fetching (data ++ d) rest
        | none => .fetching data ((block, targets) :: rest) := rfl
    cases hf : c.fetchBlock block.blockId dn (attempt j) with
    | some d =>
      rw [hf] at hstep
      exact ⟨[attempt j], hstep⟩
    | none =>
      rw [hf] at hstep
      obtain ⟨outs, hall⟩ := stepsRead_block attempt block data rest targets (j + 1)
      refine ⟨attempt j :: outs, ?_⟩
      rw [Cluster.stepsRead, List.foldl_cons, hstep]; exact hall

theorem stepsRead_loop (attempt : Nat → Nat → ReadOutcome) :
    ∀ (blocks : List (Block × List DataNodeInfo)) (i : Nat) (data : Bytes),
      ∃ outs, c.stepsRead rpc outs (.fetching data blocks) =
        .returned (c.readLoop attempt i data blocks).1 (c.readLoop attempt i data blocks).2
  | [], _, _ => ⟨[.complete], rfl⟩
  | (block, targets) :: rest, i, data => by
    obtain ⟨outs, hblock⟩ := stepsRead_block c rpc (attempt i) block data rest targets 0
    rw [Cluster.readLoop]
    cases ht : c.tryLocations block.blockId (attempt i) 0 targets with
    | none =>
      rw [ht] at hblock
      refine ⟨outs ++ [.complete], ?_⟩
      rw [stepsRead_append, hblock]; rfl
    | some d =>
      rw [ht] at hblock
      obtain ⟨outs', hrest⟩ := stepsRead_loop attempt rest (i + 1) (data ++ d)
      refine ⟨outs ++ outs', ?_⟩
      rw [stepsRead_append, hblock]; exact hrest

/-- A read alone, exchange by exchange, is `ReadFile`. -/
theorem stepsRead_readFile (attempt : Nat → Nat → ReadOutcome) (path : Bytes) :
    ∃ outs, c.stepsRead rpc outs (.asking path) =
      .returned (c.readFile rpc attempt path []).1 (c.readFile rpc attempt path []).2 := by
  rw [Cluster.readFile]
  have hstep : ∀ o, c.stepRead rpc o (.asking path) =
      match callRaw rpc c.ns fun ns => (ns, ns.getBlocks path) with
      | (_, .error st) => .returned st []
      | (_, .ok r) => .fetching [] (r.blocks.zip r.locations) := fun _ => rfl
  rcases hcall : callRaw rpc c.ns fun ns => (ns, ns.getBlocks path) with ⟨ns, st | r⟩
  · exact ⟨[.complete], by rw [Cluster.stepsRead, List.foldl_cons, hstep, hcall]; rfl⟩
  · obtain ⟨outs, hloop⟩ := stepsRead_loop c rpc attempt (r.blocks.zip r.locations) 0 []
    refine ⟨.complete :: outs, ?_⟩
    rw [Cluster.stepsRead, List.foldl_cons, hstep, hcall]; exact hloop

end Alone

/-! ## Clients -/

/-- A call in progress. -/
inductive Activity where
  | write (path : Bytes) (overwrite : Bool) (w : Writer)
  | read (r : Reader)
  | delete (path : Bytes) (result : Option Status)
  deriving DecidableEq

/-- The status the call has returned. -/
def Activity.result : Activity → Option Status
  | .write _ _ (.returned st) => some st
  | .write _ _ _ => none
  | .read (.returned st _) => some st
  | .read _ => none
  | .delete _ result => result

/-- A client has the call it works on and those it makes after it. -/
abbrev Client := List Activity

def Cluster.stepActivity (blockSize : Int64) (c : Cluster) (e : ChunkEnv) (o : ReadOutcome) :
    Activity → Cluster × Activity
  | .write path overwrite w =>
    ((c.stepWrite blockSize path overwrite e w).1, .write path overwrite (c.stepWrite blockSize path overwrite e w).2)
  | .read r => (c, .read (c.stepRead e.rpc o r))
  | .delete path none => ((c.delete e.rpc path).1, .delete path (some (c.delete e.rpc path).2))
  | .delete path (some st) => (c, .delete path (some st))

/-- One step of a client: the next exchange of its call, or the start of its next call. -/
def Cluster.stepClient (blockSize : Int64) (c : Cluster) (e : ChunkEnv) (o : ReadOutcome) : Client → Cluster × Client
  | [] => (c, [])
  | act :: rest =>
    match act.result, rest with
    | some _, next :: later => (c, next :: later)
    | _, _ => ((c.stepActivity blockSize e o act).1, (c.stepActivity blockSize e o act).2 :: rest)

/-! ## The system -/

/-- A cluster with its clients. `made` is not part of the program: it records the block ids generated so
far, each with the chunk it was generated for, and no step looks at it. -/
structure System (ι : Type) where
  cluster : Cluster
  clients : ι → Client
  made : Int64 → Option Bytes := fun _ => none

/-- What can happen next: a step of a client, a heartbeat or a block report. -/
inductive Event (ι : Type) where
  | client (i : ι) (e : ChunkEnv) (o : ReadOutcome)
  | heartbeat (now : Int64) (dnName host : Bytes) (port : Int32) (capacity remaining : Int64)
  | blockReport (dnName : Bytes) (blocks : List Block)

/-- The chunk a client is about to get a block for. -/
def Client.chunk (blockSize : Int64) : Client → Option Bytes
  | .write _ _ (.allocating _ rest) :: _ =>
    if rest.1.length = 0 then none else some (rest.1.take (chunkLen blockSize))
  | _ => none

section System

variable {ι : Type} [DecidableEq ι]

def System.step (blockSize : Int64) (s : System ι) : Event ι → System ι
  | .client i e o =>
    { cluster := (s.cluster.stepClient blockSize e o (s.clients i)).1
      clients := Function.update s.clients i (s.cluster.stepClient blockSize e o (s.clients i)).2
      made := match (s.clients i).chunk blockSize with
        | none => s.made
        | some chunk => Function.update s.made e.id (some chunk) }
  | .heartbeat now dnName host port capacity remaining =>
    { s with cluster := { s.cluster with ns := s.cluster.ns.heartbeat now dnName host port capacity remaining } }
  | .blockReport dnName blocks =>
    { s with cluster := { s.cluster with ns := s.cluster.ns.blockReport dnName blocks } }

/-- The event is one of a healthy cluster: the calls of clients succeed, and a block id that is generated
is a new one. Heartbeats and block reports may say anything. -/
def Event.Healthy (blockSize : Int64) (s : System ι) : Event ι → Prop
  | .client i e _ => e.Healthy ∧
    ((s.clients i).chunk blockSize ≠ none → s.made e.id = none ∧ s.cluster.Fresh e.id)
  | .heartbeat .. => True
  | .blockReport .. => True

def SystemStep (blockSize : Int64) (s : System ι) (ev : Event ι) (s' : System ι) : Prop :=
  ev.Healthy blockSize s ∧ s' = s.step blockSize ev

/-- How many steps a client takes in a run. -/
def stepsOf (i : ι) (es : List (Event ι)) : Nat :=
  es.countP fun ev => match ev with
    | .client j _ _ => j = i
    | _ => false

end System

end MiniHadoop.Ndfs

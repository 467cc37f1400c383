/-
What a read returns and what one turn of the write loop leaves behind. A file reads as the blocks of
its list, each from the first location that holds it; a turn gives its block to the first target only
and leaves every other block, at every DataNode, as it was.
-/
import MiniHadoop.Ndfs.DfsClient

namespace MiniHadoop.Ndfs

open Text Wire

/-! ## Reading -/

section Read

variable {c : Cluster}

/-- Of an answer that breaks off the client gets all of the block or nothing. -/
theorem receiveBlock_take {data : Bytes} (h : data.length < maxSize) (n : Nat) :
    receiveBlock ((beBytes 8 data.length ++ data).take n) = if 8 + data.length ≤ n then some data else none := by
  have hdata := readFull_take (x := data) rfl [] (n - 8)
  rw [List.append_nil] at hdata
  rw [receiveBlock, readFull_take (length_beBytes 8 _)]
  by_cases h8 : 8 ≤ n
  · rw [if_pos h8]
    simp only [beValue_length h, hdata]
    by_cases hn : data.length ≤ n - 8
    · rw [if_pos hn, if_pos (by omega)]
      rfl
    · rw [if_neg hn, if_neg (by omega)]
      rfl
  · rw [if_neg h8, if_neg (by omega)]

theorem receiveBlock_answer {data : Bytes} (h : data.length < maxSize) :
    receiveBlock (beBytes 8 data.length ++ data) = some data := by
  have hall := receiveBlock_take h (8 + data.length)
  rwa [List.take_of_length_le (by rw [List.length_append, length_beBytes]), if_pos le_rfl] at hall

/-- What an attempt delivers of the copy of a block that the location has: all of it or nothing. -/
def ReadOutcome.delivers (copy : Option Bytes) : ReadOutcome → Option Bytes
  | .refused => none
  | .cut n => copy.filter fun d => 8 + d.length ≤ n
  | .complete => copy

/-- The client gets what the attempt delivers of the location's copy. -/
theorem fetchBlock_delivers (c : Cluster) (id : Int64) (dn : DataNodeInfo) (o : ReadOutcome) :
    c.fetchBlock id dn o = o.delivers ((c.stores dn.address).held id) := by
  unfold Cluster.fetchBlock
  rw [handleConnection_read]
  simp only [flatten_readAnswer]
  cases hheld : (c.stores dn.address).held id with
  | none =>
    cases o with
    | refused => rfl
    | cut n =>
      simp only [List.take_nil]
      rfl
    | complete => rfl
  | some data =>
    cases o with
    | refused => rfl
    | cut n =>
      simp only [receiveBlock_take (length_held hheld), ReadOutcome.delivers, Option.filter_some, decide_eq_true_eq]
    | complete => exact receiveBlock_answer (length_held hheld)

/-- A location never gives anything but what it holds. -/
theorem fetchBlock_held {c : Cluster} {id : Int64} {dn : DataNodeInfo} {o : ReadOutcome} {d : Bytes}
    (h : c.fetchBlock id dn o = some d) : (c.stores dn.address).held id = some d := by
  rw [fetchBlock_delivers] at h
  cases o with
  | refused => cases h
  | cut n => exact (Option.filter_eq_some_iff.1 h).1
  | complete => exact h

/-- A reachable location gives what it holds. -/
theorem fetchBlock_complete (c : Cluster) (id : Int64) (dn : DataNodeInfo) :
    c.fetchBlock id dn .complete = (c.stores dn.address).held id := fetchBlock_delivers c id dn .complete

/-- What a block reads as: the bytes at the first of its locations that holds it. -/
def Cluster.blockData (c : Cluster) (id : Int64) : Option Bytes :=
  (c.ns.locations id).findSome? fun dn => (c.stores dn.address).held id

theorem tryLocations_complete (c : Cluster) (id : Int64) : ∀ (dns : List DataNodeInfo) (j : Nat),
    c.tryLocations id (fun _ => .complete) j dns = dns.findSome? fun dn => (c.stores dn.address).held id
  | [], _ => rfl
  | dn :: dns, j => by
    rw [Cluster.tryLocations, fetchBlock_complete, List.findSome?_cons]
    cases (c.stores dn.address).held id with
    | none => exact tryLocations_complete c id dns (j + 1)
    | some data => rfl

/-- What a list of blocks reads as; none when a block cannot be read. -/
def Cluster.content (c : Cluster) : List Int64 → Option Bytes
  | [] => some []
  | id :: ids => (c.blockData id).bind fun d => (c.content ids).map (d ++ ·)

theorem content_append (c : Cluster) : ∀ xs ys : List Int64,
    c.content (xs ++ ys) = (c.content xs).bind fun d => (c.content ys).map (d ++ ·)
  | [], ys => by simp [Cluster.content]
  | x :: xs, ys => by
    rw [List.cons_append, Cluster.content, Cluster.content, content_append c xs ys]
    cases c.blockData x with
    | none => rfl
    | some d =>
      cases c.content xs with
      | none => rfl
      | some d' => cases c.content ys <;> simp

theorem content_congr {c c' : Cluster} : ∀ {ids : List Int64}, (∀ id ∈ ids, c'.blockData id = c.blockData id) →
    c'.content ids = c.content ids
  | [], _ => rfl
  | id :: ids, h => by
    rw [Cluster.content, Cluster.content, h id (List.mem_cons_self ..),
      content_congr fun id' h' => h id' (List.mem_cons_of_mem _ h')]

theorem readLoop_complete (c : Cluster) : ∀ (ids : List Int64) (i : Nat) (acc : Bytes),
    match c.content ids with
    | some d => c.readLoop (fun _ _ => .complete) i acc
        ((ids.map fun id => ({ blockId := id, numBytes := 0 } : Block)).zip (ids.map c.ns.locations)) = (.OK, acc ++ d)
    | none => (c.readLoop (fun _ _ => .complete) i acc
        ((ids.map fun id => ({ blockId := id, numBytes := 0 } : Block)).zip (ids.map c.ns.locations))).1 ≠ .OK
  | [], i, acc => by simp [Cluster.content, Cluster.readLoop]
  | id :: ids, i, acc => by
    have htry : c.tryLocations id (fun _ => .complete) 0 (c.ns.locations id) = c.blockData id :=
      tryLocations_complete c id _ 0
    rw [List.map_cons, List.map_cons, List.zip_cons_cons, Cluster.content, Cluster.readLoop]
    cases hb : c.blockData id with
    | none => simp [htry, hb, Status.ioError, Status.OK]
    | some d =>
      have ih := readLoop_complete c ids (i + 1) (acc ++ d)
      simp only [htry, hb, Option.bind_some]
      cases hc : c.content ids with
      | none => rw [hc] at ih; exact ih
      | some d' =>
        rw [hc] at ih
        simp only [Option.map_some]
        rw [← List.append_assoc]; exact ih

/-- A file reads as the content of its block list. -/
theorem read_file {path : Bytes} {bl : List Int64}
    (h : entryAt c.ns.tree (splitPath path) = some ⟨.kFile, bl⟩) (data : Bytes) :
    c.read path = (.OK, data) ↔ c.content bl = some data := by
  have hloop := readLoop_complete c bl 0 []
  have hread : c.read path = c.readLoop (fun _ _ => .complete) 0 []
      ((bl.map fun id => ({ blockId := id, numBytes := 0 } : Block)).zip (bl.map c.ns.locations)) := by
    unfold Cluster.read Cluster.readFile callRaw
    simp only [FsNamesystem.getBlocks_file h]
  rw [hread]
  cases hc : c.content bl with
  | none =>
    rw [hc] at hloop
    refine ⟨fun heq => ?_, fun heq => by cases heq⟩
    rw [heq] at hloop; exact absurd rfl hloop
  | some d =>
    rw [hc] at hloop
    simp only [List.nil_append] at hloop
    rw [hloop]
    constructor
    · intro heq; cases heq; rfl
    · intro heq; cases heq; rfl

/-- What is not a file reads as empty, without an error. -/
theorem read_not_file {path : Bytes} (h : ¬ IsFile c.ns.tree (splitPath path)) : c.read path = (.OK, []) := by
  unfold Cluster.read Cluster.readFile callRaw
  simp only [FsNamesystem.getBlocks_not_file h]
  rfl

end Read

/-! ## Transferring -/

/-- What the transfer of a chunk newly leaves at the target: nothing, a beginning of it, or all of it. -/
def XferOutcome.stored (chunk : Bytes) : XferOutcome → Option Bytes
  | .refused => none
  | .cut n file => if n < 17 + chunk.length then none else file.content chunk
  | .complete file => file.content chunk

theorem stored_prefix_chunk {chunk d : Bytes} : ∀ {x : XferOutcome}, x.stored chunk = some d → d <+: chunk
  | .refused, h => by cases h
  | .cut n file, h => by
    rw [XferOutcome.stored] at h
    split at h
    · cases h
    · cases file with
      | openFails => cases h
      | short m => cases h; exact List.take_prefix _ _
      | written => cases h; exact List.prefix_refl _
  | .complete file, h => by
    cases file with
    | openFails => cases h
    | short m => cases h; exact List.take_prefix _ _
    | written => cases h; exact List.prefix_refl _

theorem length_writeRequest (id : Int64) (chunk : Bytes) : (writeRequest id chunk).length = 17 + chunk.length := by
  simp [writeRequest]; omega

section Deliver

variable (c : Cluster) (a : Allocation) {chunk : Bytes}

theorem held_connect (c : Cluster) (address : Address) (input : Bytes) (file : FileOutcome) (address' : Address)
    (id : Int64) : ((c.connect address input file).stores address').held id =
      if address' = address then (handleConnection allSent (c.stores address) input file).1.held id
      else (c.stores address').held id := by
  show (Function.update c.stores address (handleConnection allSent (c.stores address) input file).1 address').held id = _
  by_cases h : address' = address
  · subst h; rw [if_pos rfl, Function.update_self]
  · rw [if_neg h, Function.update_of_ne h]

/-- A transfer touches the block it carries, at the first target, and nothing else. -/
theorem held_sendBlock (hlen : chunk.length < maxSize) (x : XferOutcome) (address : Address) (id : Int64) :
    ((c.sendBlock a chunk x).stores address).held id =
      if a.targets.head?.map DataNodeInfo.address = some address ∧ id = a.block.blockId then
        (x.stored chunk).or ((c.stores address).held id)
      else (c.stores address).held id := by
  unfold Cluster.sendBlock
  cases ht : a.targets with
  | nil => simp
  | cons dn rest =>
    simp only [List.head?_cons, Option.map_some, Option.some.injEq]
    -- a request that arrives whole, by either way
    have whole : ∀ file : FileOutcome,
        ((c.connect dn.address (writeRequest a.block.blockId chunk) file).stores address).held id =
          if dn.address = address ∧ id = a.block.blockId then
            (file.content chunk).or ((c.stores address).held id)
          else (c.stores address).held id := by
      intro file
      rw [held_connect, handleConnection_write _ _ ⟨chunk, hlen⟩, BlockStorage.held_storeBlock]
      by_cases hadr : address = dn.address
      · subst hadr
        by_cases hid : id = a.block.blockId
        · subst hid; simp
        · simp [hid]
      · simp [hadr, Ne.symm hadr]
    cases x with
    | refused =>
      simp only [XferOutcome.stored, Option.none_or]
      split <;> rfl
    | complete file => exact whole file
    | cut n file =>
      by_cases hn : n < 17 + chunk.length
      · have hcut := @handleConnection_cut allSent (c.stores dn.address) a.block.blockId ⟨chunk, hlen⟩ file n
          (by rw [length_writeRequest]; exact hn)
        simp only [XferOutcome.stored, if_pos hn, Option.none_or, held_connect, hcut]
        split
        · rename_i h; rw [h]; split <;> rfl
        · split <;> rfl
      · have htake : (writeRequest a.block.blockId chunk).take n = writeRequest a.block.blockId chunk :=
          List.take_of_length_le (by rw [length_writeRequest]; omega)
        simp only [XferOutcome.stored, if_neg hn, htake]
        exact whole file

@[simp] theorem sendBlock_ns (x : XferOutcome) : (c.sendBlock a chunk x).ns = c.ns := by
  unfold Cluster.sendBlock
  cases a.targets with
  | nil => rfl
  | cons dn rest => cases x <;> rfl

/-- What the confirmations of listed targets leave: the same namespace, the same DataNodes and the same
locations. -/
structure SameNames (s s' : FsNamesystem) : Prop where
  tree : s'.tree = s.tree
  datanodes : s'.datanodes = s.datanodes
  safeMode : s'.inSafeMode = s.inSafeMode
  locations : ∀ id, s'.locations id = s.locations id

theorem SameNames.refl (s : FsNamesystem) : SameNames s s := ⟨rfl, rfl, rfl, fun _ => rfl⟩

theorem SameNames.trans {s s' s'' : FsNamesystem} (h : SameNames s s') (h' : SameNames s' s'') : SameNames s s'' :=
  ⟨h'.tree.trans h.tree, h'.datanodes.trans h.datanodes, h'.safeMode.trans h.safeMode,
    fun id => (h'.locations id).trans (h.locations id)⟩

theorem confirmBlock_same {dn : DataNodeInfo} (h : dn ∈ c.ns.locations a.block.blockId) (len : Nat) (rpc : RpcOutcome) :
    SameNames c.ns (c.confirmBlock a len dn rpc).ns := by
  unfold Cluster.confirmBlock callRaw
  cases rpc.delivered with
  | false => exact SameNames.refl _
  | true =>
    exact ⟨FsNamesystem.blockReceived_tree _ _ _ [], FsNamesystem.blockReceived_datanodes _ _ _ [],
      FsNamesystem.blockReceived_inSafeMode _ _ _ [],
      FsNamesystem.blockReceived_listed c.ns (b := { a.block with numBytes := Int64.ofNat len }) h []⟩

theorem confirmBlocks_same (e : ChunkEnv) (len : Nat) : ∀ (dns : List DataNodeInfo) (c : Cluster),
    (∀ dn ∈ dns, dn ∈ c.ns.locations a.block.blockId) →
      SameNames c.ns (dns.foldl (fun c dn => c.confirmBlock a len dn (e.confirm dn)) c).ns ∧
      (dns.foldl (fun c dn => c.confirmBlock a len dn (e.confirm dn)) c).stores = c.stores
  | [], c, _ => ⟨SameNames.refl _, rfl⟩
  | dn :: dns, c, h => by
    have h1 := confirmBlock_same c a (h dn (List.mem_cons_self ..)) len (e.confirm dn)
    obtain ⟨h2, h3⟩ := confirmBlocks_same e len dns (c.confirmBlock a len dn (e.confirm dn)) fun dn' hdn' => by
      rw [h1.locations]; exact h dn' (List.mem_cons_of_mem _ hdn')
    exact ⟨h1.trans h2, h3⟩

/-- The rest of a turn leaves the NameNode's view as it was, when the targets are the listed locations. -/
theorem deliver_same (e : ChunkEnv) (h : ∀ dn ∈ a.targets, dn ∈ c.ns.locations a.block.blockId) :
    SameNames c.ns (c.deliver a chunk e).ns := by
  have := (confirmBlocks_same a e chunk.length a.targets (c.sendBlock a chunk e.xfer)
    (by rw [sendBlock_ns]; exact h)).1
  rwa [sendBlock_ns] at this

theorem held_deliver (hlen : chunk.length < maxSize) (e : ChunkEnv)
    (h : ∀ dn ∈ a.targets, dn ∈ c.ns.locations a.block.blockId) (address : Address) (id : Int64) :
    ((c.deliver a chunk e).stores address).held id =
      if a.targets.head?.map DataNodeInfo.address = some address ∧ id = a.block.blockId then
        (e.xfer.stored chunk).or ((c.stores address).held id)
      else (c.stores address).held id := by
  have := (confirmBlocks_same a e chunk.length a.targets (c.sendBlock a chunk e.xfer)
    (by rw [sendBlock_ns]; exact h)).2
  rw [show (c.deliver a chunk e).stores = _ from this]
  exact held_sendBlock c a hlen e.xfer address id

theorem confirmBlocks_tree (e : ChunkEnv) (len : Nat) : ∀ (dns : List DataNodeInfo) (c : Cluster),
    (dns.foldl (fun c dn => c.confirmBlock a len dn (e.confirm dn)) c).ns.tree = c.ns.tree
  | [], _ => rfl
  | dn :: dns, c => by
    rw [List.foldl_cons, confirmBlocks_tree e len dns]
    unfold Cluster.confirmBlock callRaw
    cases (e.confirm dn).delivered
    · rfl
    · exact FsNamesystem.blockReceived_tree _ _ _ []

/-- The rest of a turn never touches the tree. -/
@[simp] theorem deliver_tree (e : ChunkEnv) : (c.deliver a chunk e).ns.tree = c.ns.tree := by
  rw [Cluster.deliver, confirmBlocks_tree, sendBlock_ns]

/-- A refused allocation has no targets, so nothing is sent and nothing confirmed. -/
theorem deliver_refused (e : ChunkEnv) : c.deliver {} chunk e = c := rfl

end Deliver

end MiniHadoop.Ndfs

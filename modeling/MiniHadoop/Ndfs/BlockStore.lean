/-
A DataNode as a map from block ids to bytes. The connections are handled one after another by the server over a
directory of block files; a client writes ids and lengths with `HostToNet64`, and a block report reads the ids back from
the names of the files.
-/
import MiniHadoop.Base.Runs
import MiniHadoop.Ndfs.Transfer

namespace MiniHadoop.Ndfs

open Text Wire Runs

/-! ## Byte order -/

/-- The bytes of a `uint64_t` in the memory of a machine that stores the least significant byte first. -/
def memory (v : UInt64) : Bytes := (beBytes 8 v.toNat).reverse

/-- The `uint64_t` in these bytes of memory. -/
def ofMemory (b : Bytes) : UInt64 := UInt64.ofNat (beValue b.reverse)

/-- `htonl(x)` and `ntohl(x)` on such a machine. -/
def htonl (x : UInt32) : UInt32 := UInt32.ofNat (beValue (beBytes 4 x.toNat).reverse)

/-- `HostToNet64(v)`. -/
def hostToNet64 (v : UInt64) : UInt64 :=
  (htonl (v &&& 0xFFFFFFFF).toUInt32).toUInt64 <<< 32 ||| (htonl (v >>> 32).toUInt32).toUInt64

/-- `NetToHost64(v)`. -/
def netToHost64 (v : UInt64) : UInt64 :=
  (htonl (v &&& 0xFFFFFFFF).toUInt32).toUInt64 <<< 32 ||| (htonl (v >>> 32).toUInt32).toUInt64

theorem toNat_uint32 {n : Nat} (h : n < 256 ^ 4) : (UInt32.ofNat n).toNat = n := UInt32.toNat_ofNat_of_lt' h

theorem beBytes_htonl (x : UInt32) : beBytes 4 (htonl x).toNat = (beBytes 4 x.toNat).reverse := by
  have hlen : (beBytes 4 x.toNat).reverse.length = 4 := by rw [List.length_reverse, length_beBytes]
  have hlt := beValue_lt (beBytes 4 x.toNat).reverse
  rw [hlen] at hlt
  have hall := beBytes_beValue (beBytes 4 x.toNat).reverse
  rw [hlen] at hall
  rw [htonl, toNat_uint32 hlt, hall]

theorem toNat_halves (hi lo : UInt32) : (hi.toUInt64 <<< 32 ||| lo.toUInt64).toNat = hi.toNat * 2 ^ 32 + lo.toNat := by
  have hhi := hi.toNat_lt
  have hlo := lo.toNat_lt
  have hshift : hi.toNat <<< 32 < 2 ^ 64 := by
    rw [Nat.shiftLeft_eq]
    omega
  rw [UInt64.toNat_or, UInt64.toNat_shiftLeft]
  show hi.toNat <<< 32 % 2 ^ 64 ||| lo.toNat = _
  rw [Nat.mod_eq_of_lt hshift, ← Nat.shiftLeft_add_eq_or_of_lt hlo, Nat.shiftLeft_eq]

theorem beBytes_halves (hi : Nat) {lo : Nat} (h : lo < 2 ^ 32) :
    beBytes 8 (hi * 2 ^ 32 + lo) = beBytes 4 hi ++ beBytes 4 lo := by
  have hdiv : (hi * 2 ^ 32 + lo) / 256 ^ 4 = hi := by omega
  have hmod : (hi * 2 ^ 32 + lo) % 256 ^ 4 = lo := by omega
  rw [beBytes_add 4 _ 4, hdiv, ← beBytes_mod 4 (hi * 2 ^ 32 + lo), hmod]

/-- What `HostToNet64` puts into memory is the number in network order. -/
theorem memory_hostToNet64 (v : UInt64) : memory (hostToNet64 v) = beBytes 8 v.toNat := by
  have hv := v.toNat_lt
  have hhi : (v >>> 32).toUInt32.toNat = v.toNat / 256 ^ 4 := by
    rw [UInt64.toNat_toUInt32, UInt64.toNat_shiftRight]
    show v.toNat >>> 32 % 2 ^ 32 = v.toNat / 256 ^ 4
    rw [Nat.shiftRight_eq_div_pow]
    omega
  have hlo : (v &&& 0xFFFFFFFF).toUInt32.toNat = v.toNat % 256 ^ 4 := by
    rw [UInt64.toNat_toUInt32, UInt64.toNat_and]
    show (v.toNat &&& 2 ^ 32 - 1) % 2 ^ 32 = v.toNat % 256 ^ 4
    rw [Nat.and_two_pow_sub_one_eq_mod, Nat.mod_mod]
    rfl
  -- the swapped low half is the high half of the result, and memory starts with the other one
  rw [memory, hostToNet64, toNat_halves, beBytes_halves _ (htonl (v >>> 32).toUInt32).toNat_lt, List.reverse_append,
    beBytes_htonl, beBytes_htonl, List.reverse_reverse, List.reverse_reverse, hhi, hlo, beBytes_mod, ← beBytes_add 4 _ 4]

theorem memory_ofMemory {b : Bytes} (h : b.length = 8) : memory (ofMemory b) = b := by
  have hlt := beValue_lt b.reverse
  have hall := beBytes_beValue b.reverse
  rw [List.length_reverse, h] at hlt hall
  rw [memory, ofMemory, UInt64.toNat_ofNat_of_lt' hlt, hall, List.reverse_reverse]

/-- `NetToHost64` on what came over the network. -/
theorem netToHost64_ofMemory {b : Bytes} (h : b.length = 8) : netToHost64 (ofMemory b) = UInt64.ofNat (beValue b) := by
  have hmem : memory (netToHost64 (ofMemory b)) = b.reverse := by
    refine (memory_hostToNet64 (ofMemory b)).trans ?_
    rw [← List.reverse_reverse (beBytes 8 (ofMemory b).toNat)]
    exact congrArg List.reverse (memory_ofMemory h)
  have hvalue := congrArg beValue (List.reverse_injective hmem)
  rw [beValue_of_fits (by exact (netToHost64 (ofMemory b)).toNat_lt)] at hvalue
  rw [← hvalue, UInt64.ofNat_toNat]

/-- The id that the server decodes is `NetToHost64` of what it has read. -/
theorem idOfBytes_eq {b : Bytes} (h : b.length = 8) : idOfBytes b = (netToHost64 (ofMemory b)).toInt64 := by
  rw [idOfBytes, netToHost64_ofMemory h]

/-! ## Requests -/

/-- What a client sends to write a block. -/
def clientWrite (id : Int64) (payload : Bytes) : Bytes :=
  [kOpWriteBlock] ++ (memory (hostToNet64 id.toUInt64) ++
    (memory (hostToNet64 (UInt64.ofNat payload.length)) ++ payload))

/-- What a client sends to read a block. -/
def clientRead (id : Int64) : Bytes := [kOpReadBlock] ++ memory (hostToNet64 id.toUInt64)

theorem clientWrite_eq (id : Int64) (payload : Buffer) : clientWrite id payload.1 = writeRequest id payload.1 := by
  have hlen := lt_of_lt_maxSize payload.2
  rw [clientWrite, memory_hostToNet64, memory_hostToNet64, UInt64.toNat_ofNat_of_lt' (by show _ < 2 ^ 64; omega)]
  rfl

/-- A write request is an opcode, two numbers and the payload. -/
theorem length_clientWrite (id : Int64) (payload : Bytes) : (clientWrite id payload).length = 17 + payload.length := by
  rw [clientWrite, memory_hostToNet64, memory_hostToNet64]
  simp only [List.length_append, List.length_singleton, length_beBytes]
  omega

theorem clientRead_eq (id : Int64) : clientRead id = readRequest id := by
  rw [clientRead, memory_hostToNet64]
  rfl

/-! ## Block reports -/

/-- The name of the file at a path. -/
def fileName (path : Bytes) : Bytes :=
  match rfind 47 path with
  | none => path
  | some i => path.drop (i + 1)

/-- `path.stem()` and `path.extension()`: the name up to its last dot, unless that is at its front, and the rest. -/
def splitExtension (path : Bytes) : Bytes × Bytes :=
  match rfind 46 (fileName path) with
  | none => (fileName path, [])
  | some 0 => (fileName path, [])
  | some (i + 1) => ((fileName path).take (i + 1), (fileName path).drop (i + 1))

namespace BlockStorage

/-- The loop of `GetBlockReport` over the files of the directory. -/
def reportEntries : List ((_ : Bytes) × Buffer) → Except StollError (List Block)
  | [] => .ok []
  | ⟨path, data⟩ :: rest =>
    if (splitExtension path).2 ≠ bytes ".blk" then reportEntries rest
    else do
      let bid ← stoll (splitExtension path).1
      let blocks ← reportEntries rest
      return { blockId := bid, numBytes := Int64.ofNat data.1.length } :: blocks

/-- `GetBlockReport()`, for the order in which the directory lists its files. -/
def getBlockReport (st : BlockStorage) (order : HashMap.Enumeration Bytes Buffer) : Except StollError (List Block) :=
  reportEntries (order.entries st.files)

theorem of_mem_blockName {x : Int64} {b : UInt8} (h : b ∈ toStr x) : b ≠ 46 ∧ b ≠ 47 := by
  have hdigit : ∀ {b : UInt8}, isDigit b = true → b ≠ 46 ∧ b ≠ 47 := by
    intro b hb
    constructor <;> rintro rfl <;> exact absurd hb (by decide)
  unfold toStr at h
  split at h
  · rcases List.mem_cons.1 h with rfl | h
    · decide
    · exact hdigit (isDigit_of_mem_decimal h)
  · exact hdigit (isDigit_of_mem_decimal h)

/-- The name of a block file is the number and the extension. -/
theorem splitExtension_blockPath (st : BlockStorage) (id : Int64) :
    splitExtension (st.blockPath id) = (toStr id, bytes ".blk") := by
  have hext : bytes ".blk" = 46 :: bytes "blk" := by decide
  have hpath : st.blockPath id = st.dataDir ++ 47 :: (toStr id ++ bytes ".blk") := by
    rw [blockPath, show bytes "/" = [47] from rfl, List.append_assoc, List.append_assoc, List.singleton_append]
  have hslash : 47 ∉ toStr id ++ bytes ".blk" := by
    rw [List.mem_append]
    rintro (hmem | hmem)
    · exact (of_mem_blockName hmem).2 rfl
    · exact absurd hmem (by decide)
  have hname : fileName (st.blockPath id) = toStr id ++ bytes ".blk" := by
    rw [fileName, hpath, rfind_append hslash]
    simp only
    rw [← List.drop_drop, List.drop_left]
    rfl
  obtain ⟨n, hn⟩ := Nat.exists_eq_succ_of_ne_zero (List.length_pos_iff.2 (toStr_ne_nil id)).ne'
  have hdot : rfind 46 (toStr id ++ bytes ".blk") = some (n + 1) := by
    rw [hext, rfind_append (by decide), hn]
  have htake : (toStr id ++ bytes ".blk").take (n + 1) = toStr id := List.take_left' hn
  have hdrop : (toStr id ++ bytes ".blk").drop (n + 1) = bytes ".blk" := List.drop_left' hn
  rw [splitExtension, hname, hdot]
  simp only [htake, hdrop]

theorem reportEntries_cons (st : BlockStorage) (id : Int64) (data : Buffer) {rest : List ((_ : Bytes) × Buffer)}
    {blocks : List Block} (h : reportEntries rest = .ok blocks) :
    reportEntries (⟨st.blockPath id, data⟩ :: rest) =
      .ok ({ blockId := id, numBytes := Int64.ofNat data.1.length } :: blocks) := by
  rw [reportEntries, splitExtension_blockPath, if_neg (fun hne => hne rfl), stoll_toStr, h]
  rfl

/-- The report on block files has a block for each file. -/
theorem reportEntries_eq (st : BlockStorage) {entries : List ((_ : Bytes) × Buffer)}
    (h : ∀ e ∈ entries, ∃ id, e.1 = st.blockPath id) : ∃ blocks, reportEntries entries = .ok blocks ∧
      entries.map (fun e => (e.1, Int64.ofNat e.2.1.length, (0 : Int64))) =
        blocks.map fun b => (st.blockPath b.blockId, b.numBytes, b.generationStamp) := by
  induction entries with
  | nil => exact ⟨[], rfl, rfl⟩
  | cons e rest ih =>
    obtain ⟨path, data⟩ := e
    obtain ⟨id, rfl⟩ : ∃ id, path = st.blockPath id := h _ (List.mem_cons_self ..)
    obtain ⟨blocks, hblocks, heq⟩ := ih fun e he => h e (List.mem_cons_of_mem _ he)
    exact ⟨_, reportEntries_cons st id data hblocks, by rw [List.map_cons, List.map_cons, heq]⟩

end BlockStorage

/-! ## Histories -/

/-- A connection: a write whose request arrives, a write that breaks off after `n` bytes, before its end, or a read. -/
inductive Connection where
  | write (id : Int64) (payload : Buffer)
  | cutWrite (id : Int64) (payload : Buffer) (n : Fin (17 + payload.1.length))
  | read (id : Int64)

namespace Connection

/-- The bytes that arrive. -/
def input : Connection → Bytes
  | .write id payload => clientWrite id payload.1
  | .cutWrite id payload n => (clientWrite id payload.1).take n
  | .read id => clientRead id

/-- The server handles the connection, its files are written, and the client takes the answer. -/
def serve (st : BlockStorage) (c : Connection) : BlockStorage := (handleConnection allSent st c.input .written).1

/-- What the connection writes for a block. -/
def written (id : Int64) : Connection → Option Bytes
  | .write id' payload => if id' = id then some payload.1 else none
  | .cutWrite .. => none
  | .read _ => none

end Connection

/-- The payload of the last complete write of a block. -/
def lastWritten (cs : List Connection) (id : Int64) : Option Bytes := cs.reverse.findSome? (Connection.written id)

theorem lastWritten_snoc (cs : List Connection) (c : Connection) (id : Int64) :
    lastWritten (cs ++ [c]) id = (c.written id).or (lastWritten cs id) :=
  findSome?_reverse_snoc (Connection.written id) cs c

/-- The files are those of a map from block ids to bytes. -/
structure Represents (st : BlockStorage) (blocks : Int64 → Option Bytes) : Prop where
  held : ∀ id, st.held id = blocks id
  paths : ∀ path ∈ st.files, ∃ id, path = st.blockPath id

theorem Represents.serve {st : BlockStorage} {cs : List Connection} (h : Represents st (lastWritten cs)) (c : Connection) :
    Represents (c.serve st) (lastWritten (cs ++ [c])) := by
  have hkeep : c.serve st = st → (∀ id, c.written id = none) → Represents (c.serve st) (lastWritten (cs ++ [c])) := by
    intro hst hnone
    rw [hst]
    refine ⟨fun id => ?_, h.paths⟩
    rw [lastWritten_snoc, hnone, h.held]
    rfl
  cases c with
  | write id payload =>
    have hserve : Connection.serve st (.write id payload) = (st.storeBlock id payload .written).1 := by
      rw [Connection.serve, Connection.input, clientWrite_eq, handleConnection_write]
    rw [hserve]
    refine ⟨fun id' => ?_, fun path hpath => ?_⟩
    · rw [BlockStorage.held_storeBlock, lastWritten_snoc, h.held, h.held]
      by_cases hid : id' = id
      · subst hid
        simp [Connection.written, FileOutcome.content]
      · simp [Connection.written, hid, Ne.symm hid]
    · rcases (AList.mem_insert _).1 hpath with rfl | hpath
      · exact ⟨id, rfl⟩
      · exact h.paths path hpath
  | cutWrite id payload n =>
    refine hkeep ?_ fun _ => rfl
    have hn : n.1 < (writeRequest id payload.1).length := by
      rw [← clientWrite_eq, length_clientWrite]
      exact n.2
    rw [Connection.serve, Connection.input, clientWrite_eq, handleConnection_cut st id payload .written hn]
  | read id =>
    refine hkeep ?_ fun _ => rfl
    rw [Connection.serve, Connection.input, clientRead_eq, handleConnection_read]

/-- The store of a new DataNode after some connections. -/
def BlockStorage.afterAll (dataDir : Bytes) (cs : List Connection) : BlockStorage :=
  after Connection.serve { dataDir } cs

theorem represents_afterAll (dataDir : Bytes) (cs : List Connection) :
    Represents (BlockStorage.afterAll dataDir cs) (lastWritten cs) := by
  refine @after_invariant _ _ Connection.serve _ (fun pre st => Represents st (lastWritten pre)) cs ?_ ?_ cs
    (List.prefix_refl cs)
  · exact ⟨fun id => rfl, fun path hpath => absurd hpath (AList.notMem_empty path)⟩
  · exact fun pre c _ h => h.serve c

/-- The report lists the blocks of the map, each once. -/
theorem Represents.report {st : BlockStorage} {blocks : Int64 → Option Bytes} (h : Represents st blocks)
    (order : HashMap.Enumeration Bytes Buffer) :
    ∃ bs, st.getBlockReport order = .ok bs ∧ (bs.map (·.blockId)).Nodup ∧
      ∀ b, b ∈ bs ↔
        ∃ payload, blocks b.blockId = some payload ∧ b.numBytes = Int64.ofNat payload.length ∧ b.generationStamp = 0 := by
  have hperm := order.perm st.files
  have hpaths : ∀ e ∈ order.entries st.files, ∃ id, e.1 = st.blockPath id := by
    intro e he
    exact h.paths e.1 (@List.mem_map_of_mem _ _ _ _ Sigma.fst (hperm.mem_iff.1 he))
  obtain ⟨bs, hbs, heq⟩ := BlockStorage.reportEntries_eq st hpaths
  have hinj : Function.Injective fun b : Block => (st.blockPath b.blockId, b.numBytes, b.generationStamp) := by
    rintro ⟨id, n, g⟩ ⟨id', n', g'⟩ hb
    cases BlockStorage.blockPath_inj (Prod.ext_iff.1 hb).1
    cases (Prod.ext_iff.1 hb).2
    rfl
  refine ⟨bs, hbs, ?_, fun b => ?_⟩
  · have hkeys : (order.entries st.files).map Sigma.fst = (bs.map (·.blockId)).map st.blockPath := by
      have := congrArg (List.map Prod.fst) heq
      simpa [List.map_map, Function.comp_def] using this
    refine List.Nodup.of_map st.blockPath ?_
    rw [← hkeys]
    exact (hperm.map _).nodup_iff.2 st.files.nodupKeys
  · rw [← List.mem_map_of_injective hinj, ← heq, List.mem_map]
    constructor
    · rintro ⟨⟨path, data⟩, he, heq⟩
      simp only [Prod.mk.injEq] at heq
      obtain ⟨rfl, hnumBytes, hstamp⟩ := heq
      refine ⟨data.1, ?_, hnumBytes.symm, hstamp.symm⟩
      rw [← h.held, BlockStorage.held, AList.mem_lookup_iff.2 (hperm.mem_iff.1 he)]
      rfl
    · rintro ⟨payload, hpayload, hnumBytes, hstamp⟩
      rw [← h.held] at hpayload
      obtain ⟨data, hdata, rfl⟩ := Option.map_eq_some_iff.1 hpayload
      refine ⟨⟨st.blockPath b.blockId, data⟩, hperm.mem_iff.2 (AList.mem_lookup_iff.1 hdata), ?_⟩
      rw [hnumBytes, hstamp]

/-- After any connections a read of a block returns what the last complete write of the block has carried, and nothing
for a block that was never written; a write that breaks off changes nothing; and the block report lists exactly the
written blocks, each once, with their lengths. -/
theorem dataNode_map (dataDir : Bytes) (cs : List Connection) (order : HashMap.Enumeration Bytes Buffer) :
    let st := BlockStorage.afterAll dataDir cs
    (∀ id, ∃ answer, handleConnection allSent st (clientRead id) .written = (st, .closed answer) ∧
      receiveBlock answer = lastWritten cs id ∧ (lastWritten cs id = none → answer = [])) ∧
    (∀ (id : Int64) (payload : Buffer) (n : Nat), n < (clientWrite id payload.1).length →
      (handleConnection allSent st ((clientWrite id payload.1).take n) .written).1 = st) ∧
    ∃ blocks, st.getBlockReport order = .ok blocks ∧ (blocks.map (·.blockId)).Nodup ∧
      ∀ b, b ∈ blocks ↔ ∃ payload,
        lastWritten cs b.blockId = some payload ∧ b.numBytes = Int64.ofNat payload.length ∧ b.generationStamp = 0 := by
  intro st
  have h : Represents st (lastWritten cs) := represents_afterAll dataDir cs
  refine ⟨fun id => ⟨(readAnswer st id).flatten, ?_, ?_, ?_⟩, fun id payload n hn => ?_, ?_⟩
  · rw [clientRead_eq, handleConnection_read]
  · rw [flatten_readAnswer, ← h.held]
    cases hheld : st.held id with
    | none => rfl
    | some data => exact receiveBlock_answer (length_held hheld)
  · rw [flatten_readAnswer, ← h.held]
    intro hnone
    rw [hnone]
  · rw [clientWrite_eq] at hn ⊢
    rw [handleConnection_cut st id payload .written hn]
  · exact h.report order

end MiniHadoop.Ndfs

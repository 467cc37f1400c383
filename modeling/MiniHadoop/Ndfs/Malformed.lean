/-
What a connection can do to the NameNode. Its handlers decode with readers that throw, and nothing between a handler
and the thread of the worker catches: a message whose body does not have all the fields of its method ends the
process. The fields of each method are listed here, and that list decides.
-/
import MiniHadoop.Ipc.Rpc
import MiniHadoop.Ndfs.NameNode

namespace MiniHadoop.Ndfs

open Text Wire Reading InputBuffer OutputBuffer Ipc

/-! ## Formats -/

/-- The kinds of fields in a request. -/
inductive Field where
  | bool
  | int
  | long
  | string
  | block
  | blocks
  deriving DecidableEq, Repr

/-- The input without its first `n` bytes, if it has that many. -/
def skipBytes (n : Nat) (input : Bytes) : Option Bytes := if n ≤ input.length then some (input.drop n) else none

/-- A number of items, not negative as an `int32_t`, and the bytes of the items. -/
def skipSized (itemSize : Nat) (input : Bytes) : Option Bytes :=
  (skipBytes 4 input).bind fun rest =>
    if beValue (input.take 4) < 2 ^ 31 then skipBytes (itemSize * beValue (input.take 4)) rest else none

/-- The input without a field, if the field is there. -/
def Field.skip : Field → Bytes → Option Bytes
  | .bool => skipBytes 1
  | .int => skipBytes 4
  | .long => skipBytes 8
  | .string => skipSized 1
  | .block => skipBytes 24
  | .blocks => skipSized 24

def skipFields : List Field → Bytes → Option Bytes
  | [], input => some input
  | f :: fs, input => (f.skip input).bind (skipFields fs)

/-- The fields of a request after its method id. -/
def NdfsOp.format : NdfsOp → List Field
  | .kStartFile => [.string, .bool]
  | .kAddBlock => [.string]
  | .kGetBlocks => [.string]
  | .kDelete => [.string]
  | .kMkdirs => [.string]
  | .kGetListing => [.string]
  | .kHeartbeat => [.string, .string, .int, .long, .long]
  | .kBlockReport => [.string, .blocks]
  | .kBlockReceived => [.string, .block, .string]
  | .kGetStats => []
  | .kGetDatanodeReport => []

/-- The method id at the start of a message. -/
def methodIdOf (message : Bytes) : Int32 := (UInt32.ofNat (beValue (message.take 4))).toInt32

/-- The message has all the fields of its method, if there is one. What follows them does not matter. -/
def WellFormedRequest (message : Bytes) : Prop :=
  ∀ op, NdfsOp.find (methodIdOf message) = some op → (skipFields op.format (message.drop 4)).isSome = true

instance (message : Bytes) : Decidable (WellFormedRequest message) :=
  match h : NdfsOp.find (methodIdOf message) with
  | none => isTrue fun op hop => by rw [h] at hop; cases hop
  | some op => decidable_of_iff ((skipFields op.format (message.drop 4)).isSome = true) (by simp [WellFormedRequest, h])

/-! ## What the readers accept -/

theorem accepts_raw {n : Nat} (hn : n < 2 ^ 63) : Accepts rest (readRawBytes n) (skipBytes n) := by
  intro b
  have hlen := length_rest b
  by_cases h : n ≤ b.rest.length
  · obtain ⟨hpos, hread⟩ := readRawBytes_eq b (show n ≤ b.remaining by omega)
    refine .inl ⟨_, _, hread, ?_⟩
    rw [skipBytes, if_pos h, rest, rest, List.drop_drop]
  · -- the sum passes the end, and is too small to wrap
    have hdata := lt_of_lt_maxSize b.data.2
    have hpos := b.pos_le
    rw [remaining] at hlen
    have hsum : (b.pos + n) % 2 ^ 64 = b.pos + n := Nat.mod_eq_of_lt (by omega)
    refine .inr ⟨.readPastEnd, ?_, by rw [skipBytes, if_neg h]⟩
    simp only [readRawBytes, hsum, show ¬ b.pos + n ≤ b.data.1.length by omega, dite_false]

theorem accepts_bool : Accepts rest readBool (skipBytes 1) :=
  ((accepts_raw (by decide)).last _).last _

theorem accepts_int : Accepts rest readInt (skipBytes 4) := (accepts_raw (by decide)).last _

theorem accepts_long : Accepts rest readLong (skipBytes 8) := (accepts_raw (by decide)).last _

/-- The number that four bytes spell is negative as an `int32_t` from `2 ^ 31` on. -/
theorem int32_of_bytes {n : Nat} (hn : n < 2 ^ 32) :
    ((UInt32.ofNat n).toInt32 < 0 ↔ ¬ n < 2 ^ 31) ∧ (n < 2 ^ 31 → (UInt32.ofNat n).toInt32.toNatClampNeg = n) := by
  have hvalue : (UInt32.ofNat n).toInt32.toInt = (n : Int).bmod (2 ^ 32) := Int32.toInt_ofNat'
  have hzero : Int32.toInt 0 = 0 := rfl
  rw [Int32.lt_iff_toInt_lt, ← Int32.toNat_toInt, hvalue, hzero]
  rw [Int.bmod_def]
  omega

/-- A reader that takes a number of items first: it throws when the number is negative. -/
theorem accepts_sized {α : Type} {f : Int32 → Reader α} {itemSize : Nat}
    (hneg : ∀ len : Int32, len < 0 → ∀ b, ∃ e, f len b = .error e)
    (hpos : ∀ len : Int32, ¬ len < 0 → Accepts rest (f len) (skipBytes (itemSize * len.toNatClampNeg))) :
    Accepts rest (readInt >>= f) (skipSized itemSize) := by
  intro b
  by_cases h : 4 ≤ b.rest.length
  · -- the number is read from the first four bytes
    have htake : (b.rest.take 4).length = 4 := by rw [List.length_take]; omega
    obtain ⟨b', hread, hrest⟩ : ∃ b', readInt b = .ok (methodIdOf b.rest, b') ∧ b'.rest = b.rest.drop 4 :=
      reads_field htake rfl b _ (List.take_append_drop 4 b.rest).symm
    have hskip : skipBytes 4 b.rest = some b'.rest := by rw [skipBytes, if_pos h, hrest]
    obtain ⟨hsign, hvalue⟩ := int32_of_bytes (n := beValue (b.rest.take 4))
      (by have := beValue_lt (b.rest.take 4); rwa [htake] at this)
    rw [bind_ok hread]
    simp only [skipSized, hskip, Option.bind_some]
    by_cases hlen : methodIdOf b.rest < 0
    · obtain ⟨e, he⟩ := hneg _ hlen b'
      exact .inr ⟨e, he, by rw [if_neg (hsign.1 hlen)]⟩
    · have hsmall : beValue (b.rest.take 4) < 2 ^ 31 := by
        by_contra hbig
        exact hlen (hsign.2 hbig)
      have haccepts := hpos _ hlen b'
      rw [methodIdOf, hvalue hsmall] at haccepts
      rw [if_pos hsmall]
      exact haccepts
  · rcases accepts_int b with ⟨a, b', -, hskip⟩ | ⟨e, hread, hskip⟩
    · rw [skipBytes, if_neg h] at hskip
      cases hskip
    · exact .inr ⟨e, bind_error hread, by simp only [skipSized, hskip, Option.bind_none]⟩

theorem accepts_string : Accepts rest readString (skipSized 1) := by
  refine accepts_sized (fun len hlen b => ⟨.lengthError, by simp only [if_pos hlen]; rfl⟩) fun len hlen => ?_
  rw [if_neg hlen, Nat.one_mul]
  exact accepts_raw (len.toNatClampNeg_lt.trans (by decide))

theorem bind_skipBytes (m n : Nat) (input : Bytes) :
    (skipBytes m input).bind (skipBytes n) = skipBytes (m + n) input := by
  unfold skipBytes
  by_cases hm : m ≤ input.length
  · rw [if_pos hm, Option.bind_some, List.length_drop, List.drop_drop]
    by_cases hn : m + n ≤ input.length
    · rw [if_pos hn, if_pos (by omega)]
    · rw [if_neg hn, if_neg (by omega)]
  · rw [if_neg hm, if_neg (by omega)]
    rfl

theorem skipTimes_skipBytes (m : Nat) : ∀ (n : Nat) (input : Bytes), skipTimes (skipBytes m) n input = skipBytes (m * n) input
  | 0, input => by rw [skipTimes, skipBytes, Nat.mul_zero, if_pos (Nat.zero_le _), List.drop_zero]
  | n + 1, input => by
    rw [skipTimes, funext (skipTimes_skipBytes m n), bind_skipBytes, Nat.mul_succ, Nat.add_comm]

theorem accepts_block : Accepts rest NameNode.readBlock (skipBytes 24) := by
  have h : Accepts rest NameNode.readBlock fun input =>
      (skipBytes 8 input).bind fun input => (skipBytes 8 input).bind (skipBytes 8) :=
    accepts_long.bind fun _ => accepts_long.bind fun _ => accepts_long.last _
  simpa only [bind_skipBytes] using h

theorem accepts_blocks : Accepts rest NameNode.readBlocks (skipSized 24) := by
  refine accepts_sized (fun len hlen b => ⟨.lengthError, by simp only [if_pos hlen]; rfl⟩) fun len hlen => ?_
  rw [if_neg hlen, ← funext (skipTimes_skipBytes 24 _)]
  exact accepts_block.times _

/-- A handler decodes exactly the bodies that have its fields. -/
theorem accepts_request : ∀ op : NdfsOp, Accepts rest (NameNode.readRequest op) (skipFields op.format)
  | .kStartFile => accepts_string.bind fun _ => accepts_bool.bind fun _ => Accepts.pure _
  | .kAddBlock => accepts_string.bind fun _ => Accepts.pure _
  | .kGetBlocks => accepts_string.bind fun _ => Accepts.pure _
  | .kDelete => accepts_string.bind fun _ => Accepts.pure _
  | .kMkdirs => accepts_string.bind fun _ => Accepts.pure _
  | .kGetListing => accepts_string.bind fun _ => Accepts.pure _
  | .kHeartbeat => accepts_string.bind fun _ => accepts_string.bind fun _ => accepts_int.bind fun _ =>
      accepts_long.bind fun _ => accepts_long.bind fun _ => Accepts.pure _
  | .kBlockReport => accepts_string.bind fun _ => accepts_blocks.bind fun _ => Accepts.pure _
  | .kBlockReceived => accepts_string.bind fun _ => accepts_block.bind fun _ => accepts_string.bind fun _ =>
      Accepts.pure _
  | .kGetStats => Accepts.pure _
  | .kGetDatanodeReport => Accepts.pure _

/-! ## The server -/

namespace NameNode

/-- `handlers_` after `SetupHandlers`. The state is the namesystem and the number of requests so far, which says
what the next one takes from outside. -/
def handlers (env : Nat → RequestEnv) : Handlers (FsNamesystem × Nat) := fun methodId =>
  (NdfsOp.find methodId).map fun op s req => do
    let (ns, response) ← handle (env s.2) op s.1 req
    return ((ns, s.2 + 1), response)

theorem handle_isOk_iff (env : RequestEnv) (op : NdfsOp) (s : FsNamesystem) (req : InputBuffer) :
    (∃ out, handle env op s req = .ok out) ↔ (skipFields op.format req.rest).isSome = true := by
  rw [← (accepts_request op).isOk_iff, handle]
  cases h : readRequest op req with
  | error e =>
    constructor
    · rintro ⟨out, hout⟩
      cases hout
    · rintro ⟨a, b, hok⟩
      cases hok
  | ok out => exact ⟨fun _ => ⟨out.1, out.2, rfl⟩, fun _ => ⟨respond env s out.1, rfl⟩⟩

/-- A message is handled exactly when it has the fields of its method. -/
theorem dispatch_isOk_iff (env : Nat → RequestEnv) (s : FsNamesystem × Nat) (msg : Buffer)
    (hlen : acceptLength msg.1.length = true) :
    (∃ out, dispatch (handlers env) s msg = .ok out) ↔ WellFormedRequest msg.1 := by
  have hfour : 4 ≤ msg.1.length := (acceptLength_eq_true.1 hlen).1
  obtain ⟨req, hread, hrest⟩ : ∃ req, readInt (reset msg) = .ok (methodIdOf msg.1, req) ∧ req.rest = msg.1.drop 4 :=
    reads_field (by rw [List.length_take]; omega) rfl (reset msg) _ (List.take_append_drop 4 msg.1).symm
  rw [WellFormedRequest]
  cases hfind : NdfsOp.find (methodIdOf msg.1) with
  | none =>
    rw [dispatch_unknown hread (by rw [handlers, hfind]; rfl)]
    simp
  | some op =>
    have hhandle := handle_isOk_iff (env s.2) op s.1 req
    rw [hrest] at hhandle
    rw [dispatch_handler hread (by rw [handlers, hfind]; rfl)]
    simp only [Option.some.injEq, forall_eq']
    rw [← hhandle]
    cases handle (env s.2) op s.1 req with
    | error e =>
      constructor
      · rintro ⟨out, hout⟩
        cases hout
      · rintro ⟨out, hout⟩
        cases hout
    | ok out => exact ⟨fun _ => ⟨out, rfl⟩, fun _ => ⟨_, rfl⟩⟩

/-- A message is one call of the namesystem, or changes nothing in it. -/
theorem dispatch_reachable (env : Nat → RequestEnv) {s s' : FsNamesystem × Nat} {msg : Buffer} {resp : Bytes}
    (hs : s.1.Reachable) (h : dispatch (handlers env) s msg = .ok (s', resp)) : s'.1.Reachable := by
  cases hread : readInt (reset msg) with
  | error e => rw [dispatch, hread] at h; cases h
  | ok out =>
    obtain ⟨methodId, req⟩ := out
    cases hfind : NdfsOp.find methodId with
    | none =>
      rw [dispatch_unknown hread (by rw [handlers, hfind]; rfl)] at h
      cases h
      exact hs
    | some op =>
      rw [dispatch_handler hread (by rw [handlers, hfind]; rfl)] at h
      dsimp only [handle] at h
      cases hrequest : readRequest op req with
      | error e => rw [hrequest] at h; cases h
      | ok out =>
        rw [hrequest] at h
        cases h
        rcases respond_state (env s.2) s.1 out.1 with heq | ⟨call, heq⟩
        · exact (congrArg FsNamesystem.Reachable heq).mpr hs
        · exact (congrArg FsNamesystem.Reachable heq).mpr (hs.perform call)

/-- Whatever bytes a connection brings, and however it ends, the namesystem is in a state that its calls can reach. -/
theorem connection_reachable (env : Nat → RequestEnv) (send : Nat → SendOutcome) {s : FsNamesystem} (hs : s.Reachable)
    (input : Bytes) : (Ipc.handleConnection (handlers env) send 0 (s, 0) input).1.1.Reachable :=
  handleConnection_keeps (fun _ _ _ _ hs h => dispatch_reachable env hs h) send 0 hs input

/-- On every stream `HandleConnection` ends by closing the connection, and not by an exception or a signal, exactly when
every message it reads has the fields of its method, and the peer has not closed its end when a response is sent. -/
theorem connection_closed_iff (env : Nat → RequestEnv) (send : Nat → SendOutcome) (s : FsNamesystem) (input : Bytes) :
    (Ipc.handleConnection (handlers env) send 0 (s, 0) input).2 = .closed ↔
      (∀ msg ∈ messages send 0 input, WellFormedRequest msg.1) ∧ ¬ Broken send 0 input :=
  handleConnection_closed_iff (dispatch_isOk_iff env) send 0 (s, 0) input

/-- A request to delete a path of five bytes, of which one is there. -/
def cutRequest : Buffer := ⟨writeInt 3 ++ (writeInt 5 ++ bytes "a"), lt_maxSize (by decide)⟩

theorem cutRequest_throws : ¬ ∀ (env : Nat → RequestEnv) (send : Nat → SendOutcome) (s : FsNamesystem) (input : Bytes),
    (Ipc.handleConnection (handlers env) send 0 (s, 0) input).2 = .closed := by
  intro h
  let env : Nat → RequestEnv := fun _ => ⟨0, 0, HashMap.Enumeration.insertion⟩
  have hclosed := h env (fun _ => .sent) {} (sized cutRequest.1 ++ [])
  rw [handleConnection_closed_iff (dispatch_isOk_iff env), messages_sized (by decide)] at hclosed
  exact absurd (hclosed.1 cutRequest (by simp)) (by decide)

end NameNode

end MiniHadoop.Ndfs

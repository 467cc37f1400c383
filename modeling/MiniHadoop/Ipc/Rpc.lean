/-
The RPC layer (`ipc/server.h`, `ipc/client.h`): the frame a call sends, what the server makes of a message, and the
loop of `HandleConnection` over the bytes a peer sends before it closes the connection.
-/
import MiniHadoop.Base.Framing
import MiniHadoop.Io.Buffer

namespace MiniHadoop.Ipc

open Text Wire Framing InputBuffer OutputBuffer

variable {σ : Type}

/-! ## Calls -/

/-- The arguments of `CallRaw`. -/
structure Call where
  methodId : Int32
  payload : Bytes
  deriving DecidableEq, Repr

/-- What `CallRaw` builds first: the method id and the request. -/
def Call.message (c : Call) : Bytes := writeInt c.methodId ++ c.payload

/-- A message after its size as an `int32_t`: the request of `CallRaw`, and a response of the server. -/
def sized (message : Bytes) : Bytes := writeInt (Int32.ofNat message.length) ++ message

/-- The bytes `CallRaw` sends. -/
def Call.request (c : Call) : Bytes := sized c.message

theorem sized_eq_frame {message : Bytes} (h : message.length < 2 ^ 31) : sized message = frame message := by
  have hsize : (Int32.ofNat message.length).toUInt32.toNat = message.length := by
    rw [Int32.toNat_toUInt32_of_le (Int32.not_lt.1 (int32_ofNat_size h).1), (int32_ofNat_size h).2]
  rw [sized, frame, writeInt, hsize]

/-! ## The server -/

/-- `RpcHandler`, with the state of the object it belongs to: it reads the request after the method id, and
returns the bytes it wrote. -/
abbrev RpcHandler (σ : Type) := σ → InputBuffer → Except Throw (σ × Bytes)

/-- `handlers_`. -/
abbrev Handlers (σ : Type) := Int32 → Option (RpcHandler σ)

/-- The response to a method id without a handler. -/
def unknownMethod : Bytes := writeInt (-1) ++ writeString (bytes "unknown method")

/-- What the server does with a message: the state after it, and the response. -/
def dispatch (handlers : Handlers σ) (s : σ) (msg : Buffer) : Except Throw (σ × Bytes) := do
  let (methodId, req) ← readInt (reset msg)
  match handlers methodId with
  | some handler => handler s req
  | none => return (s, unknownMethod)

theorem dispatch_handler {handlers : Handlers σ} {s : σ} {msg : Buffer} {methodId : Int32} {req : InputBuffer}
    {handler : RpcHandler σ} (hread : readInt (reset msg) = .ok (methodId, req))
    (h : handlers methodId = some handler) : dispatch handlers s msg = handler s req := by
  rw [dispatch, hread]
  show (match handlers methodId with | some handler => handler s req | none => _) = _
  rw [h]

theorem dispatch_unknown {handlers : Handlers σ} {s : σ} {msg : Buffer} {methodId : Int32} {req : InputBuffer}
    (hread : readInt (reset msg) = .ok (methodId, req)) (h : handlers methodId = none) :
    dispatch handlers s msg = .ok (s, unknownMethod) := by
  rw [dispatch, hread]
  show (match handlers methodId with | some handler => handler s req | none => _) = _
  rw [h]
  rfl

/-- The lengths the server accepts: 4 to 64 MiB. -/
def acceptLength (totalLen : Nat) : Bool := 4 ≤ totalLen && totalLen ≤ 64 * 1024 * 1024

theorem acceptLength_eq_true {n : Nat} : acceptLength n = true ↔ 4 ≤ n ∧ n ≤ 64 * 1024 * 1024 := by
  rw [acceptLength, Bool.and_eq_true, decide_eq_true_eq, decide_eq_true_eq]

/-- How `HandleConnection` ends: it closes the connection, an exception leaves it, or `SIGPIPE` ends the process; the
signal is neither handled nor blocked, and `send` is called without `MSG_NOSIGNAL`. -/
inductive Ending where
  | closed
  | threw (e : Throw)
  | killed
  deriving DecidableEq, Repr

theorem drop_readFull_lt {input raw rest : Bytes} (h : readFull 4 input = some (raw, rest)) (n : Nat) :
    (rest.drop n).length < input.length := by
  unfold readFull at h
  split at h
  · cases h
    rw [List.length_drop, List.length_drop]
    omega
  · cases h

/-- `HandleConnection(fd)` while the server runs, on the bytes that arrive before the end of the stream; `send`
says what becomes of the response to the `n`-th message. -/
def handleConnection (handlers : Handlers σ) (send : Nat → SendOutcome) (n : Nat) (s : σ) (input : Bytes) :
    σ × Ending :=
  match _h : readFull 4 input with
  | none => (s, .closed)
  | some (raw, rest) =>
    if acceptLength (beValue raw) = false then (s, .closed)
    else match readVector (beValue raw) rest with
      | none => (s, .closed)
      | some msg =>
        match dispatch handlers s msg with
        | .error e => (s, .threw e)
        | .ok (s', _) =>
          match send n with
          | .sent => handleConnection handlers send (n + 1) s' (rest.drop (beValue raw))
          | .failed _ => (s', .closed)
          | .sigpipe => (s', .killed)
termination_by input.length
decreasing_by exact drop_readFull_lt _h _

/-- The messages among the bytes that arrive: complete frames of accepted lengths, up to the first one that is
neither, or whose predecessor was not answered. -/
def messages (send : Nat → SendOutcome) (n : Nat) (input : Bytes) : List Buffer :=
  match _h : readFull 4 input with
  | none => []
  | some (raw, rest) =>
    if acceptLength (beValue raw) = false then []
    else match readVector (beValue raw) rest with
      | none => []
      | some msg => msg :: if send n = .sent then messages send (n + 1) (rest.drop (beValue raw)) else []
termination_by input.length
decreasing_by exact drop_readFull_lt _h _

theorem messages_eq (send : Nat → SendOutcome) (n : Nat) (input : Bytes) : messages send n input =
    match readFull 4 input with
    | none => []
    | some (raw, rest) =>
      if acceptLength (beValue raw) = false then []
      else match readVector (beValue raw) rest with
        | none => []
        | some msg => msg :: if send n = .sent then messages send (n + 1) (rest.drop (beValue raw)) else [] := by
  rw [messages]
  split
  · rename_i h
    rw [h]
  · rename_i raw rest h
    rw [h]

/-- A message that was sent as a frame is the first one that is read. -/
theorem messages_sized {msg : Buffer} (haccept : acceptLength msg.1.length = true) (send : Nat → SendOutcome) (n : Nat)
    (rest : Bytes) :
    messages send n (sized msg.1 ++ rest) = msg :: if send n = .sent then messages send (n + 1) rest else [] := by
  have hlen : msg.1.length < 2 ^ 31 := by
    have hle := (acceptLength_eq_true.1 haccept).2
    omega
  have hvalue : beValue (beBytes 4 msg.1.length) = msg.1.length :=
    beValue_of_fits (by omega)
  have hread : readFull 4 (sized msg.1 ++ rest) = some (beBytes 4 msg.1.length, msg.1 ++ rest) := by
    rw [sized_eq_frame hlen, frame, List.append_assoc, readFull_append (length_beBytes _ _)]
  rw [messages_eq, hread]
  simp only [hvalue, haccept, readVector_append, List.drop_left, Bool.true_eq_false, if_false]

/-- A message that was sent as a frame is dispatched, and the connection goes on behind it. -/
theorem handleConnection_sized (handlers : Handlers σ) {msg : Buffer} (haccept : acceptLength msg.1.length = true)
    (send : Nat → SendOutcome) (n : Nat) (s : σ) (rest : Bytes) :
    handleConnection handlers send n s (sized msg.1 ++ rest) =
      match dispatch handlers s msg with
      | .error e => (s, .threw e)
      | .ok (s', _) =>
        match send n with
        | .sent => handleConnection handlers send (n + 1) s' rest
        | .failed _ => (s', .closed)
        | .sigpipe => (s', .killed) := by
  have hlen : msg.1.length < 2 ^ 31 := by
    have hle := (acceptLength_eq_true.1 haccept).2
    omega
  have hvalue : beValue (beBytes 4 msg.1.length) = msg.1.length := beValue_of_fits (by omega)
  have hread : readFull 4 (sized msg.1 ++ rest) = some (beBytes 4 msg.1.length, msg.1 ++ rest) := by
    rw [sized_eq_frame hlen, frame, List.append_assoc, readFull_append (length_beBytes _ _)]
  rw [handleConnection]
  split
  · rename_i h
    rw [hread] at h
    cases h
  · rename_i raw rest' h
    rw [hread] at h
    cases h
    simp only [hvalue, haccept, readVector_append, List.drop_left, Bool.true_eq_false, if_false]

/-- The peer sends nothing more. -/
theorem handleConnection_nil (handlers : Handlers σ) (send : Nat → SendOutcome) (n : Nat) (s : σ) :
    handleConnection handlers send n s [] = (s, .closed) := by
  rw [handleConnection]
  split
  · rfl
  · rename_i h
    cases h

/-- What every message keeps, the connection keeps, however it ends. -/
theorem handleConnection_keeps {handlers : Handlers σ} {p : σ → Prop}
    (hkeeps : ∀ s msg s' resp, p s → dispatch handlers s msg = .ok (s', resp) → p s') (send : Nat → SendOutcome)
    (n : Nat) {s : σ} (hs : p s) (input : Bytes) : p (handleConnection handlers send n s input).1 := by
  rw [handleConnection]
  split
  · exact hs
  · rename_i raw rest h
    split
    · exact hs
    · split
      · exact hs
      · rename_i msg _
        split
        · exact hs
        · rename_i s' resp hdispatch
          have hs' := hkeeps s msg s' resp hs hdispatch
          split
          · have hlt := drop_readFull_lt h (beValue raw)
            exact handleConnection_keeps hkeeps send (n + 1) hs' (rest.drop (beValue raw))
          · exact hs'
          · exact hs'
termination_by input.length
decreasing_by exact hlt

/-- A response that the server tries to send, that of message `n` or a later one of those it reads, raises `SIGPIPE`. -/
def Broken (send : Nat → SendOutcome) (n : Nat) (input : Bytes) : Prop :=
  ∃ i < (messages send n input).length, send (n + i) = .sigpipe

/-- The first response, and those behind it. -/
theorem broken_cons {send : Nat → SendOutcome} {n : Nat} {input rest : Bytes} {msg : Buffer}
    (h : messages send n input = msg :: if send n = .sent then messages send (n + 1) rest else []) :
    Broken send n input ↔ send n = .sigpipe ∨ (send n = .sent ∧ Broken send (n + 1) rest) := by
  unfold Broken
  rw [h]
  constructor
  · rintro ⟨i, hi, hsend⟩
    cases i with
    | zero => exact .inl hsend
    | succ i =>
      by_cases hfirst : send n = .sent
      · rw [if_pos hfirst, List.length_cons] at hi
        exact .inr ⟨hfirst, i, Nat.lt_of_succ_lt_succ hi, by rw [Nat.add_right_comm]; exact hsend⟩
      · rw [if_neg hfirst] at hi
        exact absurd hi (by simp)
  · rintro (hsend | ⟨hfirst, i, hi, hsend⟩)
    · exact ⟨0, Nat.succ_pos _, hsend⟩
    · rw [if_pos hfirst, List.length_cons]
      exact ⟨i + 1, Nat.succ_lt_succ hi, by rw [Nat.add_right_comm] at hsend; exact hsend⟩

/-- When the messages on which `dispatch` returns are known, `HandleConnection` closes the connection exactly if
all messages it reads are among them, and no response meets a peer that has closed. -/
theorem handleConnection_closed_iff {handlers : Handlers σ} {good : Buffer → Prop}
    (hgood : ∀ s msg, acceptLength msg.1.length = true → ((∃ out, dispatch handlers s msg = .ok out) ↔ good msg))
    (send : Nat → SendOutcome) (n : Nat) (s : σ) (input : Bytes) :
    (handleConnection handlers send n s input).2 = .closed ↔
      (∀ msg ∈ messages send n input, good msg) ∧ ¬ Broken send n input := by
  have hmessages := messages_eq send n input
  rw [handleConnection]
  split
  · rename_i h
    rw [h] at hmessages
    simp [Broken, hmessages]
  · rename_i raw rest h
    rw [h] at hmessages
    dsimp only at hmessages
    by_cases haccept : acceptLength (beValue raw) = false
    · rw [if_pos haccept] at hmessages
      simp [Broken, hmessages, haccept]
    · rw [if_neg haccept] at hmessages ⊢
      cases hmsg : readVector (beValue raw) rest with
      | none =>
        rw [hmsg] at hmessages
        simp [Broken, hmessages]
      | some msg =>
        rw [hmsg] at hmessages
        rw [broken_cons hmessages, hmessages, List.forall_mem_cons,
          ← hgood s msg (by rw [length_readVector hmsg]; simpa using haccept)]
        cases hdispatch : dispatch handlers s msg with
        | error e => simp [hdispatch]
        | ok out =>
          obtain ⟨s', resp⟩ := out
          cases hsend : send n with
          | failed _ => simp [hdispatch]
          | sigpipe => simp [hdispatch]
          | sent =>
            have hlt := drop_readFull_lt h (beValue raw)
            have ih := handleConnection_closed_iff hgood send (n + 1) s' (rest.drop (beValue raw))
            simpa [hdispatch, hsend] using ih
termination_by input.length
decreasing_by exact hlt

end MiniHadoop.Ipc

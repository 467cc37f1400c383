/-
One call from its bytes to the bytes of its response: the frame `CallRaw` sends (`ipc/client.h`), what
`HandleConnection` makes of it (`ipc/server.h`), and what the client takes as the response. Where the handler of
the method returns, the client gets what the handler has written, and the server is left in the state of the handler.
-/
import MiniHadoop.Ipc.Conversation

namespace MiniHadoop.Ipc

open Text Wire Framing Reading InputBuffer OutputBuffer

variable {σ : Type}

/-- The first response of a server to the bytes that arrive. -/
def firstResponse (handlers : Handlers σ) (s : σ) (input : Bytes) : Option Bytes :=
  match messages (fun _ => .sent) 0 input with
  | [] => none
  | msg :: _ =>
    match dispatch handlers s msg with
    | .error _ => none
    | .ok (_, response) => some response

/-- The second half of `CallRaw`: the length, and as many bytes. -/
def receiveResponse (down : Bytes) : Option Bytes :=
  match readFull 4 down with
  | none => none
  | some (rawLen, rest) => (readFull (beValue rawLen) rest).map (·.1)

/-- `CallRaw` when nothing fails on the way: the state of the server after it, and the response, if there is one. -/
def exchange (handlers : Handlers σ) (s : σ) (call : Call) : σ × Option Bytes :=
  ((handleConnection handlers (fun _ => .sent) 0 s call.request).1,
    (firstResponse handlers s call.request).bind fun response => receiveResponse (sized response))

/-- `InputBuffer in(resp)` and what is read from it. -/
def decode {α : Type} (r : Reader α) (response : Bytes) : Except Throw α :=
  match readVector response.length response with
  | none => .error .lengthError
  | some buffer => (r (reset buffer)).map Prod.fst

section Exchange

variable {handlers : Handlers σ} {s s' : σ} {call : Call} {response : Bytes}

/-- The client gets the response back. -/
theorem receiveResponse_sized (h : response.length < 2 ^ 31) : receiveResponse (sized response) = some response := by
  have hvalue : beValue (beBytes 4 response.length) = response.length := beValue_of_fits (by omega)
  have hall : readFull response.length response = some (response, []) := by
    have := readFull_append (x := response) rfl []
    rwa [List.append_nil] at this
  rw [receiveResponse, sized_eq_frame h, frame, readFull_append (length_beBytes _ _)]
  simp only [hvalue, hall, Option.map_some]

theorem firstResponse_message {msg : Buffer} (haccept : acceptLength msg.1.length = true)
    (hdispatch : dispatch handlers s msg = .ok (s', response)) :
    firstResponse handlers s (sized msg.1) = some response := by
  have hmessages := messages_sized haccept (fun _ => .sent) 0 []
  rw [List.append_nil] at hmessages
  unfold firstResponse
  rw [hmessages]
  simp only [hdispatch]

/-- A call that is one message, which is dispatched. -/
theorem exchange_message {msg : Buffer} (hrequest : call.request = sized msg.1)
    (haccept : acceptLength msg.1.length = true) (hdispatch : dispatch handlers s msg = .ok (s', response))
    (hresponse : response.length < 2 ^ 31) : exchange handlers s call = (s', some response) := by
  have hstate := handleConnection_sized handlers haccept (fun _ => .sent) 0 s []
  rw [hdispatch] at hstate
  rw [List.append_nil] at hstate
  simp only [handleConnection_nil] at hstate
  have hfirst := firstResponse_message haccept hdispatch
  have hreceived := receiveResponse_sized hresponse
  unfold exchange
  rw [hrequest, hstate, hfirst, Option.bind_some, hreceived]

/-- A call within the limit, of a method whose handler returns on it. -/
theorem exchange_eq {handler : RpcHandler σ} (hlen : 4 + call.payload.length ≤ 64 * 1024 * 1024)
    (hhandler : handlers call.methodId = some handler)
    (hok : handler s (call.req (Call.message_lt hlen)) = .ok (s', response)) (hresponse : response.length < 2 ^ 31) :
    exchange handlers s call = (s', some response) := by
  have hlt := Call.message_lt hlen
  have haccept : acceptLength call.message.length = true := by
    rw [Call.length_message, acceptLength_eq_true]
    exact ⟨Nat.le_add_right 4 _, hlen⟩
  refine @exchange_message _ _ _ _ _ _ ⟨call.message, hlt⟩ rfl haccept ?_ hresponse
  rw [dispatch_handler (Call.readInt_message hlt) hhandler, hok]

/-- A handler that reads a value and answers it. -/
theorem exchange_reads {α : Type} {r : Reader α} {answer : σ → α → σ × Bytes} {a : α}
    (hlen : 4 + call.payload.length ≤ 64 * 1024 * 1024)
    (hhandler : handlers call.methodId = some fun s req => do
      let (a, _) ← r req
      return answer s a)
    (hread : Reads rest r call.payload a) (hresponse : (answer s a).2.length < 2 ^ 31) :
    exchange handlers s call = ((answer s a).1, some (answer s a).2) := by
  obtain ⟨b, hb, -⟩ := hread (call.req (Call.message_lt hlen)) [] (by rw [Call.rest_req, List.append_nil])
  refine exchange_eq hlen hhandler ?_ hresponse
  rw [hb]
  rfl

/-- A response is decoded from its bytes. -/
theorem decode_reads {α : Type} {r : Reader α} {value : α} (h : Reads rest r response value)
    (hlen : response.length < 2 ^ 31) : decode r response = .ok value := by
  have hvector : readVector response.length response = some ⟨response, lt_maxSize (by omega)⟩ := by
    have := readVector_append ⟨response, lt_maxSize (by omega)⟩ []
    rwa [List.append_nil] at this
  obtain ⟨b, hb, -⟩ := h (reset ⟨response, lt_maxSize (by omega)⟩) [] (by rw [rest_reset, List.append_nil])
  unfold decode
  rw [hvector]
  simp only [hb]
  rfl

end Exchange

/-! ## Sizes of fields -/

theorem length_writeString (x : Bytes) : (writeString x).length = 4 + x.length := by
  rw [writeString, List.length_append, length_writeInt]

theorem length_writeLong (v : Int64) : (writeLong v).length = 8 := by
  simp [writeLong]

theorem length_writeBool (v : Bool) : (writeBool v).length = 1 := rfl

/-- A list that is written item by item, by its bytes. -/
theorem counted_size {α : Type} {encode : α → Bytes} {as : List α} (hpos : ∀ a ∈ as, 0 < (encode a).length) :
    as.length ≤ (as.flatMap encode).length ∧ ∀ a ∈ as, (encode a).length ≤ (as.flatMap encode).length := by
  induction as with
  | nil => exact ⟨le_rfl, fun a ha => by cases ha⟩
  | cons a as ih =>
    obtain ⟨hlen, hmem⟩ := ih fun b hb => hpos b (List.mem_cons_of_mem _ hb)
    have hone := hpos a (List.mem_cons_self ..)
    rw [List.flatMap_cons, List.length_append, List.length_cons]
    refine ⟨by omega, fun b hb => ?_⟩
    rcases List.mem_cons.1 hb with rfl | hb
    · omega
    · have := hmem b hb
      omega

end MiniHadoop.Ipc

/-
A client and a server on one connection, byte by byte. Each `send` and each `recv` moves a piece of any size that is
not empty; the two sides take turns in any order, and the server may read a request while it is still being sent.
One call is made after the other. At every moment what one side has taken, what is on its way and what is still to
be sent make up the frame that is under way, so both sides agree on where every frame begins.
-/
import MiniHadoop.Base.Runs
import MiniHadoop.Common.Error
import MiniHadoop.Ipc.Rpc

namespace MiniHadoop.Ipc

open Text Wire Framing Runs InputBuffer OutputBuffer

variable {σ : Type}

/-! ## States -/

/-- Where the client is in `CallRaw`: in `WriteFull`, or in one of the two calls of `ReadFull`. -/
inductive ClientPhase where
  | sending (rest : Bytes)
  | reading (incoming : Incoming)
  | idle
  deriving DecidableEq, Repr

/-- Where the server is in `HandleConnection`. An exception of a handler ends the process. -/
inductive ServerPhase where
  | reading (incoming : Incoming)
  | writing (rest : Bytes)
  | closed
  | terminated (e : Throw)
  deriving DecidableEq, Repr

/-- The server has closed its end. -/
def ServerPhase.ended : ServerPhase → Bool
  | .closed => true
  | .terminated _ => true
  | _ => false

/-- The client with the calls it still has to make and the results of those that have returned, the bytes on their
way up to the server and down to the client, and the server with the handler calls it has made. -/
structure Connection (σ : Type) where
  todo : List Call
  client : ClientPhase := .idle
  returned : List (Except Status Bytes) := []
  up : Bytes := []
  down : Bytes := []
  server : ServerPhase := .reading (.length [])
  state : σ
  dispatched : List Call := []

namespace Connection

/-- The client goes on to its next call. -/
def nextCall (c : Connection σ) : Connection σ :=
  match c.todo with
  | [] => { c with client := .idle }
  | call :: todo => { c with todo, client := .sending call.request }

/-- A connection on which the calls are made. -/
def start (s : σ) (calls : List Call) : Connection σ := nextCall { todo := calls, state := s }

/-! ## Steps -/

inductive Event where
  | clientSend (n : Nat)
  | clientRecv (n : Nat)
  | clientEof
  | serverRecv (n : Nat)
  | serverSend (n : Nat)
  deriving DecidableEq, Repr

/-- What the client does with a piece of a response. -/
def clientGot (c : Connection σ) : Received → Connection σ
  | .more incoming => { c with client := .reading incoming }
  | .refused => c
  | .done response => nextCall { c with returned := c.returned ++ [.ok response] }

/-- The handler that is called for a message, with what it gets to read. -/
def called (handlers : Handlers σ) (msg : Buffer) : List Call :=
  match readInt (reset msg) with
  | .error _ => []
  | .ok (methodId, req) => if (handlers methodId).isSome then [⟨methodId, req.rest⟩] else []

/-- A complete message at the server. -/
def serve (handlers : Handlers σ) (c : Connection σ) (msg : Buffer) : Connection σ :=
  let c := { c with dispatched := c.dispatched ++ called handlers msg }
  match dispatch handlers c.state msg with
  | .error e => { c with server := .terminated e }
  | .ok (state, response) => { c with state, server := .writing (sized response) }

/-- What the server does with a piece of a request. -/
def serverGot (handlers : Handlers σ) (c : Connection σ) : Received → Connection σ
  | .more incoming => { c with server := .reading incoming }
  | .refused => { c with server := .closed }
  | .done message =>
    match readVector message.length message with
    | none => { c with server := .terminated .lengthError }
    | some msg => c.serve handlers msg

/-- A step, if it is possible. A piece is not empty, and no longer than what was asked for and what is there. -/
def step (handlers : Handlers σ) (c : Connection σ) : Event → Option (Connection σ)
  | .clientSend n =>
    match c.client with
    | .sending rest =>
      if 0 < n ∧ n ≤ rest.length then
        some { c with
          up := c.up ++ rest.take n
          client := if rest.drop n = [] then .reading (.length []) else .sending (rest.drop n) }
      else none
    | _ => none
  | .clientRecv n =>
    match c.client with
    | .reading incoming =>
      if 0 < n ∧ n ≤ incoming.need ∧ n ≤ c.down.length then
        some (clientGot { c with down := c.down.drop n } (incoming.receive (fun _ => true) (c.down.take n)))
      else none
    | _ => none
  | .clientEof =>
    match c.client with
    | .reading _ =>
      if c.down = [] ∧ c.server.ended then
        some (nextCall { c with returned := c.returned ++ [.error (.ioError (bytes "recv failed"))] })
      else none
    | _ => none
  | .serverRecv n =>
    match c.server with
    | .reading incoming =>
      if 0 < n ∧ n ≤ incoming.need ∧ n ≤ c.up.length then
        some (serverGot handlers { c with up := c.up.drop n } (incoming.receive acceptLength (c.up.take n)))
      else none
    | _ => none
  | .serverSend n =>
    match c.server with
    | .writing rest =>
      if 0 < n ∧ n ≤ rest.length then
        some { c with
          down := c.down ++ rest.take n
          server := if rest.drop n = [] then .reading (.length []) else .writing (rest.drop n) }
      else none
    | _ => none

/-- The steps as a relation. -/
def Steps (handlers : Handlers σ) (c : Connection σ) (e : Event) (c' : Connection σ) : Prop :=
  step handlers c e = some c'

end Connection

/-! ## Calls that are answered -/

theorem Call.length_message (call : Call) : call.message.length = 4 + call.payload.length := by
  rw [Call.message, List.length_append, length_writeInt]

theorem Call.message_lt {call : Call} (h : 4 + call.payload.length ≤ 64 * 1024 * 1024) :
    call.message.length < maxSize := lt_maxSize (by rw [call.length_message]; omega)

/-- What a handler gets of a call: the message, at the position after the method id. -/
def Call.req (call : Call) (h : call.message.length < maxSize) : InputBuffer :=
  ⟨⟨call.message, h⟩, 4, by show 4 ≤ call.message.length; rw [call.length_message]; omega⟩

theorem Call.rest_req {call : Call} (h : call.message.length < maxSize) : (call.req h).rest = call.payload :=
  List.drop_left' (length_writeInt _)

theorem Call.readInt_message {call : Call} (h : call.message.length < maxSize) :
    readInt (reset ⟨call.message, h⟩) = .ok (call.methodId, call.req h) := by
  have hlen := call.length_message
  obtain ⟨hpos, hread⟩ := readRawBytes_eq (reset ⟨call.message, h⟩) (show 4 ≤ call.message.length by omega)
  have htake : (reset ⟨call.message, h⟩).rest.take 4 = writeInt call.methodId :=
    List.take_left' (length_writeInt _)
  rw [readInt, Reading.bind_ok hread, htake, writeInt, uint32_beBytes, Int32.toInt32_toUInt32]
  rfl

/-- The calls are within the limit of the server, and their handlers return, one after the other, these responses,
each shorter than `2 ^ 31` bytes. -/
inductive Answers (handlers : Handlers σ) : σ → List Call → List Bytes → Prop
  | nil (s : σ) : Answers handlers s [] []
  | cons {s s' : σ} {call : Call} {handler : RpcHandler σ} {response : Bytes} {calls : List Call}
      {responses : List Bytes} (hsize : 4 + call.payload.length ≤ 64 * 1024 * 1024)
      (hhandler : handlers call.methodId = some handler)
      (hok : handler s (call.req (Call.message_lt hsize)) = .ok (s', response)) (hresponse : response.length < 2 ^ 31)
      (hrest : Answers handlers s' calls responses) : Answers handlers s (call :: calls) (response :: responses)

namespace Connection

/-! ## The invariant -/

/-- The client still has to send these bytes of a request before it waits for the response. -/
def ClientSends (c : Connection σ) (unsent : Bytes) : Prop :=
  (c.client = .sending unsent ∧ unsent ≠ []) ∨ (c.client = .reading (.length []) ∧ unsent = [])

/-- The server still has to send these bytes of a response before it waits for the next request. -/
def ServerSends (c : Connection σ) (unsent : Bytes) : Prop :=
  (c.server = .writing unsent ∧ unsent ≠ []) ∨ (c.server = .reading (.length []) ∧ unsent = [])

/-- The steps that calls and responses take at most: every byte is sent once and received once. -/
def cost (calls : List Call) (responses : List Bytes) : Nat :=
  (calls.map fun call => 2 * (frame call.message).length).sum + (responses.map fun r => 2 * (frame r).length).sum

/-- Where a connection stands on which `calls` are made and `responses` are to be returned, and how many steps it
has left at most. Either nothing is under way, or a request is, or a response. -/
inductive Talk (handlers : Handlers σ) (calls : List Call) (responses : List Bytes) (c : Connection σ) : Nat → Prop
  | idle (hclient : c.client = .idle) (hserver : c.server = .reading (.length [])) (hup : c.up = [])
      (hdispatched : c.dispatched = calls) (hreturned : c.returned = responses.map .ok) :
      Talk handlers calls responses c 0
  | request {call : Call} {response : Bytes} {rs : List Bytes} {incoming : Incoming} {unsent : Bytes}
      (hanswers : Answers handlers c.state (call :: c.todo) (response :: rs)) (hclient : c.ClientSends unsent)
      (hserver : c.server = .reading incoming) (hwaits : incoming.Waits)
      (hframe : incoming.consumed ++ (c.up ++ unsent) = frame call.message) (hdown : c.down = [])
      (hdispatched : c.dispatched ++ call :: c.todo = calls)
      (hreturned : c.returned ++ (response :: rs).map .ok = responses.map .ok) :
      Talk handlers calls responses c (c.up.length + 2 * unsent.length + cost c.todo (response :: rs))
  | response {response : Bytes} {rs : List Bytes} {incoming : Incoming} {unsent : Bytes}
      (hanswers : Answers handlers c.state c.todo rs) (hlen : response.length < 2 ^ 31)
      (hclient : c.client = .reading incoming) (hwaits : incoming.Waits) (hserver : c.ServerSends unsent)
      (hframe : incoming.consumed ++ (c.down ++ unsent) = frame response) (hup : c.up = [])
      (hdispatched : c.dispatched ++ c.todo = calls)
      (hreturned : c.returned ++ (response :: rs).map .ok = responses.map .ok) :
      Talk handlers calls responses c (c.down.length + 2 * unsent.length + cost c.todo rs)

variable {handlers : Handlers σ} {calls : List Call} {responses : List Bytes} {c c' : Connection σ}

theorem cost_cons_call (call : Call) (calls : List Call) (responses : List Bytes) :
    cost (call :: calls) responses = 2 * (frame call.message).length + cost calls responses := by
  rw [cost, cost, List.map_cons, List.sum_cons, Nat.add_assoc]

theorem cost_cons_response (calls : List Call) (r : Bytes) (responses : List Bytes) :
    cost calls (r :: responses) = 2 * (frame r).length + cost calls responses := by
  rw [cost, cost, List.map_cons, List.sum_cons]
  omega

/-- Between two calls. -/
theorem talk_nextCall {rs : List Bytes} (hanswers : Answers handlers c.state c.todo rs)
    (hserver : c.server = .reading (.length [])) (hup : c.up = []) (hdown : c.down = [])
    (hdispatched : c.dispatched ++ c.todo = calls) (hreturned : c.returned ++ rs.map .ok = responses.map .ok) :
    Talk handlers calls responses c.nextCall (cost c.todo rs) := by
  obtain ⟨todo, client, returned, up, down, server, state, dispatched⟩ := c
  cases hanswers with
  | nil =>
    rw [List.map_nil, List.append_nil] at hreturned
    rw [List.append_nil] at hdispatched
    exact .idle rfl hserver hup hdispatched hreturned
  | @cons s s' call handler response todo rs hsize hhandler hok hresponse hrest =>
    have hrequest : call.request = frame call.message :=
      sized_eq_frame (by rw [call.length_message]; omega)
    have htalk : Talk handlers calls responses
        (nextCall ⟨call :: todo, client, returned, up, down, server, state, dispatched⟩)
        (up.length + 2 * call.request.length + cost todo (response :: rs)) := by
      refine .request (.cons hsize hhandler hok hresponse hrest) (.inl ⟨rfl, ?_⟩) hserver ?_ ?_ hdown hdispatched
        hreturned
      · rw [hrequest]; exact frame_ne_nil _
      · exact Nat.zero_lt_succ 3
      · show [] ++ (up ++ call.request) = _
        rw [show up = [] from hup, List.nil_append, List.nil_append, hrequest]
    have hweight : up.length + 2 * call.request.length + cost todo (response :: rs) =
        cost (call :: todo) (response :: rs) := by
      rw [cost_cons_call, hrequest, show up = [] from hup, List.length_nil, Nat.zero_add]
    rw [hweight] at htalk
    exact htalk

/-! ## Steps -/

/-- A step keeps the invariant, and is one of those that were left. -/
def Advances (handlers : Handlers σ) (calls : List Call) (responses : List Bytes) (c : Connection σ) (w : Nat) : Prop :=
  ∃ w' < w, Talk handlers calls responses c w'

theorem Talk.clientSend {w n : Nat} (h : Talk handlers calls responses c w)
    (hstep : step handlers c (.clientSend n) = some c') : Advances handlers calls responses c' w := by
  unfold step at hstep
  cases h with
  | idle hclient => simp [hclient] at hstep
  | response _ _ hclient => simp [hclient] at hstep
  | @request call response rs incoming unsent hanswers hclient hserver hwaits hframe hdown hdispatched hreturned =>
    rcases hclient with ⟨hclient, hne⟩ | ⟨hclient, -⟩
    · rw [hclient] at hstep
      simp only [Option.ite_none_right_eq_some, Option.some.injEq] at hstep
      obtain ⟨⟨hpos, hle⟩, rfl⟩ := hstep
      obtain ⟨horder, hless⟩ := @send_piece c.up unsent n hpos hle
      refine ⟨_, Nat.add_lt_add_right hless _, .request hanswers ?_ hserver hwaits ?_ hdown hdispatched hreturned⟩
      · by_cases hlast : unsent.drop n = []
        · exact .inr ⟨if_pos hlast, hlast⟩
        · exact .inl ⟨if_neg hlast, hlast⟩
      · rw [horder]; exact hframe
    · simp [hclient] at hstep

theorem Talk.serverSend {w n : Nat} (h : Talk handlers calls responses c w)
    (hstep : step handlers c (.serverSend n) = some c') : Advances handlers calls responses c' w := by
  unfold step at hstep
  cases h with
  | idle _ hserver => simp [hserver] at hstep
  | request _ _ hserver => simp [hserver] at hstep
  | @response response rs incoming unsent hanswers hlen hclient hwaits hserver hframe hup hdispatched hreturned =>
    rcases hserver with ⟨hserver, hne⟩ | ⟨hserver, -⟩
    · rw [hserver] at hstep
      simp only [Option.ite_none_right_eq_some, Option.some.injEq] at hstep
      obtain ⟨⟨hpos, hle⟩, rfl⟩ := hstep
      obtain ⟨horder, hless⟩ := @send_piece c.down unsent n hpos hle
      refine ⟨_, Nat.add_lt_add_right hless _, .response hanswers hlen hclient hwaits ?_ ?_ hup hdispatched hreturned⟩
      · by_cases hlast : unsent.drop n = []
        · exact .inr ⟨if_pos hlast, hlast⟩
        · exact .inl ⟨if_neg hlast, hlast⟩
      · rw [horder]; exact hframe
    · simp [hserver] at hstep

/-- The end of the stream is not reached while calls are answered. -/
theorem Talk.clientEof {w : Nat} (h : Talk handlers calls responses c w) : step handlers c .clientEof = none := by
  have hserver : c.server.ended = false := by
    cases h with
    | idle _ hserver => rw [hserver]; rfl
    | request _ _ hserver => rw [hserver]; rfl
    | response _ _ _ _ hserver =>
      rcases hserver with ⟨hserver, -⟩ | ⟨hserver, -⟩
      · rw [hserver]; rfl
      · rw [hserver]; rfl
  unfold step
  cases c.client <;> simp [hserver]

/-- The client takes a piece of a response; with the last one it goes on to its next call. -/
theorem Talk.clientRecv {w n : Nat} (h : Talk handlers calls responses c w)
    (hstep : step handlers c (.clientRecv n) = some c') : Advances handlers calls responses c' w := by
  unfold step at hstep
  cases h with
  | idle hclient => simp [hclient] at hstep
  | @request call response rs incoming unsent hanswers hclient hserver hwaits hframe hdown hdispatched hreturned =>
    -- there is nothing to receive while a request is under way
    rcases hclient with ⟨hclient, -⟩ | ⟨hclient, -⟩
    · simp [hclient] at hstep
    · simp only [hclient, hdown, List.length_nil, Option.ite_none_right_eq_some] at hstep
      omega
  | @response response rs incoming unsent hanswers hlen hclient hwaits hserver hframe hup hdispatched hreturned =>
    rw [hclient] at hstep
    simp only [Option.ite_none_right_eq_some, Option.some.injEq] at hstep
    obtain ⟨⟨hpos, hneed, hle⟩, rfl⟩ := hstep
    rcases hwaits.receive_take (fun _ => true) (by omega) rfl hneed hframe with
      ⟨next, hmore, hwaits', hframe'⟩ | ⟨hdone, hdown, hunsent⟩
    · rw [hmore]
      refine ⟨(c.down.drop n).length + 2 * unsent.length + cost c.todo rs, ?_,
        .response hanswers hlen rfl hwaits' hserver hframe' hup hdispatched hreturned⟩
      rw [List.length_drop]
      omega
    · rw [hdone]
      refine ⟨cost c.todo rs, by omega, talk_nextCall hanswers ?_ hup hdown hdispatched ?_⟩
      · rcases hserver with ⟨-, hne⟩ | ⟨hserver, -⟩
        · exact absurd hunsent hne
        · exact hserver
      · show c.returned ++ [.ok response] ++ _ = _
        rw [List.append_assoc]
        exact hreturned

/-- The handler of the message is called, and answers. -/
theorem serve_answers (c : Connection σ) {s' : σ} {call : Call} {handler : RpcHandler σ} {response : Bytes}
    (hlt : call.message.length < maxSize) (hhandler : handlers call.methodId = some handler)
    (hok : handler c.state (call.req hlt) = .ok (s', response)) :
    c.serve handlers ⟨call.message, hlt⟩ =
      { c with dispatched := c.dispatched ++ [call], state := s', server := .writing (sized response) } := by
  have hcalled : called handlers ⟨call.message, hlt⟩ = [call] := by
    simp only [called, Call.readInt_message, hhandler, Option.isSome_some, if_true, Call.rest_req]
  simp only [serve, hcalled, dispatch_handler (Call.readInt_message hlt) hhandler, hok]

/-- The server takes a piece of a request; with the last one it calls the handler. -/
theorem Talk.serverRecv {w n : Nat} (h : Talk handlers calls responses c w)
    (hstep : step handlers c (.serverRecv n) = some c') : Advances handlers calls responses c' w := by
  unfold step at hstep
  cases h with
  | idle _ hserver hup =>
    simp only [hserver, hup, List.length_nil, Option.ite_none_right_eq_some] at hstep
    omega
  | response _ _ _ _ hserver _ hup =>
    -- there is nothing to receive while a response is under way
    rcases hserver with ⟨hserver, -⟩ | ⟨hserver, -⟩
    · simp [hserver] at hstep
    · simp only [hserver, hup, List.length_nil, Option.ite_none_right_eq_some] at hstep
      omega
  | @request call response rs incoming unsent hanswers hclient hserver hwaits hframe hdown hdispatched hreturned =>
    rw [hserver] at hstep
    simp only [Option.ite_none_right_eq_some, Option.some.injEq] at hstep
    obtain ⟨⟨hpos, hneed, hle⟩, rfl⟩ := hstep
    cases id hanswers with
    | @cons _ s' _ handler _ _ _ hsize hhandler hok hresponse hrest =>
      have hlen := call.length_message
      have haccept : acceptLength call.message.length = true := acceptLength_eq_true.2 ⟨by omega, by omega⟩
      rcases hwaits.receive_take acceptLength (by omega) haccept hneed hframe with
        ⟨next, hmore, hwaits', hframe'⟩ | ⟨hdone, hup, hunsent⟩
      · rw [hmore]
        refine ⟨(c.up.drop n).length + 2 * unsent.length + cost c.todo (response :: rs), ?_,
          .request hanswers hclient rfl hwaits' hframe' hdown hdispatched hreturned⟩
        rw [List.length_drop]
        omega
      · rw [hdone]
        have hvector : readVector call.message.length call.message = some ⟨call.message, Call.message_lt hsize⟩ := by
          have happ := readVector_append ⟨call.message, Call.message_lt hsize⟩ []
          rwa [List.append_nil] at happ
        simp only [serverGot, hvector]
        rw [serve_answers { c with up := c.up.drop n, server := .reading incoming } (Call.message_lt hsize) hhandler hok]
        have hframe' : sized response = frame response := sized_eq_frame hresponse
        have hreading : c.client = .reading (.length []) := by
          rcases hclient with ⟨-, hne⟩ | ⟨hclient, -⟩
          · exact absurd hunsent hne
          · exact hclient
        refine ⟨c.down.length + 2 * (sized response).length + cost c.todo rs, ?_,
          .response hrest hresponse hreading (Nat.zero_lt_succ 3) (.inl ⟨rfl, ?_⟩) ?_ hup ?_ hreturned⟩
        · rw [cost_cons_response, hframe', hdown, List.length_nil]
          omega
        · rw [hframe']; exact frame_ne_nil _
        · show [] ++ (c.down ++ sized response) = _
          rw [hdown, hframe', List.nil_append, List.nil_append]
        · rw [List.append_assoc]
          exact hdispatched

/-- Every step of a connection. -/
theorem Talk.step {w : Nat} {e : Event} (h : Talk handlers calls responses c w)
    (hstep : Connection.step handlers c e = some c') : Advances handlers calls responses c' w := by
  cases e with
  | clientSend n => exact h.clientSend hstep
  | clientRecv n => exact h.clientRecv hstep
  | clientEof => rw [h.clientEof] at hstep; cases hstep
  | serverRecv n => exact h.serverRecv hstep
  | serverSend n => exact h.serverSend hstep

/-! ## Runs -/

theorem Talk.dispatched_initial {w : Nat} (h : Talk handlers calls responses c w) : c.dispatched <+: calls := by
  cases h with
  | idle _ _ _ hdispatched => exact hdispatched ▸ List.prefix_refl _
  | request _ _ _ _ _ _ hdispatched => exact ⟨_, hdispatched⟩
  | response _ _ _ _ _ _ _ hdispatched => exact ⟨_, hdispatched⟩

theorem Talk.returned_initial {w : Nat} (h : Talk handlers calls responses c w) : c.returned <+: responses.map .ok := by
  cases h with
  | idle _ _ _ _ hreturned => exact hreturned ▸ List.prefix_refl _
  | request _ _ _ _ _ _ _ hreturned => exact ⟨_, hreturned⟩
  | response _ _ _ _ _ _ _ _ hreturned => exact ⟨_, hreturned⟩

/-- A connection on which no step is possible has made all calls. -/
theorem Talk.done_of_stuck {w : Nat} (h : Talk handlers calls responses c w)
    (hstuck : ∀ e, Connection.step handlers c e = none) :
    c.dispatched = calls ∧ c.returned = responses.map .ok := by
  cases h with
  | idle _ _ _ hdispatched hreturned => exact ⟨hdispatched, hreturned⟩
  | @request call response rs incoming unsent hanswers hclient hserver hwaits hframe hdown hdispatched hreturned =>
    exfalso
    rcases hclient with ⟨hclient, hne⟩ | ⟨hclient, hunsent⟩
    · -- the client can send a byte
      have hlen := List.length_pos_iff.2 hne
      have hsend := hstuck (.clientSend 1)
      simp only [Connection.step, hclient, show 0 < 1 ∧ 1 ≤ unsent.length by omega] at hsend
      cases hsend
    · -- all of the request is on its way
      rw [hunsent, List.append_nil] at hframe
      have hsize : call.message.length < 256 ^ 4 := by
        cases hanswers with
        | cons hsize => rw [call.length_message]; omega
      have hup := List.length_pos_iff.2 (hwaits.rest_ne_nil hsize hframe)
      have hneed := hwaits.need_pos
      have hrecv := hstuck (.serverRecv 1)
      simp only [Connection.step, hserver, show 0 < 1 ∧ 1 ≤ incoming.need ∧ 1 ≤ c.up.length by omega] at hrecv
      cases hrecv
  | @response response rs incoming unsent hanswers hlen hclient hwaits hserver hframe hup hdispatched hreturned =>
    exfalso
    rcases hserver with ⟨hserver, hne⟩ | ⟨hserver, hunsent⟩
    · have hlen := List.length_pos_iff.2 hne
      have hsend := hstuck (.serverSend 1)
      simp only [Connection.step, hserver, show 0 < 1 ∧ 1 ≤ unsent.length by omega] at hsend
      cases hsend
    · rw [hunsent, List.append_nil] at hframe
      have hdown := List.length_pos_iff.2 (hwaits.rest_ne_nil (by omega) hframe)
      have hneed := hwaits.need_pos
      have hrecv := hstuck (.clientRecv 1)
      simp only [Connection.step, hclient, show 0 < 1 ∧ 1 ≤ incoming.need ∧ 1 ≤ c.down.length by omega]
        at hrecv
      cases hrecv

theorem talk_start {s : σ} (h : Answers handlers s calls responses) :
    Talk handlers calls responses (start s calls) (cost calls responses) :=
  talk_nextCall h rfl rfl rfl rfl rfl

/-- Every run of a connection keeps the invariant, and takes no more steps than there are. -/
theorem run_talk {s : σ} (h : Answers handlers s calls responses) {es : List Event}
    (hrun : Run (Steps handlers) (start s calls) es c) :
    ∃ w, Talk handlers calls responses c w ∧ es.length + w ≤ cost calls responses := by
  refine @Run.invariant _ _ _ (fun es c => ∃ w, Talk handlers calls responses c w ∧
    es.length + w ≤ cost calls responses) _ _ _ hrun ⟨_, talk_start h, by simp⟩ ?_
  rintro es c e c' ⟨w, htalk, hle⟩ hstep
  obtain ⟨w', hlt, htalk'⟩ := htalk.step hstep
  refine ⟨w', htalk', ?_⟩
  rw [List.length_append, List.length_singleton]
  omega

/-- Calls that are answered, however the two streams are cut: the handlers called so far are those of the first calls,
each with its payload, and the calls that have returned returned the responses of their handlers. A run comes to an
end, and then all calls have been made and have returned. -/
theorem calls_answered {s : σ} (h : Answers handlers s calls responses) :
    ∃ steps, ∀ (es : List Event) (c : Connection σ), Run (Steps handlers) (start s calls) es c →
      es.length ≤ steps ∧ c.dispatched <+: calls ∧ c.returned <+: responses.map .ok ∧
        ((∀ e, step handlers c e = none) → c.dispatched = calls ∧ c.returned = responses.map .ok) := by
  refine ⟨cost calls responses, fun es c hrun => ?_⟩
  obtain ⟨w, htalk, hle⟩ := run_talk h hrun
  exact ⟨by omega, htalk.dispatched_initial, htalk.returned_initial, htalk.done_of_stuck⟩

/-- A server with one method, which returns what it is sent. -/
def echo : Handlers Unit := fun methodId => if methodId = 1 then some fun s req => .ok (s, req.rest) else none

theorem echo_answers : Answers echo () [⟨1, bytes "ab"⟩, ⟨1, []⟩] [bytes "ab", []] :=
  .cons (by decide) rfl rfl (by decide) (.cons (by decide) rfl rfl (by decide) (.nil ()))

theorem echo_calls_answered :
    ∃ steps, ∀ (es : List Event) (c : Connection Unit),
      Run (Steps echo) (start () [⟨1, bytes "ab"⟩, ⟨1, []⟩]) es c →
        es.length ≤ steps ∧ c.dispatched <+: [⟨1, bytes "ab"⟩, ⟨1, []⟩] ∧
          c.returned <+: [bytes "ab", []].map .ok ∧ ((∀ e, step echo c e = none) →
            c.dispatched = [⟨1, bytes "ab"⟩, ⟨1, []⟩] ∧ c.returned = [bytes "ab", []].map .ok) :=
  calls_answered echo_answers

end Connection

end MiniHadoop.Ipc

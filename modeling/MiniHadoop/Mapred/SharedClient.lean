/-
The one connection of a TaskTracker to its JobTracker, which the poll thread and the threads of finished tasks share
(`mapred/task_tracker.h`, `ipc/client.h`). A call sends its request and later takes the next response off the
connection, whoever it is for: nothing in a response says which call it answers, and no lock spans a call. Requests
and responses keep their order on the connection, and the server handles one request after the other.
-/
import MiniHadoop.Base.Runs
import MiniHadoop.Mapred.Messages

namespace MiniHadoop.Mapred

open Text Runs

/-! ## States -/

/-- A call on the connection: the `n`-th poll, or the report of a finished task. -/
inductive CallId where
  | poll (n : Nat)
  | report (task : Nat)
  deriving DecidableEq, Repr

def CallId.isPoll : CallId → Bool
  | .poll _ => true
  | .report _ => false

/-- What the calls send: the address of the tracker, and the message of each finished task. -/
structure ClientSetup where
  host : Bytes
  shufflePort : Int32
  completion : Nat → Completion

def ClientSetup.message (env : ClientSetup) : CallId → Message
  | .poll _ => .pollForTask env.host env.shufflePort
  | .report task => .taskCompleted (env.completion task)

/-- The two ends of the connection and what is on it. The calls sent, the responses produced, each with the call it
was produced for, and the responses returned, each with the call that returned it, are kept. -/
structure SharedClient where
  jobTracker : DistJobTracker
  up : List CallId := []
  down : List Bytes := []
  sent : List CallId := []
  produced : List (CallId × Bytes) := []
  returned : List (CallId × Bytes) := []

namespace SharedClient

/-! ## Steps -/

/-- A call sends its request, the server handles the oldest request, a call takes the oldest response, or a message of
another tracker is handled. -/
inductive Event where
  | send (call : CallId)
  | serve
  | receive (call : CallId)
  | other (message : Message)
  deriving DecidableEq, Repr

/-- The calls that have returned. -/
def received (s : SharedClient) : List CallId := s.returned.map (·.1)

/-- The call can be made: the poll thread makes one call after the other, and a task is reported once. -/
def CanSend (s : SharedClient) : CallId → Prop
  | .poll n => s.sent.countP CallId.isPoll = n ∧ s.received.countP CallId.isPoll = n
  | .report task => .report task ∉ s.sent

instance (s : SharedClient) : (call : CallId) → Decidable (s.CanSend call)
  | .poll n => inferInstanceAs (Decidable (s.sent.countP CallId.isPoll = n ∧ s.received.countP CallId.isPoll = n))
  | .report task => inferInstanceAs (Decidable (.report task ∉ s.sent))

/-- A step; one that is not possible changes nothing. -/
def step (env : ClientSetup) (s : SharedClient) : Event → SharedClient
  | .send call =>
    if s.CanSend call then { s with up := s.up ++ [call], sent := s.sent ++ [call] } else s
  | .serve =>
    match s.up with
    | [] => s
    | call :: up =>
      let out := s.jobTracker.handle (env.message call)
      { s with jobTracker := out.1, up, down := s.down ++ [out.2], produced := s.produced ++ [(call, out.2)] }
  | .receive call =>
    match s.down with
    | [] => s
    | response :: down =>
      if call ∈ s.sent ∧ call ∉ s.received then { s with down, returned := s.returned ++ [(call, response)] } else s
  | .other message => { s with jobTracker := (s.jobTracker.handle message).1 }

/-- Every call that has returned returned what the JobTracker produced for its own request. -/
def OwnAnswers (s : SharedClient) : Prop := ∀ r ∈ s.returned, r ∈ s.produced

/-- Responses were taken by polls and by reports in the order in which polls and reports were sent, and no call took
one before its own request was handled. -/
def InOrder (s : SharedClient) : Prop :=
  s.received.map CallId.isPoll <+: s.sent.map CallId.isPoll ∧ ∀ call ∈ s.received, call ∈ s.produced.map (·.1)

/-! ## The invariant -/

/-- The polls are numbered in the order in which they are made. -/
def PollsNumbered (calls : List CallId) : Prop :=
  calls.filter CallId.isPoll = (List.range (calls.countP CallId.isPoll)).map .poll

theorem PollsNumbered.poll {calls : List CallId} (h : PollsNumbered calls) :
    PollsNumbered (calls ++ [.poll (calls.countP CallId.isPoll)]) := by
  rw [PollsNumbered, List.filter_append, List.countP_append, h]
  simp [CallId.isPoll, List.range_succ]

theorem PollsNumbered.report {calls : List CallId} (h : PollsNumbered calls) (task : Nat) :
    PollsNumbered (calls ++ [.report task]) := by
  rw [PollsNumbered, List.filter_append, List.countP_append, h]
  simp [CallId.isPoll]

theorem PollsNumbered.mem {calls : List CallId} (h : PollsNumbered calls) (n : Nat) :
    .poll n ∈ calls ↔ n < calls.countP CallId.isPoll := by
  have hmem : .poll n ∈ calls ↔ .poll n ∈ calls.filter CallId.isPoll := by simp [CallId.isPoll]
  rw [hmem, h]
  simp

/-- Requests and responses keep their order, a response shows whether it is one to a poll, and the poll thread waits for
a response before it polls again. -/
structure Ordered (s : SharedClient) : Prop where
  requests : s.sent = s.produced.map (·.1) ++ s.up
  responses : s.produced.map (·.2) = s.returned.map (·.2) ++ s.down
  kinds : ∀ r ∈ s.produced, r.2 = ack ↔ r.1.isPoll = false
  sent : PollsNumbered s.sent
  received : PollsNumbered s.received
  ahead : s.sent.countP CallId.isPoll ≤ s.received.countP CallId.isPoll + 1

theorem Ordered.start (jobTracker : DistJobTracker) : Ordered { jobTracker } :=
  ⟨rfl, rfl, by simp, rfl, rfl, Nat.zero_le _⟩

theorem handle_kind (env : ClientSetup) (s : DistJobTracker) (call : CallId) :
    (s.handle (env.message call)).2 = ack ↔ call.isPoll = false := by
  cases call with
  | poll n => simp [ClientSetup.message, DistJobTracker.handle, CallId.isPoll, pollResponse_ne_ack]
  | report task => simp [ClientSetup.message, DistJobTracker.handle, CallId.isPoll]

theorem Ordered.send {s : SharedClient} (h : Ordered s) {call : CallId} (hcall : s.CanSend call) :
    Ordered { s with up := s.up ++ [call], sent := s.sent ++ [call] } where
  requests := by rw [h.requests, List.append_assoc]
  responses := h.responses
  kinds := h.kinds
  sent := by
    cases call with
    | poll n => rw [← hcall.1]; exact h.sent.poll
    | report task => exact h.sent.report task
  received := h.received
  ahead := by
    have hahead := h.ahead
    rw [List.countP_append]
    cases call with
    | poll n =>
      obtain ⟨hsent, hreceived⟩ := hcall
      simp only [CallId.isPoll, List.countP_singleton, if_true]
      show _ ≤ s.received.countP CallId.isPoll + 1
      omega
    | report task =>
      simp only [CallId.isPoll, List.countP_singleton, Bool.false_eq_true, if_false, Nat.add_zero]
      exact hahead

theorem Ordered.serve {s : SharedClient} (h : Ordered s) {call : CallId} {up : List CallId} (hup : s.up = call :: up)
    (env : ClientSetup) : Ordered { s with
      jobTracker := (s.jobTracker.handle (env.message call)).1, up
      down := s.down ++ [(s.jobTracker.handle (env.message call)).2]
      produced := s.produced ++ [(call, (s.jobTracker.handle (env.message call)).2)] } where
  requests := by rw [h.requests, hup]; simp
  responses := by rw [List.map_append, h.responses]; simp
  kinds := by
    intro r hr
    rcases List.mem_append.1 hr with hr | hr
    · exact h.kinds r hr
    · rw [List.mem_singleton.1 hr]
      exact handle_kind env s.jobTracker call
  sent := h.sent
  received := h.received
  ahead := h.ahead

theorem Ordered.receive {s : SharedClient} (h : Ordered s) {call : CallId} {response : Bytes} {down : List Bytes}
    (hdown : s.down = response :: down) (hsent : call ∈ s.sent) (hreceived : call ∉ s.received) :
    Ordered { s with down, returned := s.returned ++ [(call, response)] } where
  requests := h.requests
  responses := by rw [h.responses, hdown]; simp
  kinds := h.kinds
  sent := h.sent
  received := by
    show PollsNumbered ((s.returned ++ [(call, response)]).map (·.1))
    rw [List.map_append]
    cases call with
    | poll n =>
      -- the poll thread waits for one response only
      have hlt := (h.sent.mem n).1 hsent
      have hge := (h.received.mem n).not.1 hreceived
      have hahead := h.ahead
      have hn : n = s.received.countP CallId.isPoll := by omega
      rw [hn]
      exact h.received.poll
    | report task => exact h.received.report task
  ahead := by
    have hahead := h.ahead
    show _ ≤ ((s.returned ++ [(call, response)]).map (·.1)).countP CallId.isPoll + 1
    rw [List.map_append, List.countP_append]
    exact hahead.trans (by rw [SharedClient.received]; omega)

theorem Ordered.step {s : SharedClient} (h : Ordered s) (env : ClientSetup) (e : Event) : Ordered (s.step env e) := by
  cases e with
  | send call =>
    rw [SharedClient.step]
    split
    · rename_i hcall; exact h.send hcall
    · exact h
  | serve =>
    rw [SharedClient.step]
    split
    · exact h
    · rename_i call up hup; exact h.serve hup env
  | receive call =>
    rw [SharedClient.step]
    split
    · exact h
    · rename_i response down hdown
      split
      · rename_i hcall; exact h.receive hdown hcall.1 hcall.2
      · exact h
  | other message => exact ⟨h.requests, h.responses, h.kinds, h.sent, h.received, h.ahead⟩

/-! ## Own answers -/

variable {s : SharedClient}

/-- The responses that were returned are the first ones that were produced. -/
theorem Ordered.returned_responses (h : Ordered s) :
    (s.produced.take s.returned.length).map (·.2) = s.returned.map (·.2) := by
  rw [List.map_take, h.responses, List.take_left' (List.length_map _)]

theorem Ordered.produced_calls (h : Ordered s) : (s.produced.take s.returned.length).map (·.1) <+: s.sent := by
  rw [h.requests, List.map_take]
  exact (List.take_prefix _ _).trans (List.prefix_append _ _)

/-- Calls that got their own answers took them in order. -/
theorem Ordered.inOrder (h : Ordered s) (hown : s.OwnAnswers) : s.InOrder := by
  refine ⟨?_, fun call hcall => ?_⟩
  · -- the response tells a poll from a report
    have hkind : ∀ rs : List (CallId × Bytes), (∀ r ∈ rs, r ∈ s.produced) →
        (rs.map (·.1)).map CallId.isPoll = (rs.map (·.2)).map fun b => decide (b ≠ ack) := by
      intro rs hrs
      rw [List.map_map, List.map_map]
      refine List.map_congr_left fun r hr => ?_
      have hiff := h.kinds r (hrs r hr)
      cases hpoll : r.1.isPoll <;> simp_all
    rw [SharedClient.received, hkind s.returned hown, ← h.returned_responses,
      ← hkind _ fun r hr => List.mem_of_mem_take hr]
    exact h.produced_calls.map _
  · obtain ⟨r, hr, rfl⟩ := List.mem_map.1 hcall
    exact List.mem_map_of_mem (hown r hr)

/-- Two lists with the same pattern of polls and the same polls have each poll at the same place. -/
theorem poll_at {call call' : CallId} (hpoll : call.isPoll = true) :
    ∀ {l l' : List CallId} {k : Nat}, l.map CallId.isPoll = l'.map CallId.isPoll →
      l.filter CallId.isPoll = l'.filter CallId.isPoll → l[k]? = some call → l'[k]? = some call' → call' = call
  | [], _, k, _, _, hk, _ => by simp at hk
  | _ :: _, [], _, hmap, _, _, _ => by simp at hmap
  | a :: l, a' :: l', 0, hmap, hfilter, hk, hk' => by
    simp only [List.getElem?_cons_zero, Option.some.injEq] at hk hk'
    subst hk hk'
    have hpoll' : a'.isPoll = true := by rw [← (List.cons.inj hmap).1]; exact hpoll
    rw [List.filter_cons_of_pos hpoll, List.filter_cons_of_pos hpoll'] at hfilter
    exact (List.cons.inj hfilter).1.symm
  | a :: l, a' :: l', k + 1, hmap, hfilter, hk, hk' => by
    obtain ⟨ha, hmap⟩ := List.cons.inj hmap
    rw [List.getElem?_cons_succ] at hk hk'
    refine poll_at hpoll hmap ?_ hk hk'
    cases hpoll' : a.isPoll with
    | true =>
      rw [List.filter_cons_of_pos hpoll', List.filter_cons_of_pos (ha.symm.trans hpoll')] at hfilter
      exact (List.cons.inj hfilter).2
    | false =>
      rwa [List.filter_cons_of_neg (by simp [hpoll']), List.filter_cons_of_neg (by simp [← ha, hpoll'])] at hfilter

/-- When the pattern of those who received is that of those who sent, the polls are in the same places. -/
theorem Ordered.received_polls (h : Ordered s)
    (hkinds : s.received.map CallId.isPoll = (s.sent.take s.received.length).map CallId.isPoll) :
    s.received.filter CallId.isPoll = (s.sent.take s.received.length).filter CallId.isPoll := by
  have hcount : (s.sent.take s.received.length).countP CallId.isPoll = s.received.countP CallId.isPoll := by
    have hmap := congrArg (List.countP id) hkinds
    rw [List.countP_map, List.countP_map] at hmap
    exact hmap.symm
  have hsent : (s.sent.take s.received.length).filter CallId.isPoll <+:
      (List.range (s.sent.countP CallId.isPoll)).map .poll := by
    rw [← h.sent]
    exact (List.take_prefix _ _).filter _
  have hle : s.received.countP CallId.isPoll ≤ s.sent.countP CallId.isPoll := by
    rw [← hcount]
    exact (List.take_sublist _ _).countP_le
  have hreceived : s.received.filter CallId.isPoll <+: (List.range (s.sent.countP CallId.isPoll)).map .poll := by
    rw [h.received, ← Nat.add_sub_cancel' hle, List.range_add]
    exact (List.prefix_append _ _).map _
  refine (List.prefix_of_prefix_length_le hreceived hsent ?_).eq_of_length ?_
  · rw [← List.countP_eq_length_filter, ← List.countP_eq_length_filter, hcount]
  · rw [← List.countP_eq_length_filter, ← List.countP_eq_length_filter, hcount]

/-- Calls that took responses in order got their own. -/
theorem Ordered.ownAnswers (h : Ordered s) (horder : s.InOrder) : s.OwnAnswers := by
  obtain ⟨hpattern, hhandled⟩ := horder
  have hkinds : s.received.map CallId.isPoll = (s.sent.take s.received.length).map CallId.isPoll := by
    rw [List.map_take]
    simpa only [List.length_map] using List.prefix_iff_eq_take.1 hpattern
  rintro ⟨call, response⟩ hr
  obtain ⟨k, hk⟩ := List.mem_iff_getElem?.1 hr
  -- the response was produced for the call that sent in the same place
  have hreceived : s.received[k]? = some call := by rw [SharedClient.received, List.getElem?_map, hk]; rfl
  have hlt : k < s.returned.length := (List.getElem?_eq_some_iff.1 hk).1
  obtain ⟨⟨call', response'⟩, hproduced, rfl⟩ : ∃ r, s.produced[k]? = some r ∧ r.2 = response := by
    have hresponse : (s.produced.map (·.2))[k]? = some response := by
      rw [h.responses, List.getElem?_append_left (by rwa [List.length_map]), List.getElem?_map, hk]
      rfl
    simpa only [List.getElem?_map, Option.map_eq_some_iff] using hresponse
  have hsent : (s.sent.take s.received.length)[k]? = some call' := by
    have hlen : k < (s.produced.map (·.1)).length := by
      rw [List.length_map]
      exact (List.getElem?_eq_some_iff.1 hproduced).1
    rw [List.getElem?_take_of_lt (by rwa [SharedClient.received, List.length_map]), h.requests,
      List.getElem?_append_left hlen, List.getElem?_map, hproduced]
    rfl
  have hmem := List.mem_of_getElem? hproduced
  cases hpoll : call.isPoll with
  | true =>
    rw [← poll_at hpoll hkinds (h.received_polls hkinds) hreceived hsent]
    exact hmem
  | false =>
    -- all acknowledgements are the same
    have hkind : call'.isPoll = false := by
      have hat := congrArg (·[k]?) hkinds
      simp only [List.getElem?_map, hreceived, hsent, Option.map_some, Option.some.injEq] at hat
      rw [← hat, hpoll]
    obtain ⟨⟨call'', response''⟩, hown, rfl⟩ := List.mem_map.1 (hhandled call (List.mem_of_getElem? hreceived))
    have hack := (h.kinds _ hmem).2 hkind
    have hack' := (h.kinds _ hown).2 hpoll
    simp only at hack hack' ⊢
    rw [hack, ← hack']
    exact hown

/-- Along any interleaving, the calls that have returned returned their own answers exactly when polls and reports took
responses in the order in which they were sent, none before its own request was handled. -/
theorem ownAnswers_iff (env : ClientSetup) (jobTracker : DistJobTracker) (es : List Event) :
    (after (step env) { jobTracker } es).OwnAnswers ↔ (after (step env) { jobTracker } es).InOrder := by
  have h : Ordered (after (step env) { jobTracker } es) :=
    @after_keeps _ _ (step env) _ Ordered es (Ordered.start jobTracker) fun _ e _ h => h.step env e
  exact ⟨h.inOrder, h.ownAnswers⟩

/-- A JobTracker with a job of two map tasks, of which one has been handed out. -/
def busyTracker : DistJobTracker := (({} : DistJobTracker).submitJob (bytes "in") (bytes "out") 2 1).pollForTask.1

/-- The thread of that task reports it. -/
def busyClient : ClientSetup where
  host := bytes "127.0.0.1"
  shufflePort := 17301
  completion _ := .map (bytes "job_001_m_1") 1 (bytes "127.0.0.1") 17301

/-- The poll and the report are sent in one order and take their responses in the other. -/
theorem answers_swapped : ¬ ∀ (env : ClientSetup) (jobTracker : DistJobTracker) (es : List Event),
    (after (step env) { jobTracker } es).OwnAnswers := by
  intro h
  have hown := h busyClient busyTracker
    [.send (.poll 0), .send (.report 0), .serve, .serve, .receive (.report 0), .receive (.poll 0)]
  exact absurd (hown (.poll 0, ack) (by decide +kernel)) (by decide +kernel)

end SharedClient

end MiniHadoop.Mapred

/-
Any bytes at the servers of a distributed job. The handlers of the JobTracker (`mapred/dist_job_tracker.h`) and of a shuffle
server (`mapred/task_tracker.h`) decode with readers that throw, as those of the NameNode do, and nothing catches: a message
without the fields of its method ends the process. A report has the fields of its task type, so here the format depends on
what is read.
-/
import MiniHadoop.Mapred.Duplicates
import MiniHadoop.Mapred.JobWire
import MiniHadoop.Ndfs.Malformed

namespace MiniHadoop.Mapred

open Text Wire Reading InputBuffer OutputBuffer Ipc
open Ndfs (Field skipBytes skipSized skipFields methodIdOf)

/-! ## Servers of readers -/

section Readers

variable {σ α : Type}

/-- A handler that reads a value and answers it. -/
def handlerOf (answer : σ → α → σ × Bytes) (r : Reader α) : RpcHandler σ := fun s req => do
  let (a, _) ← r req
  return answer s a

/-- The handlers of a server that has a reader for each method. -/
def handlersOf (readers : Int32 → Option (Reader α)) (answer : σ → α → σ × Bytes) : Handlers σ := fun methodId =>
  (readers methodId).map (handlerOf answer)

theorem handlerOf_ok {answer : σ → α → σ × Bytes} {r : Reader α} {req req' : InputBuffer} {a : α} (s : σ)
    (h : r req = .ok (a, req')) : handlerOf answer r s req = .ok (answer s a) := by
  unfold handlerOf
  rw [h]
  rfl

theorem handlerOf_error {answer : σ → α → σ × Bytes} {r : Reader α} {req : InputBuffer} {e : Throw} (s : σ)
    (h : r req = .error e) : handlerOf answer r s req = .error e := by
  unfold handlerOf
  rw [h]
  rfl

/-- The formats of the methods: each reader returns on the bodies that its format passes. -/
def FormatsOf (readers : Int32 → Option (Reader α)) (formats : Int32 → Option (Bytes → Option Bytes)) : Prop :=
  ∀ methodId, match readers methodId, formats methodId with
    | some r, some format => Accepts rest r format
    | none, none => True
    | _, _ => False

/-- The message has the fields of its method, if there is one. -/
def HasFields (formats : Int32 → Option (Bytes → Option Bytes)) (message : Bytes) : Prop :=
  ∀ format ∈ formats (methodIdOf message), (format (message.drop 4)).isSome = true

instance (formats : Int32 → Option (Bytes → Option Bytes)) (message : Bytes) : Decidable (HasFields formats message) :=
  inferInstanceAs (Decidable (∀ format ∈ formats (methodIdOf message), (format (message.drop 4)).isSome = true))

variable {readers : Int32 → Option (Reader α)} {formats : Int32 → Option (Bytes → Option Bytes)}
  {answer : σ → α → σ × Bytes}

/-- A message is answered exactly when it has the fields of its method. -/
theorem dispatch_handlersOf (h : FormatsOf readers formats) (s : σ) (msg : Buffer)
    (hlen : acceptLength msg.1.length = true) :
    (∃ out, dispatch (handlersOf readers answer) s msg = .ok out) ↔ HasFields formats msg.1 := by
  have hfour : 4 ≤ msg.1.length := (acceptLength_eq_true.1 hlen).1
  obtain ⟨req, hread, hrest⟩ : ∃ req, readInt (reset msg) = .ok (methodIdOf msg.1, req) ∧ req.rest = msg.1.drop 4 :=
    reads_field (by rw [List.length_take]; omega) rfl (reset msg) _ (List.take_append_drop 4 msg.1).symm
  have hmethod := h (methodIdOf msg.1)
  unfold HasFields
  cases hreader : readers (methodIdOf msg.1) with
  | none =>
    rw [hreader] at hmethod
    cases hformat : formats (methodIdOf msg.1) with
    | some format =>
      rw [hformat] at hmethod
      exact hmethod.elim
    | none =>
      rw [dispatch_unknown hread (by rw [handlersOf, hreader]; rfl)]
      exact ⟨fun _ format hmem => (by cases hmem), fun _ => ⟨_, rfl⟩⟩
  | some r =>
    rw [hreader] at hmethod
    cases hformat : formats (methodIdOf msg.1) with
    | none =>
      rw [hformat] at hmethod
      exact hmethod.elim
    | some format =>
      rw [hformat] at hmethod
      have hok := Accepts.isOk_iff hmethod req
      rw [hrest] at hok
      rw [dispatch_handler hread (by rw [handlersOf, hreader]; rfl)]
      constructor
      · rintro ⟨out, hout⟩ format' hmem
        cases hmem
        refine hok.1 ?_
        cases hr : r req with
        | error e =>
          rw [handlerOf_error s hr] at hout
          cases hout
        | ok p => exact ⟨p.1, p.2, rfl⟩
      · intro hfields
        obtain ⟨a, req', hr⟩ := hok.2 (hfields format rfl)
        exact ⟨answer s a, handlerOf_ok s hr⟩

/-- What every answer keeps, a connection keeps, whatever bytes it brings. -/
theorem connection_handlersOf {p : σ → Prop} (hkeeps : ∀ s a, p s → p (answer s a).1) (send : Nat → SendOutcome) {s : σ}
    (hs : p s) (input : Bytes) : p (handleConnection (handlersOf readers answer) send 0 s input).1 := by
  refine handleConnection_keeps (fun s msg s' resp hs hdispatch => ?_) send 0 hs input
  cases hread : readInt (reset msg) with
  | error e =>
    rw [dispatch, hread] at hdispatch
    cases hdispatch
  | ok out =>
    obtain ⟨methodId, req⟩ := out
    cases hreader : readers methodId with
    | none =>
      rw [dispatch_unknown hread (by rw [handlersOf, hreader]; rfl)] at hdispatch
      cases hdispatch
      exact hs
    | some r =>
      rw [dispatch_handler hread (by rw [handlersOf, hreader]; rfl)] at hdispatch
      cases hr : r req with
      | error e =>
        rw [handlerOf_error s hr] at hdispatch
        cases hdispatch
      | ok out =>
        rw [handlerOf_ok s hr] at hdispatch
        obtain rfl : (answer s out.1).1 = s' := congrArg Prod.fst (Except.ok.inj hdispatch)
        exact hkeeps s out.1 hs

end Readers

/-! ## The formats -/

/-- A report: the id of a task, its type, and the rest of the report of a map task. -/
def skipReport (input : Bytes) : Option Bytes :=
  (skipSized 1 input).bind fun rest =>
    (skipBytes 4 rest).bind fun rest' =>
      if beValue (rest.take 4) = 0 then skipFields [.int, .string, .int] rest' else some rest'

/-- The fields of the requests to a JobTracker. -/
def jobFormats (methodId : Int32) : Option (Bytes → Option Bytes) :=
  if methodId = 0 then some (skipFields [.string, .string, .int, .int])
  else if methodId = 1 then some (skipFields [.string, .int])
  else if methodId = 2 then some skipReport
  else none

/-- The fields of the requests to a shuffle server. -/
def shuffleFormats (methodId : Int32) : Option (Bytes → Option Bytes) :=
  if methodId = 0 then some (skipFields [.string, .int]) else none

/-- Four bytes spell the number zero exactly when they do as an `int32_t`. -/
theorem int32_of_bytes_eq_zero {n : Nat} (hn : n < 2 ^ 32) : (UInt32.ofNat n).toInt32 = 0 ↔ n = 0 := by
  constructor
  · intro h
    have hvalue : (UInt32.ofNat n).toInt32.toUInt32.toNat = n := by
      rw [UInt32.toUInt32_toInt32, UInt32.toNat_ofNat_of_lt' hn]
    rw [h] at hvalue
    exact hvalue.symm
  · rintro rfl
    rfl

/-- A field that says what follows it. -/
theorem accepts_report : Accepts rest readTaskCompleted skipReport := by
  refine Ndfs.accepts_string.bind fun taskId => ?_
  intro b
  by_cases h : 4 ≤ b.rest.length
  · have htake : (b.rest.take 4).length = 4 := by rw [List.length_take]; omega
    obtain ⟨b', hread, hrest⟩ : ∃ b', readInt b = .ok (methodIdOf b.rest, b') ∧ b'.rest = b.rest.drop 4 :=
      reads_field htake rfl b _ (List.take_append_drop 4 b.rest).symm
    have hskip : skipBytes 4 b.rest = some b'.rest := by rw [skipBytes, if_pos h, hrest]
    have hzero : methodIdOf b.rest = 0 ↔ beValue (b.rest.take 4) = 0 :=
      int32_of_bytes_eq_zero (by have := beValue_lt (b.rest.take 4); rwa [htake] at this)
    rw [bind_ok hread]
    simp only [hskip, Option.bind_some]
    by_cases hcode : methodIdOf b.rest = 0
    · rw [if_pos (hzero.1 hcode), TaskType.ofCode, if_pos hcode]
      have hmap : Accepts rest (readReport taskId .kMap) (skipFields [.int, .string, .int]) :=
        Ndfs.accepts_int.bind fun _ => Ndfs.accepts_string.bind fun _ => Ndfs.accepts_int.bind fun _ => Accepts.pure _
      exact hmap b'
    · rw [if_neg fun h0 => hcode (hzero.2 h0), TaskType.ofCode, if_neg hcode]
      exact .inl ⟨_, b', rfl, rfl⟩
  · rcases Ndfs.accepts_int b with ⟨a, b', -, hskip⟩ | ⟨e, hread, hskip⟩
    · rw [skipBytes, if_neg h] at hskip
      cases hskip
    · exact .inr ⟨e, bind_error hread, by simp only [hskip, Option.bind_none]⟩

theorem jobFormats_of : FormatsOf readMessage jobFormats := by
  intro methodId
  unfold readMessage jobFormats
  by_cases h0 : methodId = 0
  · rw [if_pos h0, if_pos h0]
    exact Ndfs.accepts_string.bind fun _ => Ndfs.accepts_string.bind fun _ => Ndfs.accepts_int.bind fun _ =>
      Ndfs.accepts_int.bind fun _ => Accepts.pure _
  rw [if_neg h0, if_neg h0]
  by_cases h1 : methodId = 1
  · rw [if_pos h1, if_pos h1]
    exact Ndfs.accepts_string.bind fun _ => Ndfs.accepts_int.bind fun _ => Accepts.pure _
  rw [if_neg h1, if_neg h1]
  by_cases h2 : methodId = 2
  · rw [if_pos h2, if_pos h2]
    exact accepts_report
  · rw [if_neg h2, if_neg h2]
    exact True.intro

/-- The reader of the shuffle server. -/
def shuffleReaders (methodId : Int32) : Option (Reader (Bytes × Int32)) :=
  if methodId = 0 then some readShuffleRequest else none

theorem shuffleFormats_of : FormatsOf shuffleReaders shuffleFormats := by
  intro methodId
  unfold shuffleReaders shuffleFormats
  by_cases h0 : methodId = 0
  · rw [if_pos h0, if_pos h0]
    exact Ndfs.accepts_string.bind fun _ => Ndfs.accepts_int.bind fun _ => Accepts.pure _
  · rw [if_neg h0, if_neg h0]
    exact True.intro

theorem shuffleHandlers_eq : MapOutputs.handlers =
    handlersOf shuffleReaders fun outputs request => (outputs, shuffleResponse (outputs.lookup request)) := by
  funext methodId
  unfold MapOutputs.handlers handlersOf shuffleReaders
  split <;> rfl

/-! ## Any bytes -/

theorem DistJobTracker.Reachable.handle {s : DistJobTracker} (hs : s.Reachable) (message : Message) :
    (s.handle message).1.Reachable := by
  cases message with
  | submitJob inputPath outputPath numMaps numReduces => exact hs.submitJob inputPath outputPath numMaps numReduces
  | pollForTask trackerHost trackerPort => exact hs.pollForTask
  | taskCompleted completion => exact hs.taskCompleted completion

/-- Whatever bytes arrive at a JobTracker, it is left in a state that its three handlers can reach; and the connection is
closed, instead of ending the process, exactly when every message has the fields of its method and the peer is still there
when a response is sent. Whatever arrives at a shuffle server, it keeps its outputs, and the same holds of its one
method. -/
theorem jobServers_any_bytes (send : Nat → SendOutcome) (input : Bytes) :
    (∀ s : DistJobTracker, s.Reachable →
      (handleConnection DistJobTracker.handlers send 0 s input).1.Reachable ∧
      ((handleConnection DistJobTracker.handlers send 0 s input).2 = .closed ↔
        (∀ msg ∈ messages send 0 input, HasFields jobFormats msg.1) ∧ ¬ Broken send 0 input)) ∧
    ∀ outputs : MapOutputs,
      (handleConnection MapOutputs.handlers send 0 outputs input).1 = outputs ∧
      ((handleConnection MapOutputs.handlers send 0 outputs input).2 = .closed ↔
        (∀ msg ∈ messages send 0 input, HasFields shuffleFormats msg.1) ∧ ¬ Broken send 0 input) := by
  refine ⟨fun s hs => ⟨?_, ?_⟩, fun outputs => ⟨?_, ?_⟩⟩
  · exact connection_handlersOf (fun s message hs => hs.handle message) send hs input
  · exact handleConnection_closed_iff (dispatch_handlersOf jobFormats_of) send 0 s input
  · rw [shuffleHandlers_eq]
    exact connection_handlersOf (p := (· = outputs)) (fun s _ hs => hs) send rfl input
  · rw [shuffleHandlers_eq]
    exact handleConnection_closed_iff (dispatch_handlersOf shuffleFormats_of) send 0 outputs input

end MiniHadoop.Mapred

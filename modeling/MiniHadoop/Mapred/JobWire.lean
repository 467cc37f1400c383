/-
A distributed job down to its bytes. The servers of the JobTracker (`mapred/dist_job_tracker.h`) and of the TaskTrackers
(`mapred/task_tracker.h`) decode their requests, and the trackers decode the responses. As long as no message is longer than
the servers and the length fields allow, the cluster whose processes exchange these bytes is, step by step, the cluster
whose messages are values.
-/
import Mathlib.Data.Fintype.Basic
import MiniHadoop.Ipc.RoundTrip
import MiniHadoop.Mapred.Assignments
import MiniHadoop.Mapred.Engines

namespace MiniHadoop.Mapred

open Text Wire Runs Reading InputBuffer OutputBuffer

/-! ## The server of the JobTracker -/

/-- What the handler of `SubmitJob` reads. -/
def readSubmitJob : Reader Message := do
  let inputPath ← readString
  let outputPath ← readString
  let numMaps ← readInt
  let numReduces ← readInt
  return .submitJob inputPath outputPath numMaps numReduces

/-- What the handler of `PollForTask` reads. -/
def readPollForTask : Reader Message := do
  let trackerHost ← readString
  let trackerPort ← readInt
  return .pollForTask trackerHost trackerPort

/-- The rest of a report, which only one of a map task has. -/
def readReport (taskId : Bytes) : TaskType → Reader Message
  | .kMap => do
    let numParts ← readInt
    let host ← readString
    let port ← readInt
    return .taskCompleted (.map taskId numParts host port)
  | .kReduce => return .taskCompleted (.reduce taskId)

/-- What the handler of `TaskCompleted` reads. -/
def readTaskCompleted : Reader Message := do
  let taskId ← readString
  let taskType ← readInt
  readReport taskId (TaskType.ofCode taskType)

/-- The first parts of the handlers. -/
def readMessage (methodId : Int32) : Option (Reader Message) :=
  if methodId = 0 then some readSubmitJob
  else if methodId = 1 then some readPollForTask
  else if methodId = 2 then some readTaskCompleted
  else none

/-- `handlers_` after `SetupHandlers`. -/
def DistJobTracker.handlers : Ipc.Handlers DistJobTracker := fun methodId =>
  (readMessage methodId).map fun r s req => do
    let (message, _) ← r req
    return s.handle message

/-! ## The shuffle server of a TaskTracker -/

/-- What the handler of the shuffle server reads. -/
def readShuffleRequest : Reader (Bytes × Int32) := do
  let taskId ← readString
  let partition ← readInt
  return (taskId, partition)

/-- `handlers_` of `shuffle_server_` after `SetupShuffleServer`. -/
def MapOutputs.handlers : Ipc.Handlers MapOutputs := fun methodId =>
  if methodId = 0 then some fun outputs req => do
    let ((taskId, partition), _) ← readShuffleRequest req
    return (outputs, shuffleResponse (outputs.lookup (taskId, partition)))
  else none

/-! ## Requests -/

/-- What is sent for a job, after the method id. -/
def submitRequest (inputPath outputPath : Bytes) (numMaps numReduces : Int32) : Bytes :=
  writeString inputPath ++ (writeString outputPath ++ (writeInt numMaps ++ writeInt numReduces))

/-- The request of `PollLoop`. -/
def pollRequest (host : Bytes) (shufflePort : Int32) : Bytes := writeString host ++ writeInt shufflePort

/-- The request of `ReportTaskComplete`. -/
def reportRequest : Completion → Bytes
  | .map taskId numParts host port =>
    writeString taskId ++ (writeInt TaskType.kMap.code ++ (writeInt numParts ++ (writeString host ++ writeInt port)))
  | .reduce taskId => writeString taskId ++ writeInt TaskType.kReduce.code

/-- The request of `ExecuteReduceTask` to a shuffle server. -/
def shuffleRequest (loc : MapOutputLocation) : Bytes := writeString loc.taskId ++ writeInt loc.partition

/-! ## The cluster -/

variable {ι : Type}

namespace Cluster

/-- A request for the output of a map task, and what is read of the response. -/
def fetchBytes (env : Setup ι) (s : Cluster ι) (loc : MapOutputLocation) : Except Throw Fetch :=
  match env.listener loc.host loc.port with
  | none => .ok .noConnection
  | some tracker =>
    match (Ipc.exchange MapOutputs.handlers (s.outputs tracker) ⟨0, shuffleRequest loc⟩).2 with
    | none => .ok .callFailed
    | some response => Ipc.decode readShuffle response

/-- The loop of `ExecuteReduceTask`, which an exception ends. -/
def gatherBytes (fetch : MapOutputLocation → Except Throw Fetch) (partition : Int32) :
    List MapOutputLocation → Except Throw (List Record)
  | [] => .ok []
  | loc :: rest =>
    if loc.partition ≠ partition then gatherBytes fetch partition rest
    else do
      let got ← fetch loc
      let others ← gatherBytes fetch partition rest
      match got with
      | .found records => return records ++ others
      | _ => return others

variable [DecidableEq ι]

/-- The thread `j` executes its task. -/
def executeBytes (env : Setup ι) (s : Cluster ι) (j : Nat) (th : Thread ι) : Except Throw (Cluster ι) :=
  match th.task.type with
  | .kMap => return s.execute env j th
  | .kReduce => do
    let s := s.setPhase j th .executed
    let records ← gatherBytes (s.fetchBytes env) th.task.partition th.task.mapOutputs
    return { s with
      files := s.files.insert th.task.outputPath
        (outputText (env.reducer.reduceAll env.reducer.fresh (groupRuns (sortRecords records)))) }

/-- A step of the processes; an exception ends the one it happens in. -/
def stepBytes (env : Setup ι) (s : Cluster ι) : Event ι → Except Throw (Cluster ι)
  | .submit inputPath outputPath numMaps numReduces =>
    return { s with
      jobTracker := (Ipc.exchange DistJobTracker.handlers s.jobTracker
        ⟨0, submitRequest inputPath outputPath numMaps numReduces⟩).1 }
  | .poll tracker =>
    match Ipc.exchange DistJobTracker.handlers s.jobTracker
        ⟨1, pollRequest (env.host tracker) (env.shufflePort tracker)⟩ with
    | (jobTracker, none) => return { s with jobTracker }
    | (jobTracker, some response) => do
      match ← Ipc.decode readTask response with
      | none => return { s with jobTracker }
      | some task => return { s with jobTracker, threads := s.threads ++ [⟨tracker, task, .assigned⟩] }
  | .execute j =>
    match s.threads[j]? with
    | some th => if th.phase = .assigned then s.executeBytes env j th else return s
    | none => return s
  | .prepare j => return s.step env (.prepare j)
  | .deliver j =>
    match s.threads[j]? with
    | some th =>
      match th.phase with
      | .reporting message =>
        return { s.setPhase j th .reported with
          jobTracker := (Ipc.exchange DistJobTracker.handlers s.jobTracker ⟨2, reportRequest message⟩).1 }
      | _ => return s
    | none => return s

end Cluster

/-! ## Limits -/

/-- A request is no longer than the servers accept, with its method id. -/
def RequestFits (req : Bytes) : Prop := 4 + req.length ≤ 64 * 1024 * 1024

/-- The length of a response can be written. -/
def ResponseFits (response : Bytes) : Prop := response.length < 2 ^ 31

/-- The messages of a step keep within the limits. -/
def Event.Fits (env : Setup ι) (s : Cluster ι) : Event ι → Prop
  | .submit inputPath outputPath numMaps numReduces => RequestFits (submitRequest inputPath outputPath numMaps numReduces)
  | .poll tracker =>
    RequestFits (pollRequest (env.host tracker) (env.shufflePort tracker)) ∧
      ResponseFits (pollResponse s.jobTracker.pollForTask.2)
  | .execute j =>
    ∀ th ∈ s.threads[j]?, ∀ loc ∈ th.task.mapOutputs, RequestFits (shuffleRequest loc) ∧
      ∀ tracker, ResponseFits (shuffleResponse ((s.outputs tracker).lookup (loc.taskId, loc.partition)))
  | .prepare _ => True
  | .deliver j =>
    ∀ th ∈ s.threads[j]?, match th.phase with
      | .reporting message => RequestFits (reportRequest message)
      | _ => True

instance (req : Bytes) : Decidable (RequestFits req) := inferInstanceAs (Decidable (_ ≤ _))

instance (response : Bytes) : Decidable (ResponseFits response) := inferInstanceAs (Decidable (_ < _))

instance [Fintype ι] (env : Setup ι) (s : Cluster ι) : (e : Event ι) → Decidable (e.Fits env s)
  | .submit inputPath outputPath numMaps numReduces =>
    inferInstanceAs (Decidable (RequestFits (submitRequest inputPath outputPath numMaps numReduces)))
  | .poll tracker =>
    inferInstanceAs (Decidable (RequestFits (pollRequest (env.host tracker) (env.shufflePort tracker)) ∧
      ResponseFits (pollResponse s.jobTracker.pollForTask.2)))
  | .execute j =>
    inferInstanceAs (Decidable (∀ th ∈ s.threads[j]?, ∀ loc ∈ th.task.mapOutputs, RequestFits (shuffleRequest loc) ∧
      ∀ tracker, ResponseFits (shuffleResponse ((s.outputs tracker).lookup (loc.taskId, loc.partition)))))
  | .prepare _ => isTrue True.intro
  | .deliver j =>
    @Option.decidableForallMem _ _ (fun th => match th.phase with
      | .reporting message => inferInstanceAs (Decidable (RequestFits (reportRequest message)))
      | .assigned => isTrue True.intro
      | .executed => isTrue True.intro
      | .reported => isTrue True.intro) (s.threads[j]?)

/-! ## Reading -/

theorem sized_of_request {x req : Bytes} (h : RequestFits req) (hx : x.length ≤ req.length) : x.length < 2 ^ 31 := by
  unfold RequestFits at h
  omega

theorem reads_submitRequest {inputPath outputPath : Bytes} {numMaps numReduces : Int32}
    (h : RequestFits (submitRequest inputPath outputPath numMaps numReduces)) :
    Reads rest readSubmitJob (submitRequest inputPath outputPath numMaps numReduces)
      (.submitJob inputPath outputPath numMaps numReduces) := by
  have hin : inputPath.length < 2 ^ 31 := sized_of_request h (by
    simp only [submitRequest, List.length_append, Ipc.length_writeString]; omega)
  have hout : outputPath.length < 2 ^ 31 := sized_of_request h (by
    simp only [submitRequest, List.length_append, Ipc.length_writeString]; omega)
  exact (reads_string hin).bind ((reads_string hout).bind ((reads_int numMaps).bind
    ((reads_int numReduces).last (Message.submitJob inputPath outputPath numMaps))))

theorem reads_pollRequest {host : Bytes} {port : Int32} (h : RequestFits (pollRequest host port)) :
    Reads rest readPollForTask (pollRequest host port) (.pollForTask host port) := by
  have hhost : host.length < 2 ^ 31 := sized_of_request h (by
    simp only [pollRequest, List.length_append, Ipc.length_writeString]; omega)
  exact (reads_string hhost).bind ((reads_int port).last (Message.pollForTask host))

theorem reads_reportRequest {c : Completion} (h : RequestFits (reportRequest c)) :
    Reads rest readTaskCompleted (reportRequest c) (.taskCompleted c) := by
  cases c with
  | map taskId numParts host port =>
    have hid : taskId.length < 2 ^ 31 := sized_of_request h (by
      simp only [reportRequest, List.length_append, Ipc.length_writeString]; omega)
    have hhost : host.length < 2 ^ 31 := sized_of_request h (by
      simp only [reportRequest, List.length_append, Ipc.length_writeString]; omega)
    exact (reads_string hid).bind ((reads_int TaskType.kMap.code).bind ((reads_int numParts).bind
      ((reads_string hhost).bind ((reads_int port).last fun port => Message.taskCompleted (.map taskId numParts host port)))))
  | reduce taskId =>
    have hid : taskId.length < 2 ^ 31 := sized_of_request h (by
      simp only [reportRequest, List.length_append, Ipc.length_writeString]; omega)
    refine (reads_string hid).bind ?_
    rw [← List.append_nil (writeInt _)]
    exact (reads_int TaskType.kReduce.code).bind (Reads.pure _)

theorem reads_shuffleRequest {loc : MapOutputLocation} (h : RequestFits (shuffleRequest loc)) :
    Reads rest readShuffleRequest (shuffleRequest loc) (loc.taskId, loc.partition) := by
  have hid : loc.taskId.length < 2 ^ 31 := sized_of_request h (by
    simp only [shuffleRequest, List.length_append, Ipc.length_writeString]; omega)
  exact (reads_string hid).bind ((reads_int loc.partition).last fun partition => (loc.taskId, partition))

/-! ## Calls -/

/-- A request that a handler of the JobTracker decodes is handled as the message it stands for. -/
theorem exchange_jobTracker (s : DistJobTracker) (methodId : Int32) {r : Reader Message} {req : Bytes} {message : Message}
    (hmethod : readMessage methodId = some r) (hread : Reads rest r req message) (hreq : RequestFits req)
    (hresponse : ResponseFits (s.handle message).2) :
    Ipc.exchange DistJobTracker.handlers s ⟨methodId, req⟩ = ((s.handle message).1, some (s.handle message).2) := by
  have hhandler : DistJobTracker.handlers methodId = some fun s req => do
      let (message, _) ← r req
      return s.handle message := by
    rw [DistJobTracker.handlers, hmethod]
    rfl
  exact @Ipc.exchange_reads _ DistJobTracker.handlers s ⟨methodId, req⟩ _ r DistJobTracker.handle message hreq hhandler
    hread hresponse

theorem ack_fits : ResponseFits ack := by
  unfold ResponseFits
  decide

/-- The shuffle server answers a request with the records it holds, and keeps them. -/
theorem exchange_shuffle (outputs : MapOutputs) {loc : MapOutputLocation} (hreq : RequestFits (shuffleRequest loc))
    (hresponse : ResponseFits (shuffleResponse (outputs.lookup (loc.taskId, loc.partition)))) :
    Ipc.exchange MapOutputs.handlers outputs ⟨0, shuffleRequest loc⟩ =
      (outputs, some (shuffleResponse (outputs.lookup (loc.taskId, loc.partition)))) :=
  @Ipc.exchange_reads _ MapOutputs.handlers outputs ⟨0, shuffleRequest loc⟩ _ readShuffleRequest
    (fun outputs request => (outputs, shuffleResponse (outputs.lookup request))) (loc.taskId, loc.partition) hreq rfl
    (reads_shuffleRequest hreq) hresponse

theorem length_writeLocation (loc : MapOutputLocation) :
    loc.write.length = loc.taskId.length + loc.host.length + 16 := by
  simp only [MapOutputLocation.write, List.length_append, Ipc.length_writeString, length_writeInt]
  omega

/-- What fits into the response to a poll is read back from it. -/
theorem reads_pollResponse {a : Option Assignment} (h : ResponseFits (pollResponse a)) :
    Reads rest readTask (pollResponse a) (a.map Assignment.task) := by
  cases a with
  | none =>
    rw [← List.append_nil (pollResponse none)]
    exact (reads_int 0).bind (Reads.pure none)
  | some a =>
    obtain ⟨taskId, type, partition, inputPath, outputPath, mapOutputs⟩ := a
    unfold ResponseFits at h
    simp only [pollResponse, Assignment.write, List.length_append, Ipc.length_writeString, length_writeInt] at h
    have hid : taskId.length < 2 ^ 31 := by omega
    have hin : inputPath.length < 2 ^ 31 := by omega
    have hout : outputPath.length < 2 ^ 31 := by omega
    cases type with
    | kMap => exact reads_task .kMap partition hid (reads_mapTask hin hout)
    | kReduce =>
      dsimp only at h
      rw [List.length_append, length_writeInt] at h
      obtain ⟨hcount, hlocs⟩ := @Ipc.counted_size _ MapOutputLocation.write mapOutputs fun loc _ => by
        rw [length_writeLocation]
        omega
      have hlen : mapOutputs.length = (Int32.ofNat mapOutputs.length).toNatClampNeg :=
        ((int32_ofNat_size (by omega)).2).symm
      refine reads_task .kReduce partition hid (reads_reduceTask hin hout hlen fun loc hloc => ?_)
      have hone := hlocs loc hloc
      rw [length_writeLocation] at hone
      exact ⟨by omega, by omega⟩

/-- So are the records of a shuffle server. -/
theorem reads_shuffle {outputs : MapOutputs} {taskId : Bytes} {partition : Int32}
    (h : ResponseFits (shuffleResponse (outputs.lookup (taskId, partition)))) :
    Reads rest readShuffle (shuffleResponse (outputs.lookup (taskId, partition)))
      (serveShuffle outputs taskId partition) := by
  refine reads_shuffleResponse outputs taskId partition fun records hrecords => ?_
  rw [Option.mem_def.1 hrecords] at h
  unfold ResponseFits at h
  simp only [shuffleResponse, List.length_append, length_writeInt] at h
  obtain ⟨hcount, hmem⟩ := @Ipc.counted_size Record (fun r => writeString r.1 ++ writeLong r.2) records fun r _ => by
    rw [List.length_append, Ipc.length_writeLong]
    omega
  refine ⟨by omega, fun r hr => ?_⟩
  have hone := hmem r hr
  rw [List.length_append, Ipc.length_writeString] at hone
  omega

/-! ## Steps -/

section Steps

variable {env : Setup ι} {s : Cluster ι}

theorem fetchBytes_eq {loc : MapOutputLocation} (hreq : RequestFits (shuffleRequest loc))
    (hresponse : ∀ tracker, ResponseFits (shuffleResponse ((s.outputs tracker).lookup (loc.taskId, loc.partition)))) :
    s.fetchBytes env loc = .ok (s.fetch env loc) := by
  unfold Cluster.fetchBytes Cluster.fetch
  cases env.listener loc.host loc.port with
  | none => rfl
  | some tracker =>
    have hcall := exchange_shuffle (s.outputs tracker) hreq (hresponse tracker)
    have hdecode := Ipc.decode_reads (reads_shuffle (hresponse tracker)) (hresponse tracker)
    dsimp only
    rw [hcall]
    exact hdecode

/-- Requests that all return gather what they return. -/
theorem gatherBytes_eq {fetch : MapOutputLocation → Fetch} {fetch' : MapOutputLocation → Except Throw Fetch}
    (partition : Int32) : ∀ {locs : List MapOutputLocation}, (∀ loc ∈ locs, fetch' loc = .ok (fetch loc)) →
      Cluster.gatherBytes fetch' partition locs = .ok (gather fetch partition locs)
  | [], _ => rfl
  | loc :: rest, h => by
    have ih := @gatherBytes_eq fetch fetch' partition rest fun loc hloc => h loc (List.mem_cons_of_mem _ hloc)
    have hone := h loc (List.mem_cons_self ..)
    unfold Cluster.gatherBytes gather
    by_cases hpart : loc.partition ≠ partition
    · rw [if_pos hpart, if_pos hpart, ih]
    · rw [if_neg hpart, if_neg hpart, hone, ih]
      cases fetch loc <;> rfl

variable [DecidableEq ι]

theorem executeBytes_eq {j : Nat} {th : Thread ι}
    (h : ∀ loc ∈ th.task.mapOutputs, RequestFits (shuffleRequest loc) ∧
      ∀ tracker, ResponseFits (shuffleResponse ((s.outputs tracker).lookup (loc.taskId, loc.partition)))) :
    s.executeBytes env j th = .ok (s.execute env j th) := by
  unfold Cluster.executeBytes
  cases htype : th.task.type with
  | kMap => rfl
  | kReduce =>
    have hgather := @gatherBytes_eq ((s.setPhase j th .executed).fetch env)
      ((s.setPhase j th .executed).fetchBytes env) th.task.partition th.task.mapOutputs fun loc hloc =>
        fetchBytes_eq (h loc hloc).1 (h loc hloc).2
    dsimp only
    rw [hgather]
    unfold Cluster.execute
    rw [htype]
    rfl

/-- A step whose messages keep within the limits throws nothing, and is the step of the cluster whose messages are
values. -/
theorem stepBytes_eq {e : Event ι} (h : e.Fits env s) : s.stepBytes env e = .ok (s.step env e) := by
  cases e with
  | submit inputPath outputPath numMaps numReduces =>
    have hcall := exchange_jobTracker s.jobTracker 0 rfl (reads_submitRequest h) h ack_fits
    unfold Cluster.stepBytes
    dsimp only
    rw [hcall]
    rfl
  | poll tracker =>
    have hcall := exchange_jobTracker s.jobTracker 1 rfl (reads_pollRequest h.1) h.1 h.2
    have hdecode := Ipc.decode_reads (reads_pollResponse h.2) h.2
    unfold Cluster.stepBytes Cluster.step
    dsimp only
    rw [hcall]
    dsimp only [DistJobTracker.handle]
    rw [hdecode]
    rcases s.jobTracker.pollForTask with ⟨jobTracker, _ | a⟩ <;> rfl
  | execute j =>
    unfold Cluster.stepBytes Cluster.step
    dsimp only
    cases hth : s.threads[j]? with
    | none => rfl
    | some th =>
      dsimp only
      by_cases hphase : th.phase = .assigned
      · rw [if_pos hphase, if_pos hphase]
        exact executeBytes_eq (h th hth)
      · rw [if_neg hphase, if_neg hphase]
        rfl
  | prepare j => rfl
  | deliver j =>
    unfold Cluster.stepBytes Cluster.step
    dsimp only
    cases hth : s.threads[j]? with
    | none => rfl
    | some th =>
      dsimp only
      cases hphase : th.phase with
      | reporting message =>
        have hreq := h th hth
        rw [hphase] at hreq
        have hcall := exchange_jobTracker s.jobTracker 2 rfl (reads_reportRequest hreq) hreq ack_fits
        dsimp only
        rw [hcall]
        rfl
      | assigned => rfl
      | executed => rfl
      | reported => rfl

end Steps

/-! ## Runs -/

section Runs

variable [DecidableEq ι] {env : Setup ι} {s s' : Cluster ι} {es : List (Event ι)}

/-- The messages of every step of a run keep within the limits. -/
def RunFits (env : Setup ι) : Cluster ι → List (Event ι) → Prop
  | _, [] => True
  | s, e :: es => e.Fits env s ∧ RunFits env (s.step env e) es

instance RunFits.decidable [Fintype ι] (env : Setup ι) :
    (s : Cluster ι) → (es : List (Event ι)) → Decidable (RunFits env s es)
  | _, [] => isTrue True.intro
  | s, e :: es => @instDecidableAnd _ _ _ (RunFits.decidable env (s.step env e) es)

/-- Any interleaving of the processes of a job (submissions, polls of any tracker, tasks that are executed, reports
prepared and delivered) goes on the wire as it does with values, and no process throws on a message. -/
theorem runBytes_eq (h : RunFits env s es) :
    es.foldlM (Cluster.stepBytes env) s = .ok (es.foldl (Cluster.step env) s) := by
  induction es generalizing s with
  | nil => rfl
  | cons e es ih =>
    obtain ⟨hfits, hrest⟩ := h
    rw [List.foldlM_cons, List.foldl_cons, stepBytes_eq hfits]
    exact ih hrest

/-- A step of the processes that returns, and whose messages keep within the limits. -/
def JobStep (env : Setup ι) (s : Cluster ι) (e : Event ι) (s' : Cluster ι) : Prop :=
  e.Fits env s ∧ s.stepBytes env e = .ok s'

/-- A run of such steps is a run with values. -/
theorem eq_of_run (h : Run (JobStep env) s es s') : s' = after (Cluster.step env) s es := by
  induction h with
  | nil => rfl
  | snoc _ hstep ih =>
    obtain ⟨hfits, hstep⟩ := hstep
    rw [stepBytes_eq hfits] at hstep
    rw [after_snoc, ← ih]
    exact (Except.ok.inj hstep).symm

/-- A run whose messages keep within the limits goes on the wire. -/
theorem run_of_fits : ∀ {s' : Cluster ι} {es es' : List (Event ι)}, Run (JobStep env) s es s' → RunFits env s' es' →
    Run (JobStep env) s (es ++ es') (after (Cluster.step env) s' es')
  | _, _, [], h, _ => by
    rw [List.append_nil]
    exact h
  | s', es, e :: es', h, hfits => by
    rw [List.append_cons]
    exact run_of_fits (h.snoc ⟨hfits.1, stepBytes_eq hfits.1⟩) hfits.2

end Runs

/-- One tracker executes the map task of a job and reports it, the other one fetches its output and reduces it. -/
theorem runBytes_oneAfterOther :
    (Event.submit (bytes "in") (bytes "out") 1 1 :: oneAfterOther).foldlM (Cluster.stepBytes Cluster.countLines)
        { files := Cluster.oneLine } =
      .ok ((Event.submit (bytes "in") (bytes "out") 1 1 :: oneAfterOther).foldl (Cluster.step Cluster.countLines)
        { files := Cluster.oneLine }) :=
  runBytes_eq (by decide +kernel)

end MiniHadoop.Mapred

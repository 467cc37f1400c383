/-
The threads of a cluster are the tasks its JobTracker has handed out: every state of a cluster is followed by a state of
a session, with the same JobTracker. So all that is known of sessions holds of clusters. For a single job: no two
threads have the same task, and when there is a thread with a reduce task, all map tasks have been reported and the
thread has the locations of all of them.
-/
import MiniHadoop.Mapred.Scheduling

namespace MiniHadoop.Mapred

open Text Runs

variable {ι : Type} {env : Setup ι} {c : Cluster ι} {s : Session}

theorem reportTaskComplete_task (host : Bytes) (port : Int32) (outputs : MapOutputs) (a : Assignment) :
    reportTaskComplete host port outputs a.task =
      a.completion (Int32.ofNat (outputs.keys.map (·.2)).dedup.length) host port := by
  unfold reportTaskComplete Assignment.completion Assignment.task
  cases htype : a.type <;> simp

@[simp] theorem Assignment.taskId_task (a : Assignment) : a.task.taskId = a.taskId := by
  unfold task
  cases a.type <;> rfl

@[simp] theorem Assignment.type_task (a : Assignment) : a.task.type = a.type := by
  unfold task
  cases a.type <;> rfl

/-! ## The relation -/

/-- The session has the JobTracker of the cluster, and has handed out the tasks of its threads; what a thread is about to
report is what its tracker says of its task. -/
structure Follows (env : Setup ι) (c : Cluster ι) (s : Session) : Prop where
  jobTracker : s.jobTracker = c.jobTracker
  threads : c.threads.map (fun th => (th.task, decide (th.phase = .reported))) =
    s.handedOut.map fun o => (o.assignment.task, o.reported)
  messages : ∀ th ∈ c.threads, ∀ message, th.phase = .reporting message →
    ∃ outputs, message = reportTaskComplete (env.host th.tracker) (env.shufflePort th.tracker) outputs th.task

namespace Follows

/-- The task of a thread was handed out. -/
theorem handedOut (h : Follows env c s) {j : Nat} {th : Thread ι} (hj : c.threads[j]? = some th) :
    ∃ o, s.handedOut[j]? = some o ∧ o.assignment.task = th.task ∧ (o.reported = true ↔ th.phase = .reported) := by
  have hget := congrArg (·[j]?) h.threads
  simp only [List.getElem?_map, hj, Option.map_some] at hget
  obtain ⟨o, ho, heq⟩ := Option.map_eq_some_iff.1 hget.symm
  have hreported := congrArg Prod.snd heq
  refine ⟨o, ho, congrArg Prod.fst heq, ?_⟩
  rw [show o.reported = decide (th.phase = .reported) from hreported, decide_eq_true_eq]

/-- A thread moves on without a message to the JobTracker. -/
theorem setPhase (h : Follows env c s) {j : Nat} {th : Thread ι} {phase : Phase} (hj : c.threads[j]? = some th)
    (hold : th.phase ≠ .reported) (hnew : phase ≠ .reported)
    (hmessage : ∀ message, phase = .reporting message →
      ∃ outputs, message = reportTaskComplete (env.host th.tracker) (env.shufflePort th.tracker) outputs th.task) :
    Follows env (c.setPhase j th phase) s where
  jobTracker := h.jobTracker
  threads := by
    obtain ⟨hlt, hth⟩ := List.getElem?_eq_some_iff.1 hj
    rw [← h.threads, Cluster.setPhase, List.map_set, decide_eq_false hnew, ← decide_eq_false hold]
    have hself := @List.set_getElem_self _ (c.threads.map fun th => (th.task, decide (th.phase = .reported))) j
      (by rw [List.length_map]; exact hlt)
    rw [List.getElem_map, hth] at hself
    exact hself
  messages := by
    intro th' hth'
    rcases List.mem_or_eq_of_mem_set hth' with hmem | rfl
    · exact h.messages th' hmem
    · exact hmessage

/-- A report arrives at both. -/
theorem deliver (h : Follows env c s) {j : Nat} {th : Thread ι} {message : Completion}
    (hj : c.threads[j]? = some th) (hp : th.phase = .reporting message) :
    ∃ numParts host port, Follows env { c.setPhase j th .reported with jobTracker := c.jobTracker.taskCompleted message }
      (s.step (.report j numParts host port)) := by
  obtain ⟨o, ho, htask, hreported⟩ := h.handedOut hj
  obtain ⟨outputs, rfl⟩ := h.messages th (List.mem_of_getElem? hj) message hp
  have hnew : ¬ o.reported = true := by
    rw [hreported, hp]
    simp
  refine ⟨Int32.ofNat (outputs.keys.map (·.2)).dedup.length, env.host th.tracker, env.shufflePort th.tracker, ?_⟩
  rw [Session.step, ho]
  simp only [hnew, if_false, Bool.false_eq_true]
  rw [← htask, reportTaskComplete_task]
  constructor
  · rw [Session.receive, h.jobTracker]
  · rw [Cluster.setPhase, Session.receive, List.map_set, List.map_set, h.threads, htask]
    simp
  · intro th' hth'
    rcases List.mem_or_eq_of_mem_set hth' with hmem | rfl
    · exact h.messages th' hmem
    · intro message hmessage
      cases hmessage

variable [DecidableEq ι]

theorem poll (h : Follows env c s) (tracker : ι) : Follows env (c.step env (.poll tracker)) (s.step .poll) := by
  rcases hpoll : c.jobTracker.pollForTask with ⟨t, a⟩
  simp only [Cluster.step, Session.step, h.jobTracker, hpoll]
  cases a with
  | some a =>
    refine ⟨rfl, ?_, ?_⟩
    · show (c.threads ++ [_]).map _ = (s.handedOut ++ [_]).map _
      rw [List.map_append, List.map_append, h.threads]
      rfl
    · intro th hth
      rcases List.mem_append.1 hth with hth | hth
      · exact h.messages th hth
      · intro message hmessage
        rw [List.mem_singleton.1 hth] at hmessage
        cases hmessage
  | none => exact ⟨rfl, h.threads, h.messages⟩

theorem execute (h : Follows env c s) {j : Nat} {th : Thread ι} (hj : c.threads[j]? = some th)
    (hp : th.phase = .assigned) : Follows env (c.execute env j th) s := by
  have hset : Follows env (c.setPhase j th .executed) s :=
    h.setPhase hj (by rw [hp]; simp) (by simp) (by simp)
  unfold Cluster.execute
  cases th.task.type with
  | kMap => exact ⟨hset.jobTracker, hset.threads, hset.messages⟩
  | kReduce => exact ⟨hset.jobTracker, hset.threads, hset.messages⟩

/-- Every step of the cluster but a submission is no step of the session, or one that is no submission either. -/
theorem step (h : Follows env c s) {e : Event ι} (he : e.isSubmit = false) :
    Follows env (c.step env e) s ∨ ∃ e', e'.isSubmit = false ∧ Follows env (c.step env e) (s.step e') := by
  rcases c.step_cases env he with ⟨hstep, -⟩ | ⟨tracker, t, a, rfl, -, -⟩ | ⟨tracker, t, rfl, -, -⟩ |
    ⟨j, th, rfl, hj, hp, hstep⟩ | ⟨j, th, rfl, hj, hp, hstep⟩ | ⟨j, th, message, rfl, hj, hp, hstep⟩
  · rw [hstep]; exact .inl h
  · exact .inr ⟨.poll, rfl, h.poll tracker⟩
  · exact .inr ⟨.poll, rfl, h.poll tracker⟩
  · rw [hstep]; exact .inl (h.execute hj hp)
  · rw [hstep]
    refine .inl (h.setPhase hj (by rw [hp]; simp) (by simp) fun message hmessage => ?_)
    cases hmessage
    exact ⟨_, rfl⟩
  · rw [hstep]
    obtain ⟨numParts, host, port, hdelivered⟩ := h.deliver hj hp
    exact .inr ⟨.report j numParts host port, rfl, hdelivered⟩

end Follows

/-! ## A single job -/

section SingleJob

variable {inputPath outputPath : Bytes} {numMaps numReduces : Int32} {th : Thread ι}

/-- A cluster with a single job. -/
def OneJob (env : Setup ι) (inputPath outputPath : Bytes) (numMaps numReduces : Int32) (c : Cluster ι) : Prop :=
  ∃ s, Single (bytes "job_001", inputPath, outputPath, numMaps, numReduces) s ∧ Follows env c s

namespace OneJob

variable (h : OneJob env inputPath outputPath numMaps numReduces c)

include h

/-- The arguments of the submission. -/
theorem job : c.jobTracker.job = (bytes "job_001", inputPath, outputPath, numMaps, numReduces) := by
  obtain ⟨s, hs, hf⟩ := h
  rw [← hf.jobTracker]
  exact hs.job

/-- The tasks of the threads, in the order in which they were handed out. -/
theorem map_task : ∃ p, c.threads.map (·.task) = (c.jobTracker.plan p 0).map Assignment.task := by
  obtain ⟨s, hs, hf⟩ := h
  obtain ⟨p, hc⟩ := hs.current
  have htasks := congrArg (List.map Prod.fst) hf.threads
  rw [List.map_map, List.map_map] at htasks
  refine ⟨p, ?_⟩
  rw [← hf.jobTracker, ← hs.sole.assignments.symm.trans hc.assignments, List.map_map]
  exact htasks

theorem nodup_taskId : (c.threads.map (·.task.taskId)).Nodup := by
  obtain ⟨s, hs, hf⟩ := h
  have hids := congrArg (List.map fun x : Task × Bool => x.1.taskId) hf.threads
  rw [List.map_map, List.map_map] at hids
  rw [show c.threads.map (·.task.taskId) = s.handedOut.map (·.assignment.taskId) from hids.trans
    (List.map_congr_left fun o _ => o.assignment.taskId_task)]
  exact hs.nodup_taskId

/-- A message is of the kind of its task. -/
theorem message_type {message : Completion} (hth : th ∈ c.threads) (hp : th.phase = .reporting message) :
    message.type = th.task.type := by
  obtain ⟨s, -, hf⟩ := h
  obtain ⟨outputs, rfl⟩ := hf.messages th hth message hp
  exact type_reportTaskComplete ..

/-- Threads with tasks of the same id are the same. -/
theorem thread_unique {th th' : Thread ι} (hth : th ∈ c.threads) (hth' : th' ∈ c.threads)
    (hid : th.task.taskId = th'.task.taskId) : th = th' :=
  List.inj_on_of_nodup_map h.nodup_taskId hth hth' hid

/-- A thread with a reduce task: it has the locations of all map tasks. -/
theorem reduce_thread (hth : th ∈ c.threads) (htype : th.task.type = .kReduce) :
    numMaps.toInt ≤ c.jobTracker.mapsCompleted ∧
      ∃ r < numReduces.toNatClampNeg, th.task.taskId = reduceTaskId r ∧ th.task.partition = Int32.ofNat r ∧
        th.task.outputPath = outputPath ∧ th.task.mapOutputs = c.jobTracker.mapOutputLocations := by
  have hjob := h.job
  obtain ⟨hid, -, hout, -, -⟩ := DistJobTracker.job_parts hjob
  obtain ⟨p, htasks⟩ := h.map_task
  have hmem : th.task ∈ (c.jobTracker.plan p 0).map Assignment.task := by
    rw [← htasks]
    exact List.mem_map_of_mem hth
  obtain ⟨a, ha, heq⟩ := List.mem_map.1 hmem
  have hatype : a.type = .kReduce := by
    rw [← heq, Assignment.type_task] at htype
    exact htype
  have hfilter : a ∈ (c.jobTracker.plan p 0).filter (fun a => a.type = .kReduce) :=
    List.mem_filter.2 ⟨ha, by simp [hatype]⟩
  rw [DistJobTracker.filter_plan_kReduce] at hfilter
  obtain ⟨r, hr, rfl⟩ := List.mem_map.1 hfilter
  rw [List.mem_range'_1] at hr
  obtain ⟨s, hs, hf⟩ := h
  obtain ⟨p', hc⟩ := hs.current
  obtain ⟨-, -, -, hmaps, hreduces⟩ := DistJobTracker.job_parts hs.job
  have hcreated := hc.created.2
  have hbarrier := hc.barrier
  rw [hreduces, hf.jobTracker] at hcreated
  rw [hmaps, hf.jobTracker] at hbarrier
  refine ⟨hbarrier (by omega), r, by omega, ?_⟩
  rw [← heq]
  refine ⟨?_, rfl, hout, rfl⟩
  show c.jobTracker.jobId ++ _ ++ _ = _
  rw [hid]
  rfl

/-- When the counter says that all map tasks have been reported, there is a thread for each, and it has been. -/
theorem maps_reported (hdone : numMaps.toInt ≤ c.jobTracker.mapsCompleted) :
    ((c.threads.filter Thread.isMap).map (·.task.taskId)).Perm ((List.range numMaps.toNatClampNeg).map mapTaskId) ∧
      ∀ th ∈ c.threads, th.task.type = .kMap → th.phase = .reported := by
  obtain ⟨s, hs, hf⟩ := h
  obtain ⟨p, hc⟩ := hs.current
  obtain ⟨-, -, -, hmaps, -⟩ := DistJobTracker.job_parts hs.job
  rw [← hmaps, ← hf.jobTracker] at hdone
  obtain ⟨rfl, hall⟩ := hc.maps_reported hdone
  refine ⟨?_, fun th hth htype => ?_⟩
  · have hids := congrArg (fun l => (l.filter fun x : Task × Bool => x.1.type = .kMap).map fun x => x.1.taskId) hf.threads
    simp only [List.filter_map, List.map_map, Function.comp_def, Assignment.type_task, Assignment.taskId_task] at hids
    have hplan := congrArg (List.map (·.taskId)) (s.jobTracker.filter_plan_kMap 0 0)
    rw [← hs.sole.assignments.symm.trans hc.assignments, List.filter_map, List.map_map, List.map_map, hmaps,
      Nat.sub_zero] at hplan
    have hsame : (c.threads.filter Thread.isMap).map (·.task.taskId) =
        (List.range' 0 numMaps.toNatClampNeg).reverse.map mapTaskId := hids.trans hplan
    rw [hsame, List.range_eq_range']
    exact (List.reverse_perm _).map _
  · obtain ⟨j, hj⟩ := List.mem_iff_getElem?.1 hth
    obtain ⟨o, ho, htask, hreported⟩ := hf.handedOut hj
    have hmem := List.mem_of_getElem? ho
    refine hreported.1 (hall o hmem (hs.sole.handedOut o hmem) ?_)
    rw [← o.assignment.type_task, htask]
    exact htype

variable [DecidableEq ι]

theorem step {e : Event ι} (he : e.isSubmit = false) :
    OneJob env inputPath outputPath numMaps numReduces (c.step env e) := by
  obtain ⟨s, hs, hf⟩ := h
  rcases hf.step he with hf' | ⟨e', he', hf'⟩
  · exact ⟨s, hs, hf'⟩
  · exact ⟨s.step e', hs.step he', hf'⟩

omit h in
theorem submitted (files : HashMap Bytes Bytes) (inputPath outputPath : Bytes) (numMaps numReduces : Int32) :
    OneJob env inputPath outputPath numMaps numReduces
      (Cluster.step env { files } (.submit inputPath outputPath numMaps numReduces)) := by
  refine ⟨_, Single.initial.submit inputPath outputPath numMaps numReduces, rfl, rfl, ?_⟩
  intro th hth
  cases hth

end OneJob

theorem runJob_oneJob [DecidableEq ι] {es : List (Event ι)} (hjob : SingleJob es) (files : HashMap Bytes Bytes)
    (inputPath outputPath : Bytes) (numMaps numReduces : Int32) :
    OneJob env inputPath outputPath numMaps numReduces
      (Cluster.runJob env files inputPath outputPath numMaps numReduces es) :=
  @after_keeps _ _ (Cluster.step env) _ (OneJob env inputPath outputPath numMaps numReduces) es
    (OneJob.submitted files inputPath outputPath numMaps numReduces) fun _ e he h => h.step (hjob e he)

end SingleJob

end MiniHadoop.Mapred

/-
A second job on the same trackers. The JobTracker keeps the flag, the number of reduce tasks made and the locations of
the first job, and the TaskTrackers keep its outputs under ids that come back; so the second job shows what it would show
on fresh trackers only if the flag is down and it has no reduce tasks, or the first job had none and no output.
-/
import MiniHadoop.Mapred.Completion
import MiniHadoop.Mapred.Shuffle

namespace MiniHadoop.Mapred

open Text Runs

variable {ι : Type}

/-! ## What is seen of a job -/

/-- What a step shows: the task handed out by a poll, with its locations, the records gathered by a reduce task, and
whether the job is done then. -/
structure Observation where
  assignment : Option Assignment
  gathered : List (Task × List Record)
  done : Bool
  deriving DecidableEq, Repr

namespace Event

/-- The event for a job whose threads come after `n` others. -/
def shift (n : Nat) : Event ι → Event ι
  | .submit inputPath outputPath numMaps numReduces => .submit inputPath outputPath numMaps numReduces
  | .poll tracker => .poll tracker
  | .execute j => .execute (n + j)
  | .prepare j => .prepare (n + j)
  | .deliver j => .deliver (n + j)

def isPoll : Event ι → Bool
  | .poll _ => true
  | _ => false

end Event

namespace Cluster

variable [DecidableEq ι]

def observe (env : Setup ι) (c : Cluster ι) (e : Event ι) : List Observation :=
  [{ assignment := if e.isPoll then c.jobTracker.pollForTask.2 else none
     gathered := c.gathers env e
     done := (c.step env e).jobTracker.isJobDone }]

theorem length_observe (env : Setup ι) (c : Cluster ι) (e : Event ι) : (c.observe env e).length = 1 := rfl

/-- Polls that show the same hand out the same task. -/
theorem pollForTask_of_observe {env : Setup ι} {c c' : Cluster ι} {tracker : ι}
    (h : c.observe env (.poll tracker) = c'.observe env (.poll tracker)) :
    c.jobTracker.pollForTask.2 = c'.jobTracker.pollForTask.2 :=
  congrArg Observation.assignment (List.singleton_inj.1 h)

/-- Everything that is seen of a job from its submission on. -/
def observations (env : Setup ι) (c : Cluster ι) (inputPath outputPath : Bytes) (numMaps numReduces : Int32)
    (es : List (Event ι)) : List Observation :=
  trace (step env) (observe env) c (.submit inputPath outputPath numMaps numReduces :: es)

/-- The job shows the same as on fresh trackers with the same files, whatever happens in the same order. -/
def Independent (env : Setup ι) (c : Cluster ι) (inputPath outputPath : Bytes) (numMaps numReduces : Int32) : Prop :=
  ∀ es : List (Event ι), SingleJob es →
    observations env c inputPath outputPath numMaps numReduces (es.map (Event.shift c.threads.length)) =
      observations env { files := c.files } inputPath outputPath numMaps numReduces es

/-! ## Threads and calls of the past -/

/-- The same with threads and calls of the past. -/
def behind (c : Cluster ι) (old : List (Thread ι)) (calls : List MapCall) : Cluster ι :=
  { c with threads := old ++ c.threads, calls := calls ++ c.calls }

variable {env : Setup ι} {c : Cluster ι} {old : List (Thread ι)} {calls : List MapCall}

omit [DecidableEq ι] in
theorem getElem?_behind (j : Nat) : (c.behind old calls).threads[old.length + j]? = c.threads[j]? := by
  rw [behind, List.getElem?_append_right (Nat.le_add_right _ _), Nat.add_sub_cancel_left]

omit [DecidableEq ι] in
theorem setPhase_behind (j : Nat) (th : Thread ι) (phase : Phase) :
    (c.behind old calls).setPhase (old.length + j) th phase = (c.setPhase j th phase).behind old calls := by
  simp only [setPhase, behind]
  rw [List.set_append_right _ _ (Nat.le_add_right _ _), Nat.add_sub_cancel_left]

theorem execute_behind (j : Nat) (th : Thread ι) :
    (c.behind old calls).execute env (old.length + j) th = (c.execute env j th).behind old calls := by
  unfold execute
  rw [setPhase_behind]
  cases th.task.type with
  | kMap => simp only [behind, setPhase, List.append_assoc]
  | kReduce => rfl

/-- They make no difference to the job. -/
theorem step_behind (e : Event ι) :
    (c.behind old calls).step env (e.shift old.length) = (c.step env e).behind old calls := by
  cases e with
  | submit => rfl
  | poll tracker =>
    simp only [Event.shift, step, show (c.behind old calls).jobTracker = c.jobTracker from rfl]
    split
    · simp only [behind, List.append_assoc]
    · rfl
  | execute j =>
    simp only [Event.shift, step, getElem?_behind]
    split
    · split
      · exact execute_behind ..
      · rfl
    · rfl
  | prepare j =>
    simp only [Event.shift, step, getElem?_behind]
    split
    · split
      · exact setPhase_behind ..
      · rfl
    · rfl
  | deliver j =>
    simp only [Event.shift, step, getElem?_behind]
    split
    · split
      · rw [setPhase_behind]; rfl
      · rfl
    · rfl

theorem observe_behind (e : Event ι) :
    (c.behind old calls).observe env (e.shift old.length) = c.observe env e := by
  have hgathers : (c.behind old calls).gathers env (e.shift old.length) = c.gathers env e := by
    cases e with
    | execute j => simp only [Event.shift, gathers, getElem?_behind]; rfl
    | submit | poll | prepare | deliver => rfl
  have hpoll : (e.shift old.length).isPoll = e.isPoll := by cases e <;> rfl
  rw [observe, observe, step_behind, hgathers, hpoll]
  rfl

theorem trace_behind (c : Cluster ι) (old : List (Thread ι)) (calls : List MapCall) (es : List (Event ι)) :
    trace (step env) (observe env) (c.behind old calls) (es.map (Event.shift old.length)) =
      trace (step env) (observe env) c es :=
  @trace_eq_of_rel _ _ _ _ _ _ _ _ _ (fun s s' => s = s'.behind old calls) (fun _ => True) _
    (fun _ _ e _ h => h ▸ ⟨observe_behind e, step_behind e⟩) es _ _ (fun _ _ => trivial) rfl

end Cluster

/-! ## Jobs without reduce tasks -/

namespace DistJobTracker

/-- The same with another number of reduce tasks made, and other locations. -/
def stale (s : DistJobTracker) (created : Nat) (locs : List MapOutputLocation) : DistJobTracker :=
  { s with pendingReducesCreated := created, mapOutputLocations := locs }

theorem isJobDone_stale (s : DistJobTracker) (created : Nat) (locs : List MapOutputLocation) :
    (s.stale created locs).isJobDone = s.isJobDone := rfl

variable {s : DistJobTracker}

theorem createReduce_of_none (hnone : s.numReduces.toInt ≤ 0) : s.createReduce = s := by
  rcases s.createReduce_cases with hc | ⟨⟨-, hmore⟩, -⟩
  · exact hc
  · omega

theorem finishJob_stale (s : DistJobTracker) (created : Nat) (locs : List MapOutputLocation) :
    (s.stale created locs).finishJob = s.finishJob.stale created locs := by
  unfold finishJob
  rw [apply_ite fun t : DistJobTracker => t.stale created locs]
  rfl

theorem pollForTask_of_none (hnone : s.numReduces.toInt ≤ 0) (hpending : s.pendingReduces = []) :
    s.pollForTask = match s.pendingMaps.getLast? with
      | some t => ({ s with pendingMaps := s.pendingMaps.dropLast }, some (s.assignMap t))
      | none => (s.finishJob, none) := by
  have hlast : s.pendingReduces.getLast? = none := by rw [hpending, List.getLast?_nil]
  unfold pollForTask
  rw [createReduce_of_none hnone]
  cases s.pendingMaps.getLast? with
  | some t => rfl
  | none => simp only [hlast]

/-- Without reduce tasks neither makes a difference to a poll. -/
theorem pollForTask_stale (hnone : s.numReduces.toInt ≤ 0) (hpending : s.pendingReduces = []) (created : Nat)
    (locs : List MapOutputLocation) :
    (s.stale created locs).pollForTask = (s.pollForTask.1.stale created locs, s.pollForTask.2) := by
  rw [pollForTask_of_none hnone hpending, @pollForTask_of_none (s.stale created locs) hnone hpending,
    show (s.stale created locs).pendingMaps = s.pendingMaps from rfl]
  cases s.pendingMaps.getLast? with
  | none => exact Prod.ext (s.finishJob_stale created locs) rfl
  | some t => rfl

/-- Without reduce tasks a poll hands out map tasks only. -/
theorem pollForTask_kMap (hnone : s.numReduces.toInt ≤ 0) (hpending : s.pendingReduces = [])
    (hmaps : ∀ t ∈ s.pendingMaps, t.type = .kMap) :
    s.pollForTask.1.pendingReduces = [] ∧ (∀ t ∈ s.pollForTask.1.pendingMaps, t.type = .kMap) ∧
      ∀ a, s.pollForTask.2 = some a → a.task.type = .kMap := by
  rw [pollForTask_of_none hnone hpending]
  cases hlast : s.pendingMaps.getLast? with
  | none =>
    refine ⟨?_, ?_, fun a ha => by cases ha⟩
    · rcases s.finishJob_cases with hf | ⟨-, hf⟩ <;> rw [hf] <;> exact hpending
    · rcases s.finishJob_cases with hf | ⟨-, hf⟩ <;> rw [hf] <;> exact hmaps
  | some t =>
    refine ⟨hpending, fun t' ht' => hmaps t' (List.dropLast_subset _ ht'), fun a ha => ?_⟩
    rw [← Option.some.inj ha, Assignment.type_task, assignMap, hmaps t (List.mem_of_getLast? hlast)]

end DistJobTracker

/-- A report without what depends on the outputs of a tracker. -/
def Completion.outline : Completion → Completion
  | .map taskId .. => .map taskId 0 [] 0
  | .reduce taskId => .reduce taskId

theorem DistJobTracker.taskCompleted_stale {s : DistJobTracker} {message message' : Completion}
    (h : message.outline = message'.outline) (created : Nat) (locs : List MapOutputLocation) :
    ∃ created' locs', (s.stale created locs).taskCompleted message =
      (s.taskCompleted message').stale created' locs' := by
  cases message with
  | map =>
    cases message' with
    | map => exact ⟨created, _, rfl⟩
    | reduce => cases h
  | reduce =>
    cases message' with
    | map => cases h
    | reduce => exact ⟨created, locs, rfl⟩

def Phase.outline : Phase → Phase
  | .reporting message => .reporting message.outline
  | phase => phase

theorem Phase.eq_iff_of_outline {phase phase' : Phase} (h : phase.outline = phase'.outline) :
    (phase = .assigned ↔ phase' = .assigned) ∧ (phase = .executed ↔ phase' = .executed) ∧
      (phase = .reported ↔ phase' = .reported) := by
  cases phase <;> cases phase' <;> simp_all [outline]

theorem Phase.outline_reporting {phase : Phase} {message : Completion}
    (h : Phase.outline (.reporting message) = phase.outline) :
    ∃ message', phase = .reporting message' ∧ message.outline = message'.outline := by
  cases phase with
  | reporting message' => exact ⟨message', rfl, by simpa [outline] using h⟩
  | assigned | executed | reported => cases h

def Thread.outline (th : Thread ι) : Thread ι := { th with phase := th.phase.outline }

/-- Two clusters with a job without reduce tasks that differ in outputs, in what is reported of them, and in what only
matters to reduce tasks. -/
structure MapsOnly (c c' : Cluster ι) : Prop where
  jobTracker : ∃ created locs, c.jobTracker = c'.jobTracker.stale created locs
  numReduces : c'.jobTracker.numReduces.toInt ≤ 0
  pendingReduces : c'.jobTracker.pendingReduces = []
  pendingMaps : ∀ t ∈ c'.jobTracker.pendingMaps, t.type = .kMap
  threads : c.threads.map Thread.outline = c'.threads.map Thread.outline
  types : ∀ th ∈ c'.threads, th.task.type = .kMap
  files : c.files = c'.files

namespace MapsOnly

variable {c c' : Cluster ι} {env : Setup ι}

/-- The threads have the same tasks and are as far with them. -/
theorem getElem? (h : MapsOnly c c') (j : Nat) :
    (c.threads[j]? = none ∧ c'.threads[j]? = none) ∨
    ∃ th th', c.threads[j]? = some th ∧ c'.threads[j]? = some th' ∧ th.tracker = th'.tracker ∧ th.task = th'.task ∧
      th.phase.outline = th'.phase.outline ∧ th'.task.type = .kMap := by
  have hget := congrArg (·[j]?) h.threads
  simp only [List.getElem?_map] at hget
  cases hj : c'.threads[j]? with
  | none =>
    rw [hj, Option.map_none, Option.map_eq_none_iff] at hget
    exact .inl ⟨hget, rfl⟩
  | some th' =>
    rw [hj, Option.map_some] at hget
    obtain ⟨th, hth, heq⟩ := Option.map_eq_some_iff.1 hget
    have htracker := congrArg Thread.tracker heq
    have htask := congrArg Thread.task heq
    have hphase := congrArg Thread.phase heq
    exact .inr ⟨th, th', hth, rfl, htracker, htask, hphase, h.types th' (List.mem_of_getElem? hj)⟩

/-- Both threads move on. -/
theorem setPhase (h : MapsOnly c c') {j : Nat} {th th' : Thread ι} {phase phase' : Phase} (hj : c'.threads[j]? = some th')
    (htracker : th.tracker = th'.tracker) (htask : th.task = th'.task) (hphase : phase.outline = phase'.outline) :
    MapsOnly (c.setPhase j th phase) (c'.setPhase j th' phase') where
  jobTracker := h.jobTracker
  numReduces := h.numReduces
  pendingReduces := h.pendingReduces
  pendingMaps := h.pendingMaps
  threads := by
    simp only [Cluster.setPhase, List.map_set, h.threads, Thread.outline, htracker, htask, hphase]
  types := by
    intro th'' hth''
    rcases List.mem_or_eq_of_mem_set hth'' with hth'' | rfl
    · exact h.types th'' hth''
    · exact h.types th' (List.mem_of_getElem? hj)
  files := h.files

variable [DecidableEq ι]

theorem poll (h : MapsOnly c c') (tracker : ι) :
    c.observe env (.poll tracker) = c'.observe env (.poll tracker) ∧
      MapsOnly (c.step env (.poll tracker)) (c'.step env (.poll tracker)) := by
  obtain ⟨created, locs, hjob⟩ := h.jobTracker
  have hpoll := DistJobTracker.pollForTask_stale h.numReduces h.pendingReduces created locs
  rw [← hjob] at hpoll
  obtain ⟨-, -, -, -, hjob'⟩ := DistJobTracker.job_parts c'.jobTracker.pollForTask_frame.1
  obtain ⟨hreduces, hmaps, htask⟩ := DistJobTracker.pollForTask_kMap h.numReduces h.pendingReduces h.pendingMaps
  have hnumReduces : c'.jobTracker.pollForTask.1.numReduces.toInt ≤ 0 := by
    rw [hjob']
    exact h.numReduces
  rw [Cluster.observe, Cluster.observe, Cluster.step, Cluster.step, hpoll]
  rcases hp : c'.jobTracker.pollForTask with ⟨t, a⟩
  rw [hp] at hreduces hmaps htask hnumReduces
  cases a with
  | none => exact ⟨rfl, ⟨created, locs, rfl⟩, hnumReduces, hreduces, hmaps, h.threads, h.types, h.files⟩
  | some a =>
    refine ⟨rfl, ⟨created, locs, rfl⟩, hnumReduces, hreduces, hmaps, ?_, ?_, h.files⟩
    · rw [List.map_append, List.map_append, h.threads]
    · intro th hth
      rcases List.mem_append.1 hth with hth | hth
      · exact h.types th hth
      · rw [List.mem_singleton.1 hth]; exact htask a rfl

/-- A step that is no poll shows the same when it leads to such clusters again and gathers nothing. -/
theorem observe_eq {e : Event ι} (he : e.isPoll = false) (hg : c.gathers env e = []) (hg' : c'.gathers env e = [])
    (hnext : MapsOnly (c.step env e) (c'.step env e)) : c.observe env e = c'.observe env e := by
  obtain ⟨created, locs, hjob⟩ := hnext.jobTracker
  simp only [Cluster.observe, hjob, hg, hg', he, DistJobTracker.isJobDone_stale, Bool.false_eq_true, if_false]

theorem execute (h : MapsOnly c c') (j : Nat) :
    c.observe env (.execute j) = c'.observe env (.execute j) ∧
      MapsOnly (c.step env (.execute j)) (c'.step env (.execute j)) := by
  rcases h.getElem? j with ⟨hj, hj'⟩ | ⟨th, th', hj, hj', htracker, htask, hphase, htype⟩
  · have hnext : MapsOnly (c.step env (.execute j)) (c'.step env (.execute j)) := by
      simp only [Cluster.step, hj, hj']
      exact h
    refine ⟨observe_eq rfl ?_ ?_ hnext, hnext⟩
    · simp only [Cluster.gathers, hj]
    · simp only [Cluster.gathers, hj']
  · have hnext : MapsOnly (c.step env (.execute j)) (c'.step env (.execute j)) := by
      have hset : MapsOnly (c.setPhase j th .executed) (c'.setPhase j th' .executed) := h.setPhase hj' htracker htask rfl
      simp only [Cluster.step, hj, hj', (Phase.eq_iff_of_outline hphase).1]
      split
      · rw [Cluster.execute, Cluster.execute, htask, htype]
        exact ⟨hset.jobTracker, hset.numReduces, hset.pendingReduces, hset.pendingMaps, hset.threads, hset.types,
          hset.files⟩
      · exact h
    refine ⟨observe_eq rfl ?_ ?_ hnext, hnext⟩
    · simp [Cluster.gathers, hj, htask, htype]
    · simp [Cluster.gathers, hj', htype]

theorem prepare (h : MapsOnly c c') (j : Nat) : MapsOnly (c.step env (.prepare j)) (c'.step env (.prepare j)) := by
  rcases h.getElem? j with ⟨hj, hj'⟩ | ⟨th, th', hj, hj', htracker, htask, hphase, htype⟩
  · simp only [Cluster.step, hj, hj']
    exact h
  · simp only [Cluster.step, hj, hj', (Phase.eq_iff_of_outline hphase).2.1]
    split
    · refine h.setPhase hj' htracker htask ?_
      rw [reportTaskComplete, reportTaskComplete, htask, htype]
      rfl
    · exact h

theorem deliver (h : MapsOnly c c') (j : Nat) : MapsOnly (c.step env (.deliver j)) (c'.step env (.deliver j)) := by
  rcases h.getElem? j with ⟨hj, hj'⟩ | ⟨th, th', hj, hj', htracker, htask, hphase, -⟩
  · simp only [Cluster.step, hj, hj']
    exact h
  · have hset : MapsOnly (c.setPhase j th .reported) (c'.setPhase j th' .reported) := h.setPhase hj' htracker htask rfl
    simp only [Cluster.step, hj, hj']
    obtain ⟨hassigned, hexecuted, hreported⟩ := Phase.eq_iff_of_outline hphase
    cases hp : th.phase with
    | reporting message =>
      rw [hp] at hphase
      obtain ⟨message', hp', hmessage⟩ := Phase.outline_reporting hphase
      rw [hp']
      obtain ⟨created, locs, hjob⟩ := h.jobTracker
      obtain ⟨-, -, -, -, hframe⟩ := DistJobTracker.job_parts (c'.jobTracker.taskCompleted_job message')
      refine ⟨?_, ?_, ?_, ?_, hset.threads, hset.types, hset.files⟩
      · rw [hjob]; exact DistJobTracker.taskCompleted_stale hmessage created locs
      · rw [hframe]; exact h.numReduces
      · cases message' <;> exact h.pendingReduces
      · cases message' <;> exact h.pendingMaps
    | assigned => rw [hassigned.1 hp]; exact h
    | executed => rw [hexecuted.1 hp]; exact h
    | reported => rw [hreported.1 hp]; exact h

/-- Both clusters make the same step. -/
theorem step (h : MapsOnly c c') {e : Event ι} (he : e.isSubmit = false) :
    c.observe env e = c'.observe env e ∧ MapsOnly (c.step env e) (c'.step env e) := by
  cases e with
  | submit => cases he
  | poll tracker => exact h.poll tracker
  | execute j => exact h.execute j
  | prepare j => exact ⟨observe_eq rfl rfl rfl (h.prepare j), h.prepare j⟩
  | deliver j => exact ⟨observe_eq rfl rfl rfl (h.deliver j), h.deliver j⟩

end MapsOnly

/-! ## What a job leaves behind -/

/-- The tracker has outputs. -/
def Cluster.Holds (c : Cluster ι) (tracker : ι) : Prop := (c.outputs tracker).keys ≠ []

/-- The report of the thread will say that the tracker has a partition. -/
def Thread.WillReport (tracker : ι) (th : Thread ι) : Prop :=
  (th.tracker = tracker ∧ th.task.type = .kMap ∧ th.phase = .executed) ∨
    ∃ taskId host port, th.phase = .reporting (.map taskId 1 host port)

theorem Thread.WillReport.phase {tracker : ι} {th : Thread ι} (h : th.WillReport tracker) :
    th.phase ≠ .assigned ∧ th.phase ≠ .reported := by
  rcases h with ⟨-, -, hp⟩ | ⟨taskId, host, port, hp⟩
  · rw [hp]; simp
  · rw [hp]; simp

/-- Outputs and locations come together: a tracker with outputs has been reported or is going to be, and locations are
reported of trackers with outputs. -/
structure Stocked (c : Cluster ι) : Prop where
  zero : ∀ tracker, ∀ key ∈ c.outputs tracker, key.2 = 0
  messages : ∀ th ∈ c.threads, ∀ taskId numParts host port, th.phase = .reporting (.map taskId numParts host port) →
    numParts = 1 ∧ c.Holds th.tracker ∨ numParts = 0
  kept : ∀ tracker, c.Holds tracker →
    c.jobTracker.mapOutputLocations ≠ [] ∨ ∃ th ∈ c.threads, th.WillReport tracker
  located : c.jobTracker.mapOutputLocations ≠ [] → ∃ tracker, c.Holds tracker

namespace Stocked

variable {env : Setup ι} {c : Cluster ι} {th : Thread ι}

/-- A thread moves on without touching the outputs. -/
theorem setPhase (h : Stocked c) {j : Nat} {phase : Phase} (hj : c.threads[j]? = some th)
    (hkeep : ∀ tracker, c.Holds tracker → th.WillReport tracker → Thread.WillReport tracker { th with phase })
    (hmessage : ∀ taskId numParts host port, phase = .reporting (.map taskId numParts host port) →
      numParts = 1 ∧ c.Holds th.tracker ∨ numParts = 0) : Stocked (c.setPhase j th phase) where
  zero := h.zero
  messages := by
    intro th' hth'
    rcases List.mem_or_eq_of_mem_set hth' with hth' | rfl
    · exact h.messages th' hth'
    · exact hmessage
  kept := by
    intro tracker hholds
    exact (h.kept tracker hholds).imp id (Counting.exists_mem_set hj (hkeep tracker hholds))
  located := h.located

/-- A report arrives; with its location the outputs of every tracker are accounted for. -/
theorem deliver (h : Stocked c) {j : Nat} {message : Completion} (hj : c.threads[j]? = some th)
    (hp : th.phase = .reporting message) :
    Stocked { c.setPhase j th .reported with jobTracker := c.jobTracker.taskCompleted message } := by
  have hmessages : ∀ th' ∈ (c.setPhase j th .reported).threads, ∀ taskId numParts host port,
      th'.phase = .reporting (.map taskId numParts host port) → numParts = 1 ∧ c.Holds th'.tracker ∨ numParts = 0 := by
    intro th' hth' taskId numParts host port hp'
    rcases List.mem_or_eq_of_mem_set hth' with hth' | rfl
    · exact h.messages th' hth' taskId numParts host port hp'
    · cases hp'
  by_cases hone : ∃ taskId host port, message = .map taskId 1 host port
  · obtain ⟨taskId, host, port, rfl⟩ := hone
    have hne : (c.jobTracker.taskCompleted (.map taskId 1 host port)).mapOutputLocations ≠ [] := by
      rw [DistJobTracker.taskCompleted_locations]
      simp [Completion.locations, show Int32.toNatClampNeg 1 = 1 from rfl]
    refine ⟨h.zero, hmessages, fun _ _ => .inl hne, fun _ => ⟨th.tracker, ?_⟩⟩
    rcases h.messages th (List.mem_of_getElem? hj) _ _ _ _ hp with ⟨-, hholds⟩ | hzero
    · exact hholds
    · cases hzero
  · -- no location is added, and the thread was not going to report any
    have hsame : (c.jobTracker.taskCompleted message).mapOutputLocations = c.jobTracker.mapOutputLocations := by
      rw [DistJobTracker.taskCompleted_locations]
      cases message with
      | map taskId numParts host port =>
        rcases h.messages th (List.mem_of_getElem? hj) _ _ _ _ hp with ⟨rfl, -⟩ | rfl
        · exact absurd ⟨taskId, host, port, rfl⟩ hone
        · exact List.append_nil _
      | reduce => exact List.append_nil _
    refine ⟨h.zero, hmessages, fun tracker hholds => ?_, fun hne => h.located (by rw [← hsame]; exact hne)⟩
    rcases h.kept tracker hholds with hne | hex
    · exact .inl (by rw [← hsame] at hne; exact hne)
    · refine .inr (Counting.exists_mem_set hj (fun hwill => ?_) hex)
      rcases hwill with ⟨-, -, hp'⟩ | ⟨taskId, host, port, hp'⟩
      · rw [hp] at hp'; cases hp'
      · rw [hp] at hp'
        cases hp'
        exact absurd ⟨taskId, host, port, rfl⟩ hone

theorem initial (files : HashMap Bytes Bytes) : Stocked ({ files } : Cluster ι) where
  zero _ key hkey := absurd hkey (AList.notMem_empty key)
  messages _ hth := absurd hth List.not_mem_nil
  kept _ hholds := absurd rfl hholds
  located hne := absurd rfl hne

/-- A poll adds at most a thread that has nothing to report. -/
theorem poll (h : Stocked c) {t : DistJobTracker} (hlocations : t.mapOutputLocations = c.jobTracker.mapOutputLocations)
    {new : List (Thread ι)} (hnew : ∀ th ∈ new, th.phase = .assigned) :
    Stocked { c with jobTracker := t, threads := c.threads ++ new } := by
  constructor
  · exact h.zero
  · intro th hth taskId numParts host port hp
    rcases List.mem_append.1 hth with hth | hth
    · exact h.messages th hth taskId numParts host port hp
    · rw [hnew th hth] at hp
      cases hp
  · intro tracker hholds
    rcases h.kept tracker hholds with hne | ⟨th, hth, hwill⟩
    · rw [← hlocations] at hne
      exact .inl hne
    · exact .inr ⟨th, List.mem_append_left _ hth, hwill⟩
  · intro hne
    exact h.located (by rw [← hlocations]; exact hne)

/-- The report says whether the tracker has outputs. -/
theorem prepare (h : Stocked c) {j : Nat} (hj : c.threads[j]? = some th) (hp : th.phase = .executed) :
    Stocked (c.setPhase j th (.reporting (reportTaskComplete (env.host th.tracker) (env.shufflePort th.tracker)
      (c.outputs th.tracker) th.task))) := by
  have hparts := length_partitions (h.zero th.tracker)
  refine h.setPhase hj (fun tracker hholds hwill => ?_) fun taskId numParts host port hp' => ?_
  · rcases hwill with ⟨htracker, htype, -⟩ | ⟨taskId, host, port, hp'⟩
    · refine .inr ⟨th.task.taskId, env.host th.tracker, env.shufflePort th.tracker, ?_⟩
      rw [reportTaskComplete, htype, hparts, if_neg (htracker ▸ hholds)]
      rfl
    · rw [hp] at hp'; cases hp'
  · rw [reportTaskComplete] at hp'
    cases htype : th.task.type with
    | kMap =>
      rw [htype, hparts] at hp'
      cases hp'
      split
      · exact .inr rfl
      · rename_i hholds; exact .inl ⟨rfl, hholds⟩
    | kReduce =>
      rw [htype] at hp'
      cases hp'

variable [DecidableEq ι]

/-- A map task is executed; from now on its own tracker may have outputs. -/
theorem executeMap (h : Stocked c) {j : Nat} (hj : c.threads[j]? = some th) (hp : th.phase = .assigned)
    (htype : th.task.type = .kMap) : Stocked (c.execute env j th) := by
  obtain ⟨outputs, hexec, -, -, hmem, hmono, hother⟩ := Shuffled.execute_kMap env c j htype
  rw [hexec]
  constructor
  · intro tracker key hkey
    rcases hmem tracker key hkey with hkey | rfl
    · exact h.zero tracker key hkey
    · rfl
  · intro th' hth' taskId numParts host port hp'
    rcases List.mem_or_eq_of_mem_set hth' with hth' | rfl
    · exact (h.messages th' hth' taskId numParts host port hp').imp (fun hone => ⟨hone.1, hmono _ hone.2⟩) id
    · cases hp'
  · intro tracker hholds
    by_cases htracker : tracker = th.tracker
    · refine .inr ⟨{ th with phase := .executed }, List.mem_set (List.getElem?_eq_some_iff.1 hj).1 _, ?_⟩
      exact .inl ⟨htracker.symm, htype, rfl⟩
    · have hholds : (outputs tracker).keys ≠ [] := hholds
      rw [hother tracker htracker] at hholds
      exact (h.kept tracker hholds).imp id (Counting.exists_mem_set hj fun hwill => absurd hp hwill.phase.1)
  · intro hne
    obtain ⟨tracker, hholds⟩ := h.located hne
    exact ⟨tracker, hmono tracker hholds⟩

theorem execute (h : Stocked c) {j : Nat} (hj : c.threads[j]? = some th) (hp : th.phase = .assigned) :
    Stocked (c.execute env j th) := by
  cases htype : th.task.type with
  | kMap => exact h.executeMap hj hp htype
  | kReduce =>
    have hset : Stocked (c.setPhase j th .executed) :=
      h.setPhase hj (fun _ _ hwill => absurd hp hwill.phase.1) fun taskId numParts host port hp' => by cases hp'
    rw [Cluster.execute, htype]
    exact ⟨hset.zero, hset.messages, hset.kept, hset.located⟩

theorem step (h : Stocked c) (e : Event ι) : Stocked (c.step env e) := by
  cases he : e.isSubmit with
  | true =>
    cases e with
    | submit => exact ⟨h.zero, h.messages, h.kept, h.located⟩
    | poll | execute | prepare | deliver => cases he
  | false =>
    have hlocations := c.jobTracker.pollForTask_frame.2.1
    rcases c.step_cases env he with ⟨hstep, -⟩ | ⟨tracker, t, a, rfl, hpoll, hstep⟩ | ⟨tracker, t, rfl, hpoll, hstep⟩ |
      ⟨j, th, rfl, hj, hp, hstep⟩ | ⟨j, th, rfl, hj, hp, hstep⟩ | ⟨j, th, message, rfl, hj, hp, hstep⟩
    · rw [hstep]; exact h
    · rw [hpoll] at hlocations
      rw [hstep]
      exact h.poll hlocations (by simp)
    · rw [hpoll] at hlocations
      have hnone := @poll _ c h t hlocations [] (by simp)
      rw [List.append_nil] at hnone
      rw [hstep]
      exact hnone
    · rw [hstep]; exact h.execute hj hp
    · rw [hstep]; exact h.prepare hj hp
    · rw [hstep]; exact h.deliver hj hp

theorem run (h : Stocked c) (es : List (Event ι)) : Stocked (after (Cluster.step env) c es) :=
  @after_keeps _ _ (Cluster.step env) c Stocked es h fun _ e _ hs => hs.step e

end Stocked

/-! ## One map task after the other -/

namespace Cluster

variable [DecidableEq ι] {env : Setup ι} {c : Cluster ι}

/-- A tracker gets a map task and does it to its end, as the `n`-th thread. -/
def mapRound (tracker : ι) (n : Nat) : List (Event ι) := [.poll tracker, .execute n, .prepare n, .deliver n]

/-- The report that ends the task of the thread, with these outputs on its tracker. -/
def endReport (env : Setup ι) (th : Thread ι) (outputs : ι → MapOutputs) : Completion :=
  reportTaskComplete (env.host th.tracker) (env.shufflePort th.tracker) (outputs th.tracker) th.task

/-- The task is executed by a new thread, and reported. -/
theorem after_mapRound_eq {ts : List Task} {t : Task} (hm : c.jobTracker.pendingMaps = ts ++ [t]) (ht : t.type = .kMap)
    (tracker : ι) :
    let th : Thread ι := ⟨tracker, (c.jobTracker.assignMap t).task, .assigned⟩
    ∃ outputs calls, Shuffled.MapEffect env c th outputs ∧
      after (step env) c (mapRound tracker c.threads.length) = { c with
        jobTracker := { c.jobTracker with pendingMaps := ts }.taskCompleted (endReport env th outputs)
        outputs
        threads := c.threads ++ [{ th with phase := .reported }]
        calls } := by
  intro th
  have htype : th.task.type = .kMap := by
    show (c.jobTracker.assignMap t).task.type = .kMap
    rw [Assignment.type_task, DistJobTracker.assignMap, ht]
  have hget : ∀ x : Thread ι, (c.threads ++ [x])[c.threads.length]? = some x := fun x => List.getElem?_concat_length
  have hset : ∀ x y : Thread ι, (c.threads ++ [x]).set c.threads.length y = c.threads ++ [y] := by
    intro x y
    rw [List.set_append_right _ _ le_rfl, Nat.sub_self]
    rfl
  -- the states after the poll, the execution and the preparation of the report
  let c₁ : Cluster ι := { c with
    jobTracker := { c.jobTracker with pendingMaps := ts }, threads := c.threads ++ [th] }
  have h₁ : c.step env (.poll tracker) = c₁ := by
    rw [step, DistJobTracker.pollForTask, hm]
    simp only [List.getLast?_concat, List.dropLast_concat]
    rfl
  obtain ⟨outputs, hexec, heff⟩ := Shuffled.execute_kMap env c₁ c.threads.length htype
  let c₂ : Cluster ι := { c₁ with
    outputs
    threads := c.threads ++ [{ th with phase := .executed }]
    calls := c₁.calls ++ (textRecords (c₁.files.lookup th.task.inputPath)).map (⟨th.task.taskId, ·⟩) }
  have h₂ : c₁.step env (.execute c.threads.length) = c₂ := by
    rw [step, hget th]
    simp only [if_true, show th.phase = .assigned from rfl]
    rw [hexec, setPhase, hset]
  let c₃ : Cluster ι := { c₂ with
    threads := c.threads ++ [{ th with phase := .reporting (endReport env th outputs) }] }
  have h₃ : c₂.step env (.prepare c.threads.length) = c₃ := by
    rw [step, hget { th with phase := .executed }]
    simp only [if_true, setPhase]
    rw [hset]
    rfl
  refine ⟨outputs, c₂.calls, ⟨heff.slot, heff.self, heff.mem, heff.keys, heff.other⟩, ?_⟩
  show (((c.step env (.poll tracker)).step env (.execute c.threads.length)).step env
    (.prepare c.threads.length)).step env (.deliver c.threads.length) = _
  rw [h₁, h₂, h₃, step, hget { th with phase := .reporting (endReport env th outputs) }]
  simp only [setPhase]
  rw [hset]

/-- A round adds at most one location, and one if the tracker had outputs before. -/
theorem after_mapRound (hzero : ∀ tracker, ∀ key ∈ c.outputs tracker, key.2 = 0) {ts : List Task} {t : Task}
    (hm : c.jobTracker.pendingMaps = ts ++ [t]) (ht : t.type = .kMap) (tracker : ι) :
    let c' := after (step env) c (mapRound tracker c.threads.length)
    (∃ locs, c'.jobTracker = { c.jobTracker with
        pendingMaps := ts
        mapsCompleted := c.jobTracker.mapsCompleted + 1
        mapOutputLocations := c.jobTracker.mapOutputLocations ++ locs } ∧
      locs.length ≤ 1 ∧ (c.Holds tracker → locs.length = 1)) ∧
    c'.threads.length = c.threads.length + 1 ∧ (c.Holds tracker → c'.Holds tracker) ∧
    ∀ tracker, ∀ key ∈ c'.outputs tracker, key.2 = 0 := by
  intro c'
  obtain ⟨outputs, calls, heff, hlast⟩ := @after_mapRound_eq _ _ env c ts t hm ht tracker
  have htype : (c.jobTracker.assignMap t).task.type = .kMap := by
    rw [Assignment.type_task, DistJobTracker.assignMap, ht]
  have hzero' : ∀ tracker, ∀ key ∈ outputs tracker, key.2 = 0 := by
    intro tracker key hkey
    rcases heff.mem tracker key hkey with hkey | rfl
    · exact hzero tracker key hkey
    · rfl
  have hreport : endReport env ⟨tracker, (c.jobTracker.assignMap t).task, .assigned⟩ outputs =
      .map (c.jobTracker.assignMap t).task.taskId (Int32.ofNat (if (outputs tracker).keys = [] then 0 else 1))
        (env.host tracker) (env.shufflePort tracker) := by
    rw [endReport, reportTaskComplete, htype, length_partitions (hzero' tracker)]
  rw [hreport] at hlast
  rw [show c' = _ from hlast]
  refine ⟨⟨_, rfl, ?_, fun hholds => ?_⟩, by simp, fun hholds => heff.keys tracker hholds, hzero'⟩
  · rw [List.length_map, List.length_range]
    split
    · exact Nat.zero_le _
    · exact le_rfl
  · rw [List.length_map, List.length_range, if_neg (heff.keys tracker hholds)]
    rfl

/-- The tracker does `m` map tasks, from the `n`-th thread on. -/
def mapRounds (tracker : ι) : Nat → Nat → List (Event ι)
  | _, 0 => []
  | n, m + 1 => mapRound tracker n ++ mapRounds tracker (n + 1) m

omit [DecidableEq ι] in
theorem singleJob_mapRounds (tracker : ι) : ∀ n m : Nat, SingleJob (mapRounds tracker n m)
  | _, 0 => fun e he => absurd he List.not_mem_nil
  | n, m + 1 => by
    intro e he
    rcases List.mem_append.1 he with he | he
    · simp only [mapRound, List.mem_cons, List.not_mem_nil, or_false] at he
      rcases he with rfl | rfl | rfl | rfl <;> rfl
    · exact singleJob_mapRounds tracker (n + 1) m e he

/-- When a tracker has done all map tasks, there is at most one location for each, and exactly one if it had outputs
before. -/
theorem after_mapRounds (tracker : ι) : ∀ (m : Nat) {c : Cluster ι}, (∀ tracker, ∀ key ∈ c.outputs tracker, key.2 = 0) →
    c.jobTracker.pendingMaps.length = m → (∀ t ∈ c.jobTracker.pendingMaps, t.type = .kMap) →
    ∃ locs, (after (step env) c (mapRounds tracker c.threads.length m)).jobTracker = { c.jobTracker with
        pendingMaps := []
        mapsCompleted := c.jobTracker.mapsCompleted + m
        mapOutputLocations := c.jobTracker.mapOutputLocations ++ locs } ∧
      locs.length ≤ m ∧ (c.Holds tracker → locs.length = m)
  | 0, c, _, hlen, _ => by
    refine ⟨[], ?_, le_rfl, fun _ => rfl⟩
    rw [List.append_nil, Nat.add_zero, ← List.length_eq_zero_iff.1 hlen]
    rfl
  | m + 1, c, hzero, hlen, htypes => by
    obtain ⟨ts, t, hm⟩ : ∃ ts t, c.jobTracker.pendingMaps = ts ++ [t] := by
      rcases List.eq_nil_or_concat c.jobTracker.pendingMaps with hnil | ⟨ts, t, hm⟩
      · rw [hnil] at hlen; cases hlen
      · exact ⟨ts, t, by rw [hm, List.concat_eq_append]⟩
    obtain ⟨⟨locs, hjob, hle, hone⟩, hthreads, hholds, hzero'⟩ :=
      @after_mapRound _ _ env c hzero ts t hm (htypes t (by rw [hm]; simp)) tracker
    obtain ⟨locs', hjob', hle', hone'⟩ := after_mapRounds tracker m hzero'
      (by rw [hjob]; rw [hm, List.length_append] at hlen; simpa using hlen)
      (by rw [hjob]; exact fun t' ht' => htypes t' (by rw [hm]; exact List.mem_append_left _ ht'))
    rw [mapRounds, after_append, ← hthreads]
    refine ⟨locs ++ locs', ?_, ?_, fun hh => ?_⟩
    · rw [hjob', hjob, List.append_assoc, Nat.add_assoc, Nat.add_comm 1 m]
    · rw [List.length_append]; omega
    · rw [List.length_append, hone hh, hone' (hholds hh), Nat.add_comm]

end Cluster

/-! ## The next job -/

/-- With no pending task, and all map tasks reported, a poll makes the next reduce task if there is one. -/
theorem DistJobTracker.pollForTask_reduce {s : DistJobTracker} (hmaps : s.pendingMaps = [])
    (hreduces : s.pendingReduces = []) (hdone : s.numMaps.toInt ≤ s.mapsCompleted) : s.pollForTask.2 =
      if (s.pendingReducesCreated : Int) < s.numReduces.toInt then some (s.reduceAssignment s.pendingReducesCreated)
      else none := by
  unfold pollForTask
  rw [hmaps, List.getLast?_nil]
  by_cases hmore : (s.pendingReducesCreated : Int) < s.numReduces.toInt
  · have hc : s.createReduce = { s with
        pendingReducesCreated := s.pendingReducesCreated + 1
        pendingReduces := s.pendingReduces ++ [s.reduceTask s.pendingReducesCreated] } := if_pos ⟨hdone, hmore⟩
    rw [if_pos hmore, hc, hreduces]
    rfl
  · have hc : s.createReduce = s := if_neg fun h => hmore h.2
    rw [if_neg hmore, hc]
    simp only [hreduces, List.getLast?_nil]

namespace Cluster

variable [DecidableEq ι] {env : Setup ι} {c : Cluster ι}

/-- The cluster after a submission, without the threads and calls of the past. -/
def restart (env : Setup ι) (c : Cluster ι) (inputPath outputPath : Bytes) (numMaps numReduces : Int32) : Cluster ι :=
  { c.step env (.submit inputPath outputPath numMaps numReduces) with threads := [], calls := [] }

theorem observations_eq (env : Setup ι) (c : Cluster ι) (inputPath outputPath : Bytes) (numMaps numReduces : Int32)
    (es : List (Event ι)) :
    observations env c inputPath outputPath numMaps numReduces (es.map (Event.shift c.threads.length)) =
      ⟨none, [], c.jobTracker.isJobDone⟩ ::
        trace (step env) (observe env) (c.restart env inputPath outputPath numMaps numReduces) es := by
  have hbehind : c.step env (.submit inputPath outputPath numMaps numReduces) =
      (c.restart env inputPath outputPath numMaps numReduces).behind c.threads c.calls := by
    rw [behind, restart, List.append_nil, List.append_nil]
    rfl
  rw [observations, trace, hbehind, trace_behind]
  rfl

/-- A job is independent when the flag is down and it goes on as on fresh trackers. -/
theorem independent_iff_restart (env : Setup ι) (c : Cluster ι) (inputPath outputPath : Bytes)
    (numMaps numReduces : Int32) :
    Independent env c inputPath outputPath numMaps numReduces ↔
      c.jobTracker.isJobDone = false ∧ ∀ es : List (Event ι), SingleJob es →
        trace (step env) (observe env) (c.restart env inputPath outputPath numMaps numReduces) es =
          trace (step env) (observe env) (restart env { files := c.files } inputPath outputPath numMaps numReduces) es := by
  have hfresh : ∀ es : List (Event ι), observations env { files := c.files } inputPath outputPath numMaps numReduces es =
      ⟨none, [], false⟩ ::
        trace (step env) (observe env) (restart env { files := c.files } inputPath outputPath numMaps numReduces) es :=
    fun es => rfl
  simp only [Independent, observations_eq, hfresh]
  constructor
  · intro h
    refine ⟨?_, fun es hes => (List.cons.inj (h es hes)).2⟩
    have hhead := (List.cons.inj (h [] fun e he => absurd he List.not_mem_nil)).1
    exact congrArg Observation.done hhead
  · rintro ⟨hdone, htrace⟩ es hes
    rw [hdone, htrace es hes]

/-- The JobTracker of a restarted cluster that has finished its job: what only the submission sets is as on a fresh
one. -/
theorem restart_jobTracker (hmaps : c.jobTracker.pendingMaps = []) (hreduces : c.jobTracker.pendingReduces = [])
    (hdone : c.jobTracker.isJobDone = false) (inputPath outputPath : Bytes) (numMaps numReduces : Int32) :
    (c.restart env inputPath outputPath numMaps numReduces).jobTracker =
      (restart env { files := c.files } inputPath outputPath numMaps numReduces).jobTracker.stale
        c.jobTracker.pendingReducesCreated c.jobTracker.mapOutputLocations := by
  have hflag : c.jobTracker.jobDone = false := hdone
  simp only [restart, step, DistJobTracker.submitJob, DistJobTracker.stale, hmaps, hreduces, hflag]

/-- Without reduce tasks the job goes on as on fresh trackers. -/
theorem trace_restart_of_none (hmaps : c.jobTracker.pendingMaps = []) (hreduces : c.jobTracker.pendingReduces = [])
    (hdone : c.jobTracker.isJobDone = false) (inputPath outputPath : Bytes) (numMaps : Int32) {numReduces : Int32}
    (hnone : numReduces.toInt ≤ 0) {es : List (Event ι)} (hes : SingleJob es) :
    trace (step env) (observe env) (c.restart env inputPath outputPath numMaps numReduces) es =
      trace (step env) (observe env) (restart env { files := c.files } inputPath outputPath numMaps numReduces) es := by
  have hstart : MapsOnly (c.restart env inputPath outputPath numMaps numReduces)
      (restart env { files := c.files } inputPath outputPath numMaps numReduces) := by
    refine ⟨⟨_, _, restart_jobTracker hmaps hreduces hdone inputPath outputPath numMaps numReduces⟩, hnone, rfl, ?_, rfl,
      fun th hth => absurd hth List.not_mem_nil, rfl⟩
    intro t ht
    obtain ⟨i, -, rfl⟩ := List.mem_map.1 (show t ∈ (List.range _).map _ from ht)
    rfl
  have h := @trace_eq_of_rel _ _ _ (step env) _ _ (step env) (observe env) (observe env) MapsOnly
    (fun e => e.isSubmit = false) id (fun c c' e he h => h.step he) es _ _ hes hstart
  rwa [List.map_id] at h

/-- With nothing left behind the restarted cluster is a fresh one. -/
theorem restart_eq (hmaps : c.jobTracker.pendingMaps = []) (hreduces : c.jobTracker.pendingReduces = [])
    (hdone : c.jobTracker.isJobDone = false) (hcreated : c.jobTracker.pendingReducesCreated = 0)
    (hlocs : c.jobTracker.mapOutputLocations = []) (houtputs : ∀ tracker, ¬ c.Holds tracker)
    (inputPath outputPath : Bytes) (numMaps numReduces : Int32) :
    c.restart env inputPath outputPath numMaps numReduces =
      restart env { files := c.files } inputPath outputPath numMaps numReduces := by
  have hempty : c.outputs = fun _ => ∅ := by
    funext tracker
    have hkeys : (c.outputs tracker).keys = [] := not_not.1 (houtputs tracker)
    exact AList.ext (List.map_eq_nil_iff.1 hkeys)
  have hflag : c.jobTracker.jobDone = false := hdone
  simp only [restart, step, DistJobTracker.submitJob, hmaps, hreduces, hflag, hcreated, hlocs, hempty]

/-- When a tracker has done all map tasks and polls once more, it gets the next reduce task with all locations. -/
theorem poll_after_mapRounds (hzero : ∀ tracker, ∀ key ∈ c.outputs tracker, key.2 = 0) (hthreads : c.threads = [])
    (htypes : ∀ t ∈ c.jobTracker.pendingMaps, t.type = .kMap) (hnone : c.jobTracker.pendingReduces = [])
    (hall : c.jobTracker.numMaps.toInt ≤ c.jobTracker.pendingMaps.length) (tracker : ι) :
    ∃ locs, locs.length ≤ c.jobTracker.pendingMaps.length ∧
      (c.Holds tracker → locs.length = c.jobTracker.pendingMaps.length) ∧
      (after (step env) c (mapRounds tracker 0 c.jobTracker.pendingMaps.length)).jobTracker.pollForTask.2 =
        if (c.jobTracker.pendingReducesCreated : Int) < c.jobTracker.numReduces.toInt then
          some ((c.jobTracker.stale c.jobTracker.pendingReducesCreated
            (c.jobTracker.mapOutputLocations ++ locs)).reduceAssignment c.jobTracker.pendingReducesCreated)
        else none := by
  obtain ⟨locs, hafter, hle, hone⟩ := @after_mapRounds _ _ env tracker _ c hzero rfl htypes
  rw [hthreads, List.length_nil] at hafter
  refine ⟨locs, hle, hone, ?_⟩
  have hdone : c.jobTracker.numMaps.toInt ≤
      ((c.jobTracker.mapsCompleted + c.jobTracker.pendingMaps.length : Nat) : Int) := by
    push_cast
    omega
  rw [DistJobTracker.pollForTask_reduce (by rw [hafter]) (by rw [hafter]; exact hnone) (by rw [hafter]; exact hdone),
    hafter]
  rfl

/-- With reduce tasks the job goes on as on fresh trackers only if no reduce task had been made before and, where there
are outputs, no location is known. -/
theorem clean_of_trace_restart (hzero : ∀ tracker, ∀ key ∈ c.outputs tracker, key.2 = 0)
    (hmaps : c.jobTracker.pendingMaps = []) (hreduces : c.jobTracker.pendingReduces = [])
    (hdone : c.jobTracker.isJobDone = false) {inputPath outputPath : Bytes} {numMaps numReduces : Int32}
    (hsome : 0 < numReduces.toInt)
    (h : ∀ es : List (Event ι), SingleJob es →
      trace (step env) (observe env) (c.restart env inputPath outputPath numMaps numReduces) es =
        trace (step env) (observe env) (restart env { files := c.files } inputPath outputPath numMaps numReduces) es)
    (tracker : ι) :
    c.jobTracker.pendingReducesCreated = 0 ∧ (c.Holds tracker → c.jobTracker.mapOutputLocations = []) := by
  have hjob := @restart_jobTracker _ _ env c hmaps hreduces hdone inputPath outputPath numMaps numReduces
  have hpending : (c.restart env inputPath outputPath numMaps numReduces).jobTracker.pendingMaps =
      (restart env { files := c.files } inputPath outputPath numMaps numReduces).jobTracker.pendingMaps := by
    rw [hjob]; rfl
  have htypes : ∀ t ∈ (restart env { files := c.files } inputPath outputPath numMaps numReduces).jobTracker.pendingMaps,
      t.type = .kMap := by
    intro t ht
    obtain ⟨i, -, rfl⟩ := List.mem_map.1 (show t ∈ (List.range _).map _ from ht)
    rfl
  have hlen : (restart env { files := c.files } inputPath outputPath numMaps numReduces).jobTracker.pendingMaps.length =
      numMaps.toNatClampNeg := by
    simp [restart, step, DistJobTracker.submitJob]
  have hall : numMaps.toInt ≤ (numMaps.toNatClampNeg : Int) := by
    unfold Int32.toNatClampNeg
    omega
  -- one tracker does all map tasks, and polls once more
  obtain ⟨locs, -, hone, hpoll⟩ := @poll_after_mapRounds _ _ env (c.restart env inputPath outputPath numMaps numReduces)
    hzero rfl (by rw [hpending]; exact htypes) hreduces (by rw [hpending, hlen]; exact hall) tracker
  obtain ⟨locs', hle, -, hpoll'⟩ := @poll_after_mapRounds _ _ env
    (restart env { files := c.files } inputPath outputPath numMaps numReduces)
    (fun _ key hkey => absurd hkey (AList.notMem_empty key)) rfl htypes rfl (by rw [hlen]; exact hall) tracker
  rw [hpending, hlen] at hone hpoll
  rw [hlen] at hle hpoll'
  have hes : SingleJob (mapRounds tracker 0 numMaps.toNatClampNeg ++ [.poll tracker]) := by
    intro e he
    rcases List.mem_append.1 he with he | he
    · exact singleJob_mapRounds tracker _ _ e he
    · rw [List.mem_singleton.1 he]; rfl
  have hlast := h _ hes
  rw [trace_snoc, trace_snoc] at hlast
  have hassign := pollForTask_of_observe
    (List.append_inj' hlast ((length_observe ..).trans (length_observe ..).symm)).2
  rw [hpoll, hpoll'.trans (if_pos hsome)] at hassign
  split at hassign
  · have heq := Option.some.inj hassign
    have hid : bytes "job_001" ++ bytes "_r_" ++ decimal c.jobTracker.pendingReducesCreated =
        bytes "job_001" ++ bytes "_r_" ++ decimal 0 := congrArg Assignment.taskId heq
    have hlocs : c.jobTracker.mapOutputLocations ++ locs = [] ++ locs' := congrArg Assignment.mapOutputs heq
    refine ⟨decimal_injective (List.append_cancel_left hid), fun hholds => ?_⟩
    have hlength := congrArg List.length hlocs
    rw [List.length_append, hone hholds, List.nil_append] at hlength
    exact List.length_eq_zero_iff.1 (by omega)
  · cases hassign

end Cluster

/-! ## After a job that was run to its end -/

section Finished

variable {env : Setup ι} {c : Cluster ι} {inputPath outputPath : Bytes} {numMaps numReduces : Int32}

/-- When the counters are full nothing is pending, all reduce tasks have been made and all threads are through. -/
theorem OneJob.finished (h : OneJob env inputPath outputPath numMaps numReduces c) (hfull : c.jobTracker.Full) :
    c.jobTracker.pendingMaps = [] ∧ c.jobTracker.pendingReduces = [] ∧
      c.jobTracker.pendingReducesCreated = numReduces.toNatClampNeg ∧ ∀ th ∈ c.threads, th.phase = .reported := by
  have hreduce := fun th => @OneJob.reduce_thread _ _ _ _ _ _ _ th h
  obtain ⟨s, hs, hf⟩ := h
  obtain ⟨p, hc⟩ := hs.current
  obtain ⟨-, -, -, -, hnumReduces⟩ := DistJobTracker.job_parts hs.job
  rw [← hf.jobTracker] at hfull ⊢
  obtain ⟨rfl, hmapsDone⟩ := hc.maps_reported hfull.1
  have hcreated := hc.created.2
  refine ⟨hs.sole.pendingMaps hc, hc.pendingReduces, ?_, fun th hth => ?_⟩
  · by_cases hpos : 0 < s.jobTracker.numReduces.toInt
    · rw [← hnumReduces]; exact (hc.reduces_reported hpos hfull.2).2.1
    · rw [hnumReduces] at hcreated hpos
      unfold Int32.toNatClampNeg at hcreated ⊢
      omega
  · obtain ⟨j, hj⟩ := List.mem_iff_getElem?.1 hth
    obtain ⟨o, ho, htask, hreported⟩ := hf.handedOut hj
    have hmem := List.mem_of_getElem? ho
    have hjob := hs.sole.handedOut o hmem
    have htype : o.assignment.type = th.task.type := by rw [← htask, Assignment.type_task]
    refine hreported.1 ?_
    cases hth' : th.task.type with
    | kMap => exact hmapsDone o hmem hjob (htype.trans hth')
    | kReduce =>
      obtain ⟨-, r, hr, -⟩ := hreduce th hth hth'
      have hpos : 0 < s.jobTracker.numReduces.toInt := by
        rw [hnumReduces]
        unfold Int32.toNatClampNeg at hr
        omega
      exact (hc.reduces_reported hpos hfull.2).2.2 o hmem hjob (htype.trans hth')

/-- A job that has made reduce tasks has threads. -/
theorem OneJob.exists_thread (h : OneJob env inputPath outputPath numMaps numReduces c)
    (hpos : 0 < c.jobTracker.pendingReducesCreated) : ∃ th, th ∈ c.threads := by
  obtain ⟨p, htasks⟩ := h.map_task
  have hmem : (c.jobTracker.reduceAssignment 0).task ∈ c.threads.map (·.task) := by
    rw [htasks]
    refine List.mem_map_of_mem (List.mem_append_right _ (List.mem_map_of_mem ?_))
    rw [List.mem_range'_1]
    omega
  obtain ⟨th, hth, -⟩ := List.mem_map.1 hmem
  exact ⟨th, hth⟩

/-- When all has been reported and no location is known, no tracker has any output. -/
theorem Stocked.not_holds (h : Stocked c) (hall : ∀ th ∈ c.threads, th.phase = .reported)
    (hlocs : c.jobTracker.mapOutputLocations = []) (tracker : ι) : ¬ c.Holds tracker := by
  intro hholds
  rcases h.kept tracker hholds with hne | ⟨th, hth, hwill⟩
  · exact hne hlocs
  · exact hwill.phase.2 (hall th hth)

end Finished

namespace Cluster

variable [DecidableEq ι] {env : Setup ι}

/-- A job that is submitted after another one was run to its end shows the same as on fresh trackers, whatever happens, if
and only if the flag is down and it has no reduce tasks, or the job before had none and left no location. -/
theorem independent_iff {es : List (Event ι)} (hjob : SingleJob es) (files : HashMap Bytes Bytes)
    (inputPath outputPath : Bytes) (numMaps numReduces : Int32)
    (hfull : (runJob env files inputPath outputPath numMaps numReduces es).jobTracker.Full)
    (inputPath' outputPath' : Bytes) (numMaps' numReduces' : Int32) :
    let c := runJob env files inputPath outputPath numMaps numReduces es
    Independent env c inputPath' outputPath' numMaps' numReduces' ↔
      c.jobTracker.isJobDone = false ∧
        (numReduces'.toInt ≤ 0 ∨ (numReduces.toInt ≤ 0 ∧ c.jobTracker.mapOutputLocations = [])) := by
  intro c
  have hone : OneJob env inputPath outputPath numMaps numReduces c :=
    runJob_oneJob hjob files inputPath outputPath numMaps numReduces
  have hstocked : Stocked c := ((Stocked.initial files).step _).run es
  obtain ⟨hmaps, hreduces, hcreated, hall⟩ := hone.finished hfull
  rw [independent_iff_restart]
  constructor
  · rintro ⟨hdone, htrace⟩
    refine ⟨hdone, ?_⟩
    by_cases hnone : numReduces'.toInt ≤ 0
    · exact .inl hnone
    · have hclean := clean_of_trace_restart hstocked.zero hmaps hreduces hdone (not_le.1 hnone) htrace
      refine .inr ⟨?_, ?_⟩
      · by_contra hpos
        have hpos : 0 < c.jobTracker.pendingReducesCreated := by
          rw [hcreated]
          unfold Int32.toNatClampNeg
          omega
        obtain ⟨th, -⟩ := hone.exists_thread hpos
        have := (hclean th.tracker).1
        omega
      · by_contra hne
        obtain ⟨tracker, hholds⟩ := hstocked.located hne
        exact hne ((hclean tracker).2 hholds)
  · rintro ⟨hdone, hnone | ⟨hnone, hlocs⟩⟩
    · exact ⟨hdone, fun es' hes' => trace_restart_of_none hmaps hreduces hdone inputPath' outputPath' numMaps' hnone hes'⟩
    · refine ⟨hdone, fun es' _ => ?_⟩
      have hzero : c.jobTracker.pendingReducesCreated = 0 := by
        rw [hcreated]
        unfold Int32.toNatClampNeg
        omega
      rw [restart_eq hmaps hreduces hdone hzero hlocs (hstocked.not_holds hall hlocs)]

/-- After a job of one map task, which nobody has asked about since its report. -/
theorem independent_oneMap :
    let c := runJob countLines oneLine (bytes "in") (bytes "out") 1 0 [.poll true, .execute 0, .prepare 0, .deliver 0]
    Independent countLines c (bytes "in") (bytes "out") 1 0 ↔
      c.jobTracker.isJobDone = false ∧
        (Int32.toInt 0 ≤ 0 ∨ (Int32.toInt 0 ≤ 0 ∧ c.jobTracker.mapOutputLocations = [])) :=
  independent_iff (by decide) oneLine (bytes "in") (bytes "out") 1 0 ⟨by decide +kernel, by decide +kernel⟩ (bytes "in")
    (bytes "out") 1 0

/-- A job of one map and one reduce task, to its end. -/
def oneEach : List (Event Bool) :=
  [.poll true, .execute 0, .prepare 0, .deliver 0, .poll true, .execute 1, .prepare 1, .deliver 1, .poll true]

/-- The same job again is done as soon as it is submitted, and gets no reduce task. -/
theorem second_job_differs : ¬ ∀ (env : Setup Bool) (es : List (Event Bool)), SingleJob es →
    ∀ (files : HashMap Bytes Bytes) (inputPath outputPath : Bytes) (numMaps numReduces : Int32),
      (runJob env files inputPath outputPath numMaps numReduces es).jobTracker.Full →
      (runJob env files inputPath outputPath numMaps numReduces es).jobTracker.isJobDone = true →
        ∀ (inputPath' outputPath' : Bytes) (numMaps' numReduces' : Int32),
          Independent env (runJob env files inputPath outputPath numMaps numReduces es) inputPath' outputPath' numMaps'
            numReduces' := by
  intro h
  have hsame := h countLines oneEach (by decide) oneLine (bytes "in") (bytes "out") 1 1
    ⟨by decide +kernel, by decide +kernel⟩ (by decide +kernel) (bytes "in") (bytes "out") 1 1
    [.poll true, .execute 0, .prepare 0, .deliver 0, .poll true] (by decide)
  exact absurd hsame (by decide +kernel)

end Cluster

end MiniHadoop.Mapred

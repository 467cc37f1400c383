/-
How a distributed job ends when every poll gets its own answer. Every step of its processes that changes anything takes it
nearer to its end, in whatever order the steps are taken, and the processes come to rest exactly when `IsJobDone()` says
so. So no task is waited for that nobody has. A task that is never reported keeps the job from its end, since it is not
handed out again: so does one whose answer another call takes off the connection.
-/
import MiniHadoop.Mapred.Completion
import MiniHadoop.Mapred.Shuffle

namespace MiniHadoop.Mapred

open Text Runs

/-! ## What is left to do -/

/-- The steps a thread has before it. -/
def Phase.left : Phase → Nat
  | .assigned => 3
  | .executed => 2
  | .reporting _ => 1
  | .reported => 0

namespace DistJobTracker

variable {s : DistJobTracker}

/-- The polls that have a task before them, each with the three steps of its thread, and the one that ends the job. -/
def left (s : DistJobTracker) : Nat :=
  4 * (s.pendingMaps.length + s.pendingReduces.length + (s.numReduces.toNatClampNeg - s.pendingReducesCreated)) +
    if s.jobDone = true ∧ s.jobState = .kSucceeded then 0 else 1

theorem left_createReduce (s : DistJobTracker) : s.createReduce.left = s.left := by
  rcases s.createReduce_cases with hc | ⟨⟨-, hlt⟩, hc⟩
  · rw [hc]
  · have hcreated : s.pendingReducesCreated < s.numReduces.toNatClampNeg := by
      unfold Int32.toNatClampNeg
      omega
    rw [hc, left, left]
    simp only [List.length_append, List.length_singleton]
    omega

/-- A poll without a task changes nothing, or ends the job. -/
theorem left_finishJob (s : DistJobTracker) : s.finishJob = s ∨ s.finishJob.left < s.left := by
  rcases s.finishJob_cases with hf | ⟨-, hf⟩
  · exact .inl hf
  · by_cases hended : s.jobDone = true ∧ s.jobState = .kSucceeded
    · left
      rw [hf, ← hended.1, ← hended.2]
    · right
      rw [hf, left, left, if_neg hended, if_pos ⟨rfl, rfl⟩]
      exact Nat.lt_succ_self _

/-- A reduce task is made only to be handed out. -/
theorem createReduce_eq (h : s.createReduce.pendingReduces = []) :
    s.createReduce = s ∧ ¬ (s.numMaps.toInt ≤ s.mapsCompleted ∧ s.pendingReducesCreated < s.numReduces.toInt) := by
  unfold createReduce at h ⊢
  split at h
  · exact absurd h (List.append_ne_nil_of_right_ne_nil _ (List.cons_ne_nil _ _))
  · rename_i hno
    exact ⟨if_neg hno, hno⟩

theorem left_pollForTask (s : DistJobTracker) :
    (∃ t a, s.pollForTask = (t, some a) ∧ t.left + 4 = s.left) ∨
      ∃ t, s.pollForTask = (t, none) ∧ (t = s ∨ t.left < s.left) := by
  rcases s.pollForTask_cases with ⟨ts, t, hm, hpoll⟩ | ⟨-, rs, t, hr, hpoll⟩ | ⟨-, hr, hpoll⟩
  · refine .inl ⟨_, _, hpoll, ?_⟩
    rw [left, left, hm]
    simp only [List.length_append, List.length_singleton]
    omega
  · refine .inl ⟨_, _, hpoll, ?_⟩
    rw [← left_createReduce s, left, left, hr]
    simp only [List.length_append, List.length_singleton]
    omega
  · refine .inr ⟨_, hpoll, ?_⟩
    rw [(createReduce_eq hr).1]
    exact s.left_finishJob

theorem left_taskCompleted (s : DistJobTracker) (c : Completion) : (s.taskCompleted c).left = s.left := by
  cases c <;> rfl

end DistJobTracker

namespace Cluster

variable {ι : Type} {env : Setup ι} {c : Cluster ι} {j : Nat} {th : Thread ι}

/-- What is left of a job. -/
def left (c : Cluster ι) : Nat := c.jobTracker.left + (c.threads.map (·.phase.left)).sum

theorem left_setPhase (hj : c.threads[j]? = some th) (phase : Phase) :
    (c.setPhase j th phase).left + th.phase.left = c.left + phase.left := by
  have hsum := @Counting.sum_map_set_add _ _ _ _ { th with phase } hj (·.phase.left)
  unfold left setPhase
  dsimp only at hsum ⊢
  omega

variable [DecidableEq ι]

theorem left_execute (hj : c.threads[j]? = some th) (hp : th.phase = .assigned) :
    (c.execute env j th).left < c.left := by
  have hset := left_setPhase hj .executed
  have hsame : (c.execute env j th).left = (c.setPhase j th .executed).left := by
    unfold execute
    cases th.task.type <;> rfl
  rw [hp] at hset
  rw [hsame]
  simp only [Phase.left] at hset
  omega

/-- A step changes nothing, or leaves less to do. -/
theorem left_step (c : Cluster ι) {e : Event ι} (he : e.isSubmit = false) :
    c.step env e = c ∨ (c.step env e).left < c.left := by
  rcases c.step_cases env he with ⟨hstep, -⟩ | ⟨tracker, t, a, -, hpoll, hstep⟩ | ⟨tracker, t, -, hpoll, hstep⟩ |
    ⟨j, th, -, hj, hp, hstep⟩ | ⟨j, th, -, hj, hp, hstep⟩ | ⟨j, th, message, -, hj, hp, hstep⟩
  · exact .inl hstep
  · right
    rcases c.jobTracker.left_pollForTask with ⟨t', a', hpoll', hleft⟩ | ⟨t', hpoll', -⟩
    · cases hpoll.symm.trans hpoll'
      rw [hstep, left, left, List.map_append, List.sum_append]
      simp only [List.map_cons, List.map_nil, List.sum_cons, List.sum_nil, Phase.left]
      omega
    · cases hpoll.symm.trans hpoll'
  · rcases c.jobTracker.left_pollForTask with ⟨t', a', hpoll', -⟩ | ⟨t', hpoll', hsame | hleft⟩
    · cases hpoll.symm.trans hpoll'
    · cases hpoll.symm.trans hpoll'
      exact .inl (by rw [hstep, hsame])
    · cases hpoll.symm.trans hpoll'
      right
      rw [hstep, left, left]
      exact Nat.add_lt_add_right hleft _
  · rw [hstep]
    exact .inr (left_execute hj hp)
  · have hset := left_setPhase hj (.reporting (reportTaskComplete (env.host th.tracker) (env.shufflePort th.tracker)
      (c.outputs th.tracker) th.task))
    rw [hp] at hset
    rw [hstep]
    simp only [Phase.left] at hset
    exact .inr (by omega)
  · have hset := left_setPhase hj .reported
    have hsame : Cluster.left { c.setPhase j th .reported with jobTracker := c.jobTracker.taskCompleted message } =
        (c.setPhase j th .reported).left := by
      unfold left
      rw [DistJobTracker.left_taskCompleted]
      rfl
    rw [hp] at hset
    rw [hstep, hsame]
    simp only [Phase.left] at hset
    exact .inr (by omega)

end Cluster

/-! ## When the counters are full -/

namespace DistJobTracker

/-- The flag is set with the state of a job whose counters are full. -/
def Ended (s : DistJobTracker) : Prop := s.jobDone = true → s.Full ∧ s.jobState = .kSucceeded

theorem Ended.pollForTask {s : DistJobTracker} (h : s.Ended) : s.pollForTask.1.Ended := by
  have hcreate : s.createReduce.Ended := by
    rcases s.createReduce_cases with hc | ⟨-, hc⟩
    · rw [hc]; exact h
    · rw [hc]; exact h
  rcases s.pollForTask_cases with ⟨ts, t, -, hpoll⟩ | ⟨-, rs, t, -, hpoll⟩ | ⟨-, -, hpoll⟩
  · rw [hpoll]; exact h
  · rw [hpoll]; exact hcreate
  · rw [hpoll]
    rcases s.createReduce.finishJob_cases with hf | ⟨hfull, hf⟩
    · rw [hf]; exact hcreate
    · rw [hf]; exact fun _ => ⟨hfull, rfl⟩

theorem Ended.taskCompleted {s : DistJobTracker} (h : s.Ended) (c : Completion) : (s.taskCompleted c).Ended := by
  intro hdone
  obtain ⟨hmaps, hreduces, hsame⟩ := s.taskCompleted_counters c
  obtain ⟨hfull, hstate⟩ := h (hsame.symm.trans hdone)
  refine ⟨hfull.mono (s.taskCompleted_job c) hmaps hreduces, ?_⟩
  cases c <;> exact hstate

end DistJobTracker

section SingleJob

variable {inputPath outputPath : Bytes} {numMaps numReduces : Int32}

namespace Single

variable {s : Session} (h : Single (bytes "job_001", inputPath, outputPath, numMaps, numReduces) s)

include h

/-- The tasks of one kind have all been reported when the counter says that as many were as have been handed out. -/
theorem reported_iff (type : TaskType) :
    s.reportedCount type = (s.assignments.countP fun a => a.type = type) ↔
      ∀ o ∈ s.handedOut, o.assignment.type = type → o.reported = true := by
  constructor
  · exact fun heq o ho htype => Session.reported_of_le heq.ge ho (h.sole.handedOut o ho) htype
  · intro hall
    rw [← Session.countP_currentOf]
    refine List.countP_congr fun o ho => ?_
    simp only [Session.currentOf, Session.current, Bool.and_eq_true, decide_eq_true_eq]
    exact ⟨fun hboth => hboth.1, fun hcurrent => ⟨hcurrent, hall o ho hcurrent.2⟩⟩

/-- All map tasks have been reported: none is pending, and those handed out have been. -/
theorem maps_iff : numMaps.toInt ≤ s.jobTracker.mapsCompleted ↔
    s.jobTracker.pendingMaps = [] ∧ ∀ o ∈ s.handedOut, o.assignment.type = .kMap → o.reported = true := by
  obtain ⟨p, hc⟩ := h.current
  obtain ⟨-, -, -, hmaps, -⟩ := DistJobTracker.job_parts h.job
  have hcount := s.jobTracker.countP_plan_kMap p 0
  have hle := s.reportedCount_le .kMap
  have hp := hc.pending_le
  rw [← hc.assignments, hmaps] at hcount
  rw [hmaps] at hp
  rw [← h.reported_iff, h.sole.pendingMaps hc, List.map_eq_nil_iff, List.range_eq_nil, hc.mapsCompleted]
  unfold Int32.toNatClampNeg at hcount hp
  omega

/-- All reduce tasks have been reported: all have been made, and those handed out have been reported. -/
theorem reduces_iff : numReduces.toInt ≤ s.jobTracker.reducesCompleted ↔
    s.jobTracker.pendingReducesCreated = numReduces.toNatClampNeg ∧
      ∀ o ∈ s.handedOut, o.assignment.type = .kReduce → o.reported = true := by
  obtain ⟨p, hc⟩ := h.current
  obtain ⟨-, -, -, -, hreduces⟩ := DistJobTracker.job_parts h.job
  have hcount := s.jobTracker.countP_plan_kReduce p 0
  have hle := s.reportedCount_le .kReduce
  have hcreated := hc.created.2
  rw [← hc.assignments] at hcount
  rw [hreduces] at hcreated
  rw [← h.reported_iff, hc.reducesCompleted]
  unfold Int32.toNatClampNeg at hcreated ⊢
  omega

end Single

/-! ## Rest -/

variable {ι : Type} {env : Setup ι} {c : Cluster ι}

/-- The threads show what has been reported. -/
theorem Follows.reported_iff {s : Session} (h : Follows env c s) (type : TaskType) :
    (∀ o ∈ s.handedOut, o.assignment.type = type → o.reported = true) ↔
      ∀ th ∈ c.threads, th.task.type = type → th.phase = .reported := by
  have hthreads := congrArg (fun l => ∀ x ∈ l, x.1.type = type → x.2 = true) h.threads
  simp only [List.forall_mem_map, Assignment.type_task, decide_eq_true_eq] at hthreads
  exact Iff.of_eq hthreads.symm

/-- A cluster with a single job, whose flag is right. -/
structure Ending (env : Setup ι) (inputPath outputPath : Bytes) (numMaps numReduces : Int32) (c : Cluster ι) : Prop where
  oneJob : OneJob env inputPath outputPath numMaps numReduces c
  ended : c.jobTracker.Ended

namespace Ending

variable (h : Ending env inputPath outputPath numMaps numReduces c)

include h

theorem maps_iff : numMaps.toInt ≤ c.jobTracker.mapsCompleted ↔
    c.jobTracker.pendingMaps = [] ∧ ∀ th ∈ c.threads, th.task.type = .kMap → th.phase = .reported := by
  obtain ⟨s, hs, hf⟩ := h.oneJob
  rw [← hf.reported_iff, ← hf.jobTracker]
  exact hs.maps_iff

theorem reduces_iff : numReduces.toInt ≤ c.jobTracker.reducesCompleted ↔
    c.jobTracker.pendingReducesCreated = numReduces.toNatClampNeg ∧
      ∀ th ∈ c.threads, th.task.type = .kReduce → th.phase = .reported := by
  obtain ⟨s, hs, hf⟩ := h.oneJob
  rw [← hf.reported_iff, ← hf.jobTracker]
  exact hs.reduces_iff

theorem full_iff : c.jobTracker.Full ↔
    numMaps.toInt ≤ c.jobTracker.mapsCompleted ∧ numReduces.toInt ≤ c.jobTracker.reducesCompleted := by
  obtain ⟨-, -, -, hmaps, hreduces⟩ := DistJobTracker.job_parts h.oneJob.job
  rw [DistJobTracker.Full, hmaps, hreduces]

/-- When all tasks have been reported, there is a thread for each, and it has executed the task. -/
theorem executed (hfull : c.jobTracker.Full) :
    c.MapsExecuted numMaps.toNatClampNeg ∧ c.ReducesExecuted numReduces.toNatClampNeg := by
  obtain ⟨hmaps, hreduces⟩ := h.full_iff.1 hfull
  obtain ⟨hcreated, hreported⟩ := h.reduces_iff.1 hreduces
  refine ⟨fun i hi => ?_, fun r hr => ?_⟩
  · obtain ⟨hperm, hall⟩ := h.oneJob.maps_reported hmaps
    obtain ⟨th, hth, hid⟩ := List.mem_map.1 (hperm.mem_iff.2 (List.mem_map_of_mem (List.mem_range.2 hi)))
    obtain ⟨hth, htype⟩ := List.mem_filter.1 hth
    have hmap : th.task.type = .kMap := by simpa [Thread.isMap] using htype
    refine ⟨th, hth, hid, hmap, ?_⟩
    rw [hall th hth hmap]
    exact fun heq => (by cases heq)
  · obtain ⟨p, htasks⟩ := h.oneJob.map_task
    obtain ⟨hid, -⟩ := DistJobTracker.job_parts h.oneJob.job
    have hmem : (c.jobTracker.reduceAssignment r).task ∈ c.threads.map (·.task) := by
      rw [htasks]
      refine List.mem_map_of_mem (List.mem_append_right _ (List.mem_map_of_mem ?_))
      rw [List.mem_range'_1]
      omega
    obtain ⟨th, hth, htask⟩ := List.mem_map.1 hmem
    have hreduce : th.task.type = .kReduce := by rw [htask, Assignment.type_task]; rfl
    refine ⟨th, hth, ?_, ?_⟩
    · rw [htask, Assignment.taskId_task]
      show c.jobTracker.jobId ++ _ ++ _ = _
      rw [hid]
      rfl
    · simp [Thread.hasReduced, hreduce, hreported th hth hreduce]

variable [DecidableEq ι]

theorem step {e : Event ι} (he : e.isSubmit = false) :
    Ending env inputPath outputPath numMaps numReduces (c.step env e) := by
  refine ⟨h.oneJob.step he, ?_⟩
  have hexecute : ∀ j th, (c.execute env j th).jobTracker = c.jobTracker := by
    intro j th
    unfold Cluster.execute
    cases th.task.type <;> rfl
  rcases c.step_cases env he with ⟨hstep, -⟩ | ⟨tracker, t, a, -, hpoll, hstep⟩ | ⟨tracker, t, -, hpoll, hstep⟩ |
    ⟨j, th, -, -, -, hstep⟩ | ⟨j, th, -, -, -, hstep⟩ | ⟨j, th, message, -, -, -, hstep⟩
  · rw [hstep]; exact h.ended
  · have hended := h.ended.pollForTask
    rw [hpoll] at hended
    rw [hstep]
    exact hended
  · have hended := h.ended.pollForTask
    rw [hpoll] at hended
    rw [hstep]
    exact hended
  · rw [hstep, hexecute]; exact h.ended
  · rw [hstep]; exact h.ended
  · rw [hstep]; exact h.ended.taskCompleted message

end Ending

end SingleJob

namespace Cluster

variable {ι : Type} [DecidableEq ι]

/-- A step that changes something; no job is submitted any more. -/
def Moves (env : Setup ι) (c : Cluster ι) (e : Event ι) (c' : Cluster ι) : Prop :=
  e.isSubmit = false ∧ c' = c.step env e ∧ c' ≠ c

/-- Nothing moves any more: every poll is answered without a task, and no thread has a step before it. -/
def AtRest (env : Setup ι) (c : Cluster ι) : Prop := ∀ e c', ¬ Moves env c e c'

variable {env : Setup ι} {c : Cluster ι}

theorem atRest_iff_step : c.AtRest env ↔ ∀ e : Event ι, e.isSubmit = false → c.step env e = c := by
  constructor
  · intro h e he
    by_contra hne
    exact h e _ ⟨he, rfl, hne⟩
  · rintro h e c' ⟨he, rfl, hne⟩
    exact hne (h e he)

/-- At rest all threads have reported. -/
theorem AtRest.reported (h : c.AtRest env) {th : Thread ι} (hth : th ∈ c.threads) : th.phase = .reported := by
  obtain ⟨j, hj⟩ := List.mem_iff_getElem?.1 hth
  have hset : ∀ phase, (c.setPhase j th phase).threads = c.threads → th.phase = phase := by
    intro phase heq
    have hget := congrArg (·[j]?) heq
    simp only [setPhase, List.getElem?_set_self (List.getElem?_eq_some_iff.1 hj).1, hj] at hget
    exact (congrArg Thread.phase (Option.some.inj hget)).symm
  rw [atRest_iff_step] at h
  cases hp : th.phase with
  | assigned =>
    have hstep := h (.execute j) rfl
    have hlt := @left_execute _ env c j th _ hj hp
    simp only [step, hj, hp, if_true] at hstep
    rw [hstep] at hlt
    exact absurd hlt (Nat.lt_irrefl _)
  | executed =>
    have hstep := congrArg Cluster.threads (h (.prepare j) rfl)
    simp only [step, hj, hp, if_true] at hstep
    rw [hset _ hstep] at hp
    cases hp
  | reporting message =>
    have hstep := congrArg Cluster.threads (h (.deliver j) rfl)
    simp only [step, hj, hp] at hstep
    rw [hset .reported hstep] at hp
    cases hp
  | reported => rfl

/-- At rest a poll finds no task and makes none. -/
theorem AtRest.poll [Nonempty ι] (h : c.AtRest env) : c.jobTracker.pendingMaps = [] ∧
    c.jobTracker.createReduce.pendingReduces = [] ∧ c.jobTracker.finishJob = c.jobTracker := by
  obtain ⟨tracker⟩ := ‹Nonempty ι›
  have hstep := atRest_iff_step.1 h (.poll tracker) rfl
  have hmore : ∀ t a, c.jobTracker.pollForTask ≠ (t, some a) := by
    intro t a hpoll
    have hlen := congrArg (·.threads.length) hstep
    simp only [step, hpoll, List.length_append, List.length_singleton] at hlen
    omega
  rcases c.jobTracker.pollForTask_cases with ⟨ts, t, -, hpoll⟩ | ⟨-, rs, t, -, hpoll⟩ | ⟨hm, hr, hpoll⟩
  · exact absurd hpoll (hmore _ _)
  · exact absurd hpoll (hmore _ _)
  · refine ⟨hm, hr, ?_⟩
    have hsame := congrArg Cluster.jobTracker hstep
    simp only [step, hpoll] at hsame
    rwa [(DistJobTracker.createReduce_eq hr).1] at hsame

end Cluster

section SingleJob

variable {ι : Type} [DecidableEq ι] {env : Setup ι} {c c' : Cluster ι} {inputPath outputPath : Bytes}
  {numMaps numReduces : Int32}

namespace Ending

omit [DecidableEq ι] in
/-- When the job is done every thread has reported. -/
theorem reported (h : Ending env inputPath outputPath numMaps numReduces c) (hdone : c.jobTracker.jobDone = true) :
    ∀ th ∈ c.threads, th.phase = .reported := by
  obtain ⟨hmaps, hreduces⟩ := h.full_iff.1 (h.ended hdone).1
  intro th hth
  cases htype : th.task.type with
  | kMap => exact (h.maps_iff.1 hmaps).2 th hth htype
  | kReduce => exact (h.reduces_iff.1 hreduces).2 th hth htype

omit [DecidableEq ι] in
/-- When the job is done nothing is left to do. -/
theorem left_eq_zero (h : Ending env inputPath outputPath numMaps numReduces c) (hdone : c.jobTracker.jobDone = true) :
    c.left = 0 := by
  obtain ⟨hfull, hstate⟩ := h.ended hdone
  obtain ⟨hmaps, hreduces⟩ := h.full_iff.1 hfull
  obtain ⟨hpending, -⟩ := h.maps_iff.1 hmaps
  obtain ⟨hcreated, -⟩ := h.reduces_iff.1 hreduces
  have hnone : c.jobTracker.pendingReduces = [] := by
    obtain ⟨s, hs, hf⟩ := h.oneJob
    obtain ⟨p, hc⟩ := hs.current
    rw [← hf.jobTracker]
    exact hc.pendingReduces
  have hthreads : (c.threads.map (·.phase.left)).sum = 0 := by
    refine List.sum_eq_zero_iff_forall_eq_nat.2 fun x hx => ?_
    obtain ⟨th, hth, rfl⟩ := List.mem_map.1 hx
    rw [h.reported hdone th hth]
    rfl
  obtain ⟨-, -, -, -, hnum⟩ := DistJobTracker.job_parts h.oneJob.job
  rw [Cluster.left, DistJobTracker.left, hthreads, hpending, hnone, hnum, hcreated, if_pos ⟨hdone, hstate⟩]
  simp

/-- The processes are at rest exactly when the job is done. -/
theorem atRest_iff [Nonempty ι] (h : Ending env inputPath outputPath numMaps numReduces c) :
    c.AtRest env ↔ c.jobTracker.isJobDone = true := by
  constructor
  · intro hrest
    obtain ⟨hpending, hnone, hfinish⟩ := hrest.poll
    have hmaps := h.maps_iff.2 ⟨hpending, fun th hth _ => hrest.reported hth⟩
    have hmade : c.jobTracker.pendingReducesCreated = numReduces.toNatClampNeg := by
      obtain ⟨-, hno⟩ := DistJobTracker.createReduce_eq hnone
      obtain ⟨-, -, -, hnumMaps, hnumReduces⟩ := DistJobTracker.job_parts h.oneJob.job
      obtain ⟨s, hs, hf⟩ := h.oneJob
      obtain ⟨p, hc⟩ := hs.current
      have hcreated := hc.created.2
      rw [hf.jobTracker, hnumReduces] at hcreated
      rw [hnumMaps, hnumReduces] at hno
      unfold Int32.toNatClampNeg at hcreated ⊢
      have hlast := fun hlt => hno ⟨hmaps, hlt⟩
      omega
    have hreduces := h.reduces_iff.2 ⟨hmade, fun th hth _ => hrest.reported hth⟩
    have hfull := h.full_iff.2 ⟨hmaps, hreduces⟩
    have hended : c.jobTracker.finishJob.isJobDone = true := congrArg DistJobTracker.isJobDone (if_pos hfull)
    rwa [hfinish] at hended
  · intro hdone
    have hleft := h.left_eq_zero hdone
    refine Cluster.atRest_iff_step.2 fun e he => (c.left_step he).resolve_right ?_
    rw [hleft]
    exact Nat.not_lt_zero _

end Ending

theorem runJob_ending {es : List (Event ι)} (hjob : SingleJob es) (files : HashMap Bytes Bytes)
    (inputPath outputPath : Bytes) (numMaps numReduces : Int32) :
    Ending env inputPath outputPath numMaps numReduces
      (Cluster.runJob env files inputPath outputPath numMaps numReduces es) :=
  @after_keeps _ _ (Cluster.step env) _ (Ending env inputPath outputPath numMaps numReduces) es
    ⟨OneJob.submitted files inputPath outputPath numMaps numReduces, fun hdone => by cases hdone⟩
    fun _ e he h => h.step (hjob e he)

/-- What is left is never more than at the start. -/
theorem runJob_left {es : List (Event ι)} (hjob : SingleJob es) (files : HashMap Bytes Bytes)
    (inputPath outputPath : Bytes) (numMaps numReduces : Int32) :
    (Cluster.runJob env files inputPath outputPath numMaps numReduces es).left ≤
      4 * (numMaps.toNatClampNeg + numReduces.toNatClampNeg) + 1 := by
  refine @after_keeps _ _ (Cluster.step env) _
    (fun c => c.left ≤ 4 * (numMaps.toNatClampNeg + numReduces.toNatClampNeg) + 1) es ?_ fun c e he hle => ?_
  · simp [Cluster.step, Cluster.left, DistJobTracker.left, DistJobTracker.submitJob]
  · rcases @Cluster.left_step _ env _ c e (hjob e he) with hsame | hlt
    · rw [hsame]
      exact hle
    · exact hlt.le.trans hle

/-- From any state of a job at most `4 (m + r) + 1` more steps change anything, in whatever order they are taken; nothing
moves any more exactly when the job is done; and then all its tasks have been executed. -/
theorem job_ends [Nonempty ι] {es own : List (Event ι)} (hjob : SingleJob es) (files : HashMap Bytes Bytes)
    (h : Run (Cluster.Moves env) (Cluster.runJob env files inputPath outputPath numMaps numReduces es) own c') :
    own.length ≤ 4 * (numMaps.toNatClampNeg + numReduces.toNatClampNeg) + 1 ∧
      (c'.AtRest env ↔ c'.jobTracker.isJobDone = true) ∧
      (c'.jobTracker.isJobDone = true →
        c'.MapsExecuted numMaps.toNatClampNeg ∧ c'.ReducesExecuted numReduces.toNatClampNeg) := by
  have hlen : own.length + c'.left ≤
      (Cluster.runJob env files inputPath outputPath numMaps numReduces es).left := by
    refine Run.length_le ?_ h
    rintro c e c' ⟨he, rfl, hne⟩
    exact (c.left_step he).resolve_left hne
  have hending : Ending env inputPath outputPath numMaps numReduces c' := by
    refine @Run.invariant _ _ _ (fun _ c => Ending env inputPath outputPath numMaps numReduces c) _ _ _ h
      (runJob_ending hjob files inputPath outputPath numMaps numReduces) ?_
    rintro - c e c' hc ⟨he, rfl, -⟩
    exact hc.step he
  refine ⟨?_, hending.atRest_iff, fun hdone => hending.executed (hending.ended hdone).1⟩
  have hle := @runJob_left _ _ env _ hjob files inputPath outputPath numMaps numReduces
  omega

end SingleJob

/-- A job of two tasks up to its last report. -/
def beforeEnd : Cluster Bool :=
  Cluster.runJob Cluster.countLines Cluster.oneLine (bytes "in") (bytes "out") 1 1
    [.poll true, .execute 0, .prepare 0, .deliver 0, .poll false, .execute 1, .prepare 1]

/-- The report, and the poll after it. -/
theorem job_ends_beforeEnd :
    ∃ c', Run (Cluster.Moves Cluster.countLines) beforeEnd [.deliver 1, .poll true] c' ∧
      c'.AtRest Cluster.countLines ∧ c'.ReducesExecuted (Int32.toNatClampNeg 1) := by
  have hmove : ∀ (c : Cluster Bool) (e : Event Bool), e.isSubmit = false →
      (c.step Cluster.countLines e).jobTracker ≠ c.jobTracker →
        Cluster.Moves Cluster.countLines c e (c.step Cluster.countLines e) :=
    fun _ _ he hne => ⟨he, rfl, fun heq => hne (congrArg Cluster.jobTracker heq)⟩
  have hdeliver := hmove beforeEnd (.deliver 1) rfl (by decide +kernel)
  have hpoll := hmove (beforeEnd.step Cluster.countLines (.deliver 1)) (.poll true) rfl (by decide +kernel)
  have hrun := (Run.nil.snoc hdeliver).snoc hpoll
  obtain ⟨-, hiff, hall⟩ := @job_ends _ _ Cluster.countLines _ (bytes "in") (bytes "out") 1 1 _ _ _ (by decide)
    Cluster.oneLine hrun
  exact ⟨_, hrun, hiff.2 (by decide +kernel), (hall (by decide +kernel)).2⟩

end MiniHadoop.Mapred

/-
The map phase of one job on fresh trackers. Every map task handed out maps every line of the input, since
nothing in a task says which part of the file is its own; a line is mapped by exactly one task only when there
is one task, or no line. Reduce tasks wait until all map tasks are reported, so none of them can write over
the input before the last map task has read it.
-/
import MiniHadoop.Base.Counting
import MiniHadoop.Mapred.Cluster

namespace MiniHadoop.Mapred

open Text Runs

/-! ## What a poll does -/

namespace DistJobTracker

variable {s : DistJobTracker}

/-- A poll hands out the last pending map task; without one it hands out a reduce task, if it can make one, or
nothing. -/
theorem pollForTask_cases (s : DistJobTracker) :
    (∃ ts t, s.pendingMaps = ts ++ [t] ∧ s.pollForTask = ({ s with pendingMaps := ts }, some (s.assignMap t))) ∨
    (s.pendingMaps = [] ∧ ∃ rs t, s.createReduce.pendingReduces = rs ++ [t] ∧
      s.pollForTask = ({ s.createReduce with pendingReduces := rs }, some (assignReduce t))) ∨
    (s.pendingMaps = [] ∧ s.createReduce.pendingReduces = [] ∧ s.pollForTask = (s.createReduce.finishJob, none)) := by
  unfold pollForTask
  rcases List.eq_nil_or_concat s.pendingMaps with hm | ⟨ts, t, hm⟩
  · rcases List.eq_nil_or_concat s.createReduce.pendingReduces with hr | ⟨rs, t, hr⟩
    · exact .inr (.inr ⟨hm, hr, by simp [hm, hr]⟩)
    · rw [List.concat_eq_append] at hr
      exact .inr (.inl ⟨hm, rs, t, hr, by simp [hm, hr]⟩)
  · rw [List.concat_eq_append] at hm
    exact .inl ⟨ts, t, hm, by simp [hm]⟩

/-- A reduce task is made only when all map tasks have been reported. -/
theorem createReduce_cases (s : DistJobTracker) :
    s.createReduce = s ∨ ((s.numMaps.toInt ≤ s.mapsCompleted ∧ s.pendingReducesCreated < s.numReduces.toInt) ∧
      s.createReduce = { s with
        pendingReducesCreated := s.pendingReducesCreated + 1
        pendingReduces := s.pendingReduces ++ [s.reduceTask s.pendingReducesCreated] }) := by
  unfold createReduce
  split
  · rename_i h; exact .inr ⟨h, rfl⟩
  · exact .inl rfl

theorem finishJob_cases (s : DistJobTracker) :
    s.finishJob = s ∨ ((s.numMaps.toInt ≤ s.mapsCompleted ∧ s.numReduces.toInt ≤ s.reducesCompleted) ∧
      s.finishJob = { s with jobState := .kSucceeded, jobDone := true }) := by
  unfold finishJob
  split
  · rename_i h; exact .inr ⟨h, rfl⟩
  · exact .inl rfl

end DistJobTracker

/-! ## Counting threads -/

section Threads

variable {ι : Type} {threads : List (Thread ι)} {th : Thread ι} {j : Nat} {phase : Phase}

/-- The thread runs a map task. -/
def Thread.isMap (th : Thread ι) : Bool := th.task.type = .kMap

/-- The thread runs a map task that has been reported. -/
def Thread.isReportedMap (th : Thread ι) : Bool := th.task.type = .kMap && th.phase = .reported

theorem countP_isMap_set (h : threads[j]? = some th) :
    (threads.set j { th with phase }).countP Thread.isMap = threads.countP Thread.isMap := by
  have hcount := @Counting.countP_set_add _ _ _ _ { th with phase } h Thread.isMap
  rw [show Thread.isMap { th with phase } = th.isMap from rfl] at hcount
  omega

theorem countP_isReportedMap_set (h : threads[j]? = some th) (hold : th.phase ≠ .reported)
    (hnew : phase ≠ .reported) :
    (threads.set j { th with phase }).countP Thread.isReportedMap = threads.countP Thread.isReportedMap := by
  have hcount := @Counting.countP_set_add _ _ _ _ { th with phase } h Thread.isReportedMap
  simpa [Thread.isReportedMap, hold, hnew] using hcount

end Threads

/-! ## The invariant -/

def Event.isSubmit {ι : Type} : Event ι → Bool
  | .submit .. => true
  | _ => false

/-- What a step other than a submission does: nothing, when it is not possible; a poll hands out a task or none; a thread
executes its task, prepares its report or delivers it. -/
theorem Cluster.step_cases {ι : Type} [DecidableEq ι] (env : Setup ι) (c : Cluster ι) {e : Event ι}
    (he : e.isSubmit = false) :
    (c.step env e = c ∧ ∀ j th, e = .execute j → c.threads[j]? = some th → th.phase ≠ .assigned) ∨
    (∃ tracker t a, e = .poll tracker ∧ c.jobTracker.pollForTask = (t, some a) ∧
      c.step env e = { c with jobTracker := t, threads := c.threads ++ [⟨tracker, a.task, .assigned⟩] }) ∨
    (∃ tracker t, e = .poll tracker ∧ c.jobTracker.pollForTask = (t, none) ∧
      c.step env e = { c with jobTracker := t }) ∨
    (∃ j th, e = .execute j ∧ c.threads[j]? = some th ∧ th.phase = .assigned ∧ c.step env e = c.execute env j th) ∨
    (∃ j th, e = .prepare j ∧ c.threads[j]? = some th ∧ th.phase = .executed ∧
      c.step env e = c.setPhase j th (.reporting (reportTaskComplete (env.host th.tracker)
        (env.shufflePort th.tracker) (c.outputs th.tracker) th.task))) ∨
    ∃ j th message, e = .deliver j ∧ c.threads[j]? = some th ∧ th.phase = .reporting message ∧
      c.step env e = { c.setPhase j th .reported with jobTracker := c.jobTracker.taskCompleted message } := by
  cases e with
  | submit => cases he
  | poll tracker =>
    rw [step]
    split
    · rename_i t a hpoll; exact .inr (.inl ⟨tracker, t, a, rfl, hpoll, rfl⟩)
    · rename_i t hpoll; exact .inr (.inr (.inl ⟨tracker, t, rfl, hpoll, rfl⟩))
  | execute j =>
    rw [step]
    split
    · rename_i th hj
      split
      · rename_i hp; exact .inr (.inr (.inr (.inl ⟨j, th, rfl, hj, hp, rfl⟩)))
      · rename_i hp
        refine .inl ⟨rfl, fun j' th' hj' hth' => ?_⟩
        cases hj'
        rw [hj] at hth'
        cases hth'
        exact hp
    · rename_i hj
      refine .inl ⟨rfl, fun j' th' hj' hth' => ?_⟩
      cases hj'
      rw [hj] at hth'
      cases hth'
  | prepare j =>
    rw [step]
    split
    · rename_i th hj
      split
      · rename_i hp; exact .inr (.inr (.inr (.inr (.inl ⟨j, th, rfl, hj, hp, rfl⟩))))
      · exact .inl ⟨rfl, fun j' th' hj' => by cases hj'⟩
    · exact .inl ⟨rfl, fun j' th' hj' => by cases hj'⟩
  | deliver j =>
    rw [step]
    split
    · rename_i th hj
      split
      · rename_i message hp; exact .inr (.inr (.inr (.inr (.inr ⟨j, th, message, rfl, hj, hp, rfl⟩))))
      · exact .inl ⟨rfl, fun j' th' hj' => by cases hj'⟩
    · exact .inl ⟨rfl, fun j' th' hj' => by cases hj'⟩

/-- Nothing is submitted. -/
def SingleJob {ι : Type} (es : List (Event ι)) : Prop := ∀ e ∈ es, e.isSubmit = false

instance {ι : Type} (es : List (Event ι)) : Decidable (SingleJob es) :=
  inferInstanceAs (Decidable (∀ e ∈ es, e.isSubmit = false))

def Completion.type : Completion → TaskType
  | .map .. => .kMap
  | .reduce _ => .kReduce

theorem type_reportTaskComplete (host : Bytes) (port : Int32) (outputs : MapOutputs) (task : Task) :
    (reportTaskComplete host port outputs task).type = task.type := by
  unfold reportTaskComplete
  cases h : task.type <;> rfl

variable {ι : Type} {numMaps : Int32} {inputPath : Bytes} {content : Option Bytes} {s : Cluster ι} {th : Thread ι}

/-- What holds of a thread while a job of `numMaps` map tasks is done on the file `inputPath`, which had this
content when the job was submitted. -/
structure ThreadOk (numMaps : Int32) (inputPath : Bytes) (content : Option Bytes) (s : Cluster ι)
    (th : Thread ι) : Prop where
  path : th.task.type = .kMap → th.task.inputPath = inputPath
  message : ∀ message, th.phase = .reporting message → message.type = th.task.type
  /-- A reduce task is made after the last report of a map task. -/
  barrier : th.task.type = .kReduce → numMaps.toInt ≤ s.jobTracker.mapsCompleted
  /-- A map task will find the input as it was. -/
  unread : th.task.type = .kMap → th.phase = .assigned → s.files.lookup inputPath = content
  /-- An executed map task has passed every line. -/
  calls : th.task.type = .kMap → th.phase ≠ .assigned →
    ∀ line ∈ textRecords content, ⟨th.task.taskId, line⟩ ∈ s.calls

/-- Such a job, on trackers that had no other one. -/
structure MapPhase (numMaps : Int32) (inputPath : Bytes) (content : Option Bytes) (s : Cluster ι) : Prop where
  job : s.jobTracker.numMaps = numMaps
  pending : ∀ t ∈ s.jobTracker.pendingMaps, t.type = .kMap ∧ t.inputPath = inputPath
  reduces : ∀ t ∈ s.jobTracker.pendingReduces, t.type = .kReduce
  threads : ∀ th ∈ s.threads, ThreadOk numMaps inputPath content s th
  count : s.jobTracker.pendingMaps.length + s.threads.countP Thread.isMap = numMaps.toNatClampNeg
  completed : s.jobTracker.mapsCompleted = s.threads.countP Thread.isReportedMap
  barrier : s.jobTracker.pendingReduces ≠ [] → numMaps.toInt ≤ s.jobTracker.mapsCompleted
  unread : s.jobTracker.pendingMaps ≠ [] → s.files.lookup inputPath = content

/-- A thread stays as it is in a state with more reports and more calls, and with the same files if it still has
to read one. -/
theorem ThreadOk.mono (h : ThreadOk numMaps inputPath content s th) {s' : Cluster ι}
    (hmaps : s.jobTracker.mapsCompleted ≤ s'.jobTracker.mapsCompleted)
    (hfiles : th.task.type = .kMap → th.phase = .assigned → s'.files = s.files) (hcalls : s.calls ⊆ s'.calls) :
    ThreadOk numMaps inputPath content s' th where
  path := h.path
  message := h.message
  barrier hr := (h.barrier hr).trans (by exact_mod_cast hmaps)
  unread hm hp := by rw [hfiles hm hp]; exact h.unread hm hp
  calls hm hp line hline := hcalls (h.calls hm hp line hline)

namespace MapPhase

/-- When a reduce task has been made, every map task has been reported. -/
theorem all_reported (h : MapPhase numMaps inputPath content s) (hb : numMaps.toInt ≤ s.jobTracker.mapsCompleted) :
    s.jobTracker.pendingMaps = [] ∧ ∀ th ∈ s.threads, th.task.type = .kMap → th.phase = .reported := by
  have hcount := h.count
  have hcompleted := h.completed
  have hle : s.threads.countP Thread.isReportedMap ≤ s.threads.countP Thread.isMap := Counting.countP_and_le _ _ _
  -- with as many reports as tasks, the counts leave room for no other task
  unfold Int32.toNatClampNeg at hcount
  have hall := @Counting.all_of_countP_le _ s.threads Thread.isMap (·.phase = .reported)
    (show s.threads.countP Thread.isMap ≤ s.threads.countP Thread.isReportedMap by omega)
  refine ⟨List.length_eq_zero_iff.1 (by omega), fun th hth hm => ?_⟩
  exact of_decide_eq_true (hall th hth (decide_eq_true hm))

/-! ## What each step keeps -/

/-- A thread moves on, its report still to be counted. -/
theorem setPhase (h : MapPhase numMaps inputPath content s) {j : Nat} {phase : Phase}
    (hj : s.threads[j]? = some th) (hold : th.phase ≠ .reported) (hnew : phase ≠ .reported)
    (hok : ThreadOk numMaps inputPath content s { th with phase }) :
    MapPhase numMaps inputPath content (s.setPhase j th phase) where
  job := h.job
  pending := h.pending
  reduces := h.reduces
  threads := by
    intro th' hth'
    rcases List.mem_or_eq_of_mem_set hth' with hmem | rfl
    · exact (h.threads th' hmem).mono le_rfl (fun _ _ => rfl) (List.Subset.refl _)
    · exact hok.mono le_rfl (fun _ _ => rfl) (List.Subset.refl _)
  count := by
    rw [Cluster.setPhase, countP_isMap_set hj]
    exact h.count
  completed := by
    rw [Cluster.setPhase, countP_isReportedMap_set hj hold hnew]
    exact h.completed
  barrier := h.barrier
  unread := h.unread

/-- A report is counted once, when it arrives. -/
theorem deliver (h : MapPhase numMaps inputPath content s) {j : Nat} {message : Completion}
    (hj : s.threads[j]? = some th) (hp : th.phase = .reporting message) :
    MapPhase numMaps inputPath content
      { s.setPhase j th .reported with jobTracker := s.jobTracker.taskCompleted message } := by
  have hth := h.threads th (List.mem_of_getElem? hj)
  have htype := hth.message message hp
  have hjob : (s.jobTracker.taskCompleted message).numMaps = s.jobTracker.numMaps ∧
      (s.jobTracker.taskCompleted message).pendingMaps = s.jobTracker.pendingMaps ∧
      (s.jobTracker.taskCompleted message).pendingReduces = s.jobTracker.pendingReduces := by
    cases message <;> exact ⟨rfl, rfl, rfl⟩
  -- the message is of the kind of its task, so the counter of that kind goes up
  have hcompleted : (s.jobTracker.taskCompleted message).mapsCompleted =
      s.jobTracker.mapsCompleted + if th.isMap then 1 else 0 := by
    cases message with
    | map => simp [DistJobTracker.taskCompleted, Thread.isMap, show th.task.type = .kMap from htype.symm]
    | reduce => simp [DistJobTracker.taskCompleted, Thread.isMap, show th.task.type = .kReduce from htype.symm]
  have hle : s.jobTracker.mapsCompleted ≤ (s.jobTracker.taskCompleted message).mapsCompleted := by
    rw [hcompleted]; omega
  constructor
  · exact hjob.1.trans h.job
  · rw [hjob.2.1]; exact h.pending
  · rw [hjob.2.2]; exact h.reduces
  · intro th' hth'
    rcases List.mem_or_eq_of_mem_set hth' with hmem | rfl
    · exact (h.threads th' hmem).mono hle (fun _ _ => rfl) (List.Subset.refl _)
    · have hexec := fun hm => hth.calls hm (by rw [hp]; simp)
      have hok : ThreadOk numMaps inputPath content s { th with phase := .reported } :=
        ⟨hth.path, by simp, hth.barrier, by simp, fun hm _ => hexec hm⟩
      exact hok.mono hle (fun _ _ => rfl) (List.Subset.refl _)
  · rw [hjob.2.1, Cluster.setPhase, countP_isMap_set hj]
    exact h.count
  · have hcount := @Counting.countP_set_add _ _ _ _ { th with phase := .reported } hj Thread.isReportedMap
    have hrep : th.isReportedMap = false := by simp [Thread.isReportedMap, hp]
    rw [show Thread.isReportedMap { th with phase := .reported } = th.isMap by
      simp [Thread.isReportedMap, Thread.isMap], hrep] at hcount
    rw [hcompleted, h.completed]
    exact hcount.symm
  · intro hr
    rw [hjob.2.2] at hr
    exact (h.barrier hr).trans (by exact_mod_cast hle)
  · rw [hjob.2.1]; exact h.unread

/-- Making a reduce task, if all map tasks have been reported. -/
theorem createReduce (h : MapPhase numMaps inputPath content s) :
    MapPhase numMaps inputPath content { s with jobTracker := s.jobTracker.createReduce } := by
  rcases s.jobTracker.createReduce_cases with hc | ⟨⟨hdone, -⟩, hc⟩
  · rw [hc]; exact h
  · rw [h.job] at hdone
    rw [hc]
    constructor
    · exact h.job
    · exact h.pending
    · intro t ht
      rcases List.mem_append.1 ht with ht | ht
      · exact h.reduces t ht
      · rw [List.mem_singleton.1 ht]; rfl
    · exact fun th hth => (h.threads th hth).mono le_rfl (fun _ _ => rfl) (List.Subset.refl _)
    · exact h.count
    · exact h.completed
    · exact fun _ => hdone
    · exact h.unread

/-- A map task goes from the pending ones to a thread. -/
theorem handOutMap (h : MapPhase numMaps inputPath content s) {ts : List Task} {t : Task}
    (hm : s.jobTracker.pendingMaps = ts ++ [t]) (tracker : ι) :
    MapPhase numMaps inputPath content { s with
      jobTracker := { s.jobTracker with pendingMaps := ts }
      threads := s.threads ++ [⟨tracker, (s.jobTracker.assignMap t).task, .assigned⟩] } := by
  obtain ⟨htype, hpath⟩ := h.pending t (by rw [hm]; simp)
  have htask : (s.jobTracker.assignMap t).task.type = .kMap ∧
      (s.jobTracker.assignMap t).task.inputPath = inputPath := by
    simp [DistJobTracker.assignMap, Assignment.task, htype, hpath]
  -- the task was pending, so the input has not been written over
  have hunread := h.unread (by rw [hm]; simp)
  constructor
  · exact h.job
  · exact fun t' ht' => h.pending t' (by rw [hm]; exact List.mem_append_left _ ht')
  · exact h.reduces
  · intro th hth
    rcases List.mem_append.1 hth with hth | hth
    · exact (h.threads th hth).mono le_rfl (fun _ _ => rfl) (List.Subset.refl _)
    · rw [List.mem_singleton.1 hth]
      exact ⟨fun _ => htask.2, by simp, by simp [htask.1], fun _ _ => hunread, by simp⟩
  · have hcount := h.count
    rw [hm, List.length_append, List.length_singleton] at hcount
    rw [List.countP_append, List.countP_singleton, if_pos (by simp [Thread.isMap, htask.1]), ← hcount]
    show ts.length + (_ + 1) = ts.length + 1 + _
    omega
  · rw [List.countP_append, List.countP_singleton, if_neg (by simp [Thread.isReportedMap])]
    exact h.completed
  · exact h.barrier
  · exact fun _ => hunread

/-- A reduce task goes from the pending ones to a thread. -/
theorem handOutReduce (h : MapPhase numMaps inputPath content s) {rs : List Task} {t : Task}
    (hr : s.jobTracker.pendingReduces = rs ++ [t]) (tracker : ι) :
    MapPhase numMaps inputPath content { s with
      jobTracker := { s.jobTracker with pendingReduces := rs }
      threads := s.threads ++ [⟨tracker, (DistJobTracker.assignReduce t).task, .assigned⟩] } := by
  have htype : (DistJobTracker.assignReduce t).task.type = .kReduce := by
    have := h.reduces t (by rw [hr]; simp)
    simp [DistJobTracker.assignReduce, Assignment.task, this]
  -- the task was pending, so all map tasks had been reported when it was made
  have hbarrier := h.barrier (by rw [hr]; simp)
  constructor
  · exact h.job
  · exact h.pending
  · exact fun t' ht' => h.reduces t' (by rw [hr]; exact List.mem_append_left _ ht')
  · intro th hth
    rcases List.mem_append.1 hth with hth | hth
    · exact (h.threads th hth).mono le_rfl (fun _ _ => rfl) (List.Subset.refl _)
    · rw [List.mem_singleton.1 hth]
      exact ⟨by simp [htype], by simp, fun _ => hbarrier, by simp [htype], by simp⟩
  · rw [List.countP_append, List.countP_singleton, if_neg (by simp [Thread.isMap, htype])]
    exact h.count
  · rw [List.countP_append, List.countP_singleton, if_neg (by simp [Thread.isReportedMap])]
    exact h.completed
  · exact fun _ => hbarrier
  · exact h.unread

variable [DecidableEq ι] {env : Setup ι}

/-- After the submission to a fresh JobTracker. -/
theorem submitted (files : HashMap Bytes Bytes) (inputPath outputPath : Bytes) (numMaps numReduces : Int32) :
    MapPhase numMaps inputPath (files.lookup inputPath)
      (Cluster.step env { files } (.submit inputPath outputPath numMaps numReduces)) := by
  constructor
  · rfl
  · intro t ht
    obtain ⟨i, -, rfl⟩ := List.mem_map.1 (show t ∈ (List.range _).map _ from ht)
    exact ⟨rfl, rfl⟩
  · exact fun t ht => by cases ht
  · exact fun th hth => by cases hth
  · simp [Cluster.step, DistJobTracker.submitJob]
  · rfl
  · exact fun hr => absurd rfl hr
  · exact fun _ => rfl

theorem poll (h : MapPhase numMaps inputPath content s) (tracker : ι) :
    MapPhase numMaps inputPath content (Cluster.step env s (.poll tracker)) := by
  rw [Cluster.step]
  rcases s.jobTracker.pollForTask_cases with ⟨ts, t, hm, hpoll⟩ | ⟨-, rs, t, hr, hpoll⟩ | ⟨-, -, hpoll⟩
  · rw [hpoll]; exact h.handOutMap hm tracker
  · rw [hpoll]; exact h.createReduce.handOutReduce hr tracker
  · rw [hpoll]
    have h' := h.createReduce
    rcases s.jobTracker.createReduce.finishJob_cases with hf | ⟨-, hf⟩
    · rw [hf]; exact h'
    · rw [hf]
      exact ⟨h'.job, h'.pending, h'.reduces, fun th hth => (h'.threads th hth).mono le_rfl (fun _ _ => rfl)
        (List.Subset.refl _), h'.count, h'.completed, h'.barrier, h'.unread⟩

theorem execute (h : MapPhase numMaps inputPath content s) {j : Nat} (hj : s.threads[j]? = some th)
    (hp : th.phase = .assigned) : MapPhase numMaps inputPath content (s.execute env j th) := by
  have hth := h.threads th (List.mem_of_getElem? hj)
  unfold Cluster.execute
  cases htype : th.task.type with
  | kMap =>
    -- the file is still the one that was submitted, and all its lines are passed
    have hcontent : s.files.lookup th.task.inputPath = content := by
      rw [hth.path htype]; exact hth.unread htype hp
    let s1 : Cluster ι := { s with calls := s.calls ++ (textRecords content).map (⟨th.task.taskId, ·⟩) }
    have hgrown : MapPhase numMaps inputPath content s1 :=
      ⟨h.job, h.pending, h.reduces, fun th' hth' => (h.threads th' hth').mono le_rfl (fun _ _ => rfl)
        (List.subset_append_left _ _), h.count, h.completed, h.barrier, h.unread⟩
    have hok : ThreadOk numMaps inputPath content s1 { th with phase := .executed } :=
      ⟨hth.path, by simp, hth.barrier, by simp, fun _ _ line hline =>
        List.mem_append_right _ (List.mem_map_of_mem hline)⟩
    have hset := hgrown.setPhase hj (by rw [hp]; simp) (by simp) hok
    simp only [Cluster.setPhase, hcontent]
    exact ⟨hset.job, hset.pending, hset.reduces, fun th' hth' => (hset.threads th' hth').mono le_rfl
      (fun _ _ => rfl) (List.Subset.refl _), hset.count, hset.completed, hset.barrier, hset.unread⟩
  | kReduce =>
    have hok : ThreadOk numMaps inputPath content s { th with phase := .executed } :=
      ⟨hth.path, by simp, hth.barrier, by simp, by simp [htype]⟩
    have hset := h.setPhase hj (by rw [hp]; simp) (by simp) hok
    -- the output may go over the input: no map task is left to read it
    obtain ⟨hnone, hall⟩ := hset.all_reported (hth.barrier htype)
    exact ⟨hset.job, hset.pending, hset.reduces, fun th' hth' => (hset.threads th' hth').mono le_rfl
      (fun hm hp' => by rw [hall th' hth' hm] at hp'; cases hp') (List.Subset.refl _), hset.count, hset.completed,
      hset.barrier, fun hm => absurd hnone hm⟩

/-- Every step but another submission keeps the invariant. -/
theorem step (h : MapPhase numMaps inputPath content s) {e : Event ι} (he : e.isSubmit = false) :
    MapPhase numMaps inputPath content (Cluster.step env s e) := by
  rcases s.step_cases env he with ⟨hstep, -⟩ | ⟨tracker, t, a, rfl, -, -⟩ | ⟨tracker, t, rfl, -, -⟩ |
    ⟨j, th, rfl, hj, hp, hstep⟩ | ⟨j, th, rfl, hj, hp, hstep⟩ | ⟨j, th, message, rfl, hj, hp, hstep⟩
  · rw [hstep]; exact h
  · exact h.poll tracker
  · exact h.poll tracker
  · rw [hstep]; exact h.execute hj hp
  · rw [hstep]
    have hth := h.threads th (List.mem_of_getElem? hj)
    refine h.setPhase hj (by rw [hp]; simp) (by simp) ⟨hth.path, ?_, hth.barrier, by simp, fun hm _ =>
      hth.calls hm (by rw [hp]; simp)⟩
    intro message hmessage
    cases hmessage
    exact type_reportTaskComplete ..
  · rw [hstep]; exact h.deliver hj hp

end MapPhase

/-! ## Which tasks map a line -/

/-- The id of the `i`-th map task of a job. -/
def mapTaskId (i : Nat) : Bytes := (mapTask (bytes "job_001") [] i).taskId

namespace Cluster

/-- All map tasks of a job of `n` have been executed. -/
def MapsExecuted (s : Cluster ι) (n : Nat) : Prop :=
  ∀ i < n, ∃ th ∈ s.threads, th.task.taskId = mapTaskId i ∧ th.task.type = .kMap ∧ th.phase ≠ .assigned

instance (s : Cluster ι) (n : Nat) : Decidable (s.MapsExecuted n) :=
  inferInstanceAs (Decidable (∀ i < n, ∃ th ∈ s.threads,
    th.task.taskId = mapTaskId i ∧ th.task.type = .kMap ∧ th.phase ≠ .assigned))

/-- A line, with its offset, has been passed to `Map` by exactly one of `n` map tasks. -/
def MappedByOne (s : Cluster ι) (n : Nat) (line : Int64 × Bytes) : Prop :=
  ∃! i, i < n ∧ ⟨mapTaskId i, line⟩ ∈ s.calls

variable [DecidableEq ι]

/-- A job submitted to fresh trackers, and what happened then. -/
def runJob (env : Setup ι) (files : HashMap Bytes Bytes) (inputPath outputPath : Bytes) (numMaps numReduces : Int32)
    (es : List (Event ι)) : Cluster ι :=
  after (step env) (step env { files } (.submit inputPath outputPath numMaps numReduces)) es

theorem runJob_mapPhase {env : Setup ι} {es : List (Event ι)} (hjob : SingleJob es) (files : HashMap Bytes Bytes)
    (inputPath outputPath : Bytes) (numMaps numReduces : Int32) :
    MapPhase numMaps inputPath (files.lookup inputPath)
      (runJob env files inputPath outputPath numMaps numReduces es) :=
  @after_keeps _ _ (step env) _ (MapPhase numMaps inputPath (files.lookup inputPath)) es
    (MapPhase.submitted files inputPath outputPath numMaps numReduces) fun _ e he h => h.step (hjob e he)

/-- Every executed map task has mapped every line. -/
theorem mapped_of_executed {env : Setup ι} {es : List (Event ι)} (hjob : SingleJob es) {files : HashMap Bytes Bytes}
    {inputPath outputPath : Bytes} {numMaps numReduces : Int32} {n i : Nat}
    (hdone : (runJob env files inputPath outputPath numMaps numReduces es).MapsExecuted n) (hi : i < n)
    {line : Int64 × Bytes} (hline : line ∈ textRecords (files.lookup inputPath)) :
    ⟨mapTaskId i, line⟩ ∈ (runJob env files inputPath outputPath numMaps numReduces es).calls := by
  obtain ⟨th, hth, hid, hm, hp⟩ := hdone i hi
  rw [← hid]
  exact ((runJob_mapPhase hjob files inputPath outputPath numMaps numReduces).threads th hth).calls hm hp line hline

/-- When all map tasks of a job have been executed, each line of the input was mapped by exactly one of them if
and only if there is one map task, or no input. -/
theorem mappedByOne_iff {env : Setup ι} {es : List (Event ι)} (hjob : SingleJob es) {files : HashMap Bytes Bytes}
    {inputPath outputPath : Bytes} {numMaps numReduces : Int32} (hmaps : 1 ≤ numMaps.toInt)
    (hdone : (runJob env files inputPath outputPath numMaps numReduces es).MapsExecuted numMaps.toNatClampNeg) :
    (∀ line ∈ textRecords (files.lookup inputPath),
        (runJob env files inputPath outputPath numMaps numReduces es).MappedByOne numMaps.toNatClampNeg line) ↔
      numMaps.toInt = 1 ∨ (files.lookup inputPath).getD [] = [] := by
  have hn : (numMaps.toNatClampNeg : Int) = numMaps.toInt := Int.toNat_of_nonneg (by omega)
  rw [← textRecords_eq_nil]
  constructor
  · intro h
    rw [or_iff_not_imp_right]
    intro hne
    obtain ⟨line, hline⟩ := List.exists_mem_of_ne_nil _ hne
    by_contra hmore
    -- the first two tasks have both mapped it
    obtain ⟨i, -, hunique⟩ := h line hline
    have h0 := hunique 0 ⟨by omega, mapped_of_executed hjob hdone (by omega) hline⟩
    have h1 := hunique 1 ⟨by omega, mapped_of_executed hjob hdone (by omega) hline⟩
    omega
  · rintro (hone | hnone) line hline
    · refine ⟨0, ⟨by omega, mapped_of_executed hjob hdone (by omega) hline⟩, fun i hi => ?_⟩
      have := hi.1
      omega
    · rw [hnone] at hline; cases hline

/-- Two TaskTrackers, and a job that counts lines. -/
def countLines : Setup Bool where
  host _ := bytes "127.0.0.1"
  shufflePort tracker := if tracker then 17302 else 17301
  listener _ port := if port = 17301 then some false else if port = 17302 then some true else none
  mapper := { State := Unit, fresh := (), map := fun _ _ line => ((), [(line, 1)]) }
  reducer := { State := Unit, fresh := (), reduce := fun _ key values => ((), [(key, values.sum)]) }
  hash _ := 0

/-- A file system with a file of one line. -/
def oneLine : HashMap Bytes Bytes := (∅ : HashMap Bytes Bytes).insert (bytes "in") (bytes "a\n")

theorem mappedByOne_oneTask :
    (∀ line ∈ textRecords (oneLine.lookup (bytes "in")),
        (runJob countLines oneLine (bytes "in") (bytes "out") 1 1 [.poll true, .execute 0]).MappedByOne
          (Int32.toNatClampNeg 1) line) ↔
      Int32.toInt 1 = 1 ∨ (oneLine.lookup (bytes "in")).getD [] = [] :=
  mappedByOne_iff (by decide) (by decide) (by decide +kernel)

/-- With two map tasks the one line of the input is mapped twice. -/
theorem line_mapped_twice : ¬ ∀ (env : Setup Bool) (es : List (Event Bool)), SingleJob es →
    ∀ (files : HashMap Bytes Bytes) (inputPath outputPath : Bytes) (numMaps numReduces : Int32), 1 ≤ numMaps.toInt →
      (runJob env files inputPath outputPath numMaps numReduces es).MapsExecuted numMaps.toNatClampNeg →
        ∀ line ∈ textRecords (files.lookup inputPath),
          (runJob env files inputPath outputPath numMaps numReduces es).MappedByOne numMaps.toNatClampNeg line := by
  intro h
  obtain ⟨i, -, hunique⟩ := h countLines [.poll true, .poll false, .execute 0, .execute 1] (by decide) oneLine
    (bytes "in") (bytes "out") 2 1 (by decide) (by decide +kernel) (0, bytes "a") (by decide +kernel)
  have h0 := hunique 0 (by decide +kernel)
  have h1 := hunique 1 (by decide +kernel)
  omega

end Cluster

end MiniHadoop.Mapred

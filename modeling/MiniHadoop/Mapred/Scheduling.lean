/-
What a JobTracker hands out. As long as only tasks of the last job are reported, its counters count these reports, and
what it has handed out of that job is a known list: the map tasks from the last to the first, then the reduce tasks, all
with the locations of all map tasks. For a single job it follows that no task is handed out twice and that reduce
tasks wait for the last map task.
-/
import MiniHadoop.Base.Counting
import MiniHadoop.Mapred.Session

namespace MiniHadoop.Mapred

open Text Runs

/-! ## The tasks of a job -/

/-- The `i`-th map task as it is handed out. -/
def mapAssignment (inputPath : Bytes) (i : Nat) : Assignment := ⟨mapTaskId i, .kMap, Int32.ofNat i, inputPath, [], []⟩

namespace DistJobTracker

/-- The `r`-th reduce task as it is handed out. -/
def reduceAssignment (s : DistJobTracker) (r : Nat) : Assignment := assignReduce (s.reduceTask r)

/-- What has been handed out of a job when `p` of its map tasks are pending and `r` reduce tasks had been made before
it. -/
def plan (s : DistJobTracker) (p r : Nat) : List Assignment :=
  (List.range' p (s.numMaps.toNatClampNeg - p)).reverse.map (mapAssignment s.inputPath) ++
    (List.range' r (s.pendingReducesCreated - r)).map s.reduceAssignment

theorem assignMap_mapTask (s : DistJobTracker) (inputPath : Bytes) (i : Nat) :
    s.assignMap (mapTask (bytes "job_001") inputPath i) = mapAssignment inputPath i := rfl

variable {s : DistJobTracker} {p r : Nat}

theorem filter_plan_kMap (s : DistJobTracker) (p r : Nat) : (s.plan p r).filter (fun a => a.type = .kMap) =
    (List.range' p (s.numMaps.toNatClampNeg - p)).reverse.map (mapAssignment s.inputPath) := by
  rw [plan, List.filter_append, List.filter_eq_self.2, List.filter_eq_nil_iff.2, List.append_nil]
  · intro a ha
    obtain ⟨i, -, rfl⟩ := List.mem_map.1 ha
    simp [reduceAssignment, assignReduce, reduceTask]
  · intro a ha
    obtain ⟨i, -, rfl⟩ := List.mem_map.1 ha
    rfl

theorem filter_plan_kReduce (s : DistJobTracker) (p r : Nat) : (s.plan p r).filter (fun a => a.type = .kReduce) =
    (List.range' r (s.pendingReducesCreated - r)).map s.reduceAssignment := by
  rw [plan, List.filter_append, List.filter_eq_nil_iff.2, List.filter_eq_self.2, List.nil_append]
  · intro a ha
    obtain ⟨i, -, rfl⟩ := List.mem_map.1 ha
    simp [reduceAssignment, assignReduce, reduceTask]
  · intro a ha
    obtain ⟨i, -, rfl⟩ := List.mem_map.1 ha
    simp [mapAssignment]

theorem countP_plan_kMap (s : DistJobTracker) (p r : Nat) :
    (s.plan p r).countP (fun a => a.type = .kMap) = s.numMaps.toNatClampNeg - p := by
  rw [List.countP_eq_length_filter, filter_plan_kMap, List.length_map, List.length_reverse, List.length_range']

theorem countP_plan_kReduce (s : DistJobTracker) (p r : Nat) :
    (s.plan p r).countP (fun a => a.type = .kReduce) = s.pendingReducesCreated - r := by
  rw [List.countP_eq_length_filter, filter_plan_kReduce, List.length_map, List.length_range']

/-- The map task that was pending last is handed out, before any reduce task. -/
theorem plan_pred (hp : p < s.numMaps.toNatClampNeg) (hr : s.pendingReducesCreated = r) :
    s.plan p r = s.plan (p + 1) r ++ [mapAssignment s.inputPath p] := by
  have hlen : s.numMaps.toNatClampNeg - p = s.numMaps.toNatClampNeg - (p + 1) + 1 := by omega
  simp only [plan, hr, Nat.sub_self, List.range'_zero, List.map_nil, List.append_nil]
  rw [hlen, List.range'_succ, List.reverse_cons, List.map_append]
  rfl

/-- One more reduce task is made. -/
theorem plan_succ (hr : r ≤ s.pendingReducesCreated) :
    { s with pendingReducesCreated := s.pendingReducesCreated + 1 }.plan p r =
      s.plan p r ++ [s.reduceAssignment s.pendingReducesCreated] := by
  have hlen : s.pendingReducesCreated + 1 - r = s.pendingReducesCreated - r + 1 := by omega
  have hlast : r + (s.pendingReducesCreated - r) = s.pendingReducesCreated := by omega
  simp only [plan]
  rw [hlen, List.range'_concat, Nat.one_mul, hlast, List.map_append, ← List.append_assoc]
  rfl

end DistJobTracker

theorem Assignment.type_completion (a : Assignment) (numParts : Int32) (host : Bytes) (port : Int32) :
    (a.completion numParts host port).type = a.type := by
  unfold completion
  cases h : a.type <;> rfl

/-! ## The invariant -/

/-- What a JobTracker knows of the job that was submitted last, of which `p` map tasks are pending, when `r` reduce tasks
had been made before it. -/
structure Current (s : Session) (p r : Nat) : Prop where
  jobId : s.jobTracker.jobId = bytes "job_001" ∨ s.jobTracker.numMaps = 0 ∧ s.jobTracker.numReduces = 0
  pendingMaps : ∃ stale, s.jobTracker.pendingMaps =
    stale ++ (List.range p).map (mapTask (bytes "job_001") s.jobTracker.inputPath)
  origins : ∃ old, s.origins = old ++ List.replicate p s.submissions ∧ (∀ j ∈ old, j < s.submissions) ∧
    old.length + p = s.jobTracker.pendingMaps.length
  jobs : ∀ h ∈ s.handedOut, h.job ≤ s.submissions
  pending_le : p ≤ s.jobTracker.numMaps.toNatClampNeg
  pendingReduces : s.jobTracker.pendingReduces = []
  created : r ≤ s.jobTracker.pendingReducesCreated ∧
    s.jobTracker.pendingReducesCreated ≤ max r s.jobTracker.numReduces.toNatClampNeg
  barrier : r < s.jobTracker.pendingReducesCreated → s.jobTracker.numMaps.toInt ≤ s.jobTracker.mapsCompleted
  assignments : s.assignments = s.jobTracker.plan p r
  mapsCompleted : s.jobTracker.mapsCompleted = s.reportedCount .kMap
  reducesCompleted : s.jobTracker.reducesCompleted = s.reportedCount .kReduce

namespace Session

variable {s : Session}

theorem mem_handOut {t : DistJobTracker} {a : Assignment} {h : HandedOut} (hmem : h ∈ (s.handOut t a).handedOut) :
    h ∈ s.handedOut ∨ h = ⟨s.nextJob, a, false⟩ := by
  rcases List.mem_append.1 hmem with hmem | hmem
  · exact .inl hmem
  · exact .inr (List.mem_singleton.1 hmem)

theorem assignments_handOut (s : Session) (t : DistJobTracker) (a : Assignment) :
    (s.handOut t a).assignments = s.assignments ++ if s.nextJob = s.submissions then [a] else [] := by
  have happend : (s.handOut t a).assignments =
      s.assignments ++ ([⟨s.nextJob, a, false⟩].filter s.current).map (·.assignment) := by
    rw [assignments, assignments, ← List.map_append, ← List.filter_append]
    rfl
  rw [happend]
  by_cases hj : s.nextJob = s.submissions <;> simp [current, hj]

theorem reportedCount_handOut (s : Session) (t : DistJobTracker) (a : Assignment) (type : TaskType) :
    (s.handOut t a).reportedCount type = s.reportedCount type := by
  have happend : (s.handOut t a).reportedCount type = s.reportedCount type +
      [⟨s.nextJob, a, false⟩].countP fun h => s.currentOf type h && h.reported := by
    rw [reportedCount, reportedCount, ← List.countP_append]
    rfl
  rw [happend]
  simp

theorem countP_currentOf (s : Session) (type : TaskType) :
    s.handedOut.countP (s.currentOf type) = s.assignments.countP fun a => a.type = type := by
  rw [assignments, List.countP_map, List.countP_filter]
  exact List.countP_congr fun h _ => by simp [currentOf, and_comm]

theorem reportedCount_le (s : Session) (type : TaskType) :
    s.reportedCount type ≤ s.assignments.countP fun a => a.type = type := by
  rw [← countP_currentOf]
  exact Counting.countP_and_le _ _ _

/-- When as many tasks have been reported as were handed out, all have been. -/
theorem reported_of_le {type : TaskType} (hle : (s.assignments.countP fun a => a.type = type) ≤ s.reportedCount type)
    {h : HandedOut} (hmem : h ∈ s.handedOut) (hjob : h.job = s.submissions) (htype : h.assignment.type = type) :
    h.reported = true := by
  rw [← countP_currentOf] at hle
  exact Counting.all_of_countP_le hle h hmem (by simp [currentOf, current, hjob, htype])

end Session

namespace Current

variable {s : Session} {p r : Nat}

theorem mapsCompleted_le (h : Current s p r) :
    s.jobTracker.mapsCompleted ≤ s.jobTracker.numMaps.toNatClampNeg - p := by
  rw [h.mapsCompleted, ← DistJobTracker.countP_plan_kMap s.jobTracker p r, ← h.assignments]
  exact s.reportedCount_le .kMap

theorem reducesCompleted_le (h : Current s p r) :
    s.jobTracker.reducesCompleted ≤ s.jobTracker.pendingReducesCreated - r := by
  rw [h.reducesCompleted, ← DistJobTracker.countP_plan_kReduce s.jobTracker p r, ← h.assignments]
  exact s.reportedCount_le .kReduce

/-- When the counter of the map tasks has reached their number, none is pending and all have been reported. -/
theorem maps_reported (h : Current s p r) (hdone : s.jobTracker.numMaps.toInt ≤ s.jobTracker.mapsCompleted) :
    p = 0 ∧ ∀ o ∈ s.handedOut, o.job = s.submissions → o.assignment.type = .kMap → o.reported = true := by
  have hle := h.mapsCompleted_le
  have hp := h.pending_le
  have hcount := DistJobTracker.countP_plan_kMap s.jobTracker p r
  rw [← h.assignments] at hcount
  have hcompleted := h.mapsCompleted
  unfold Int32.toNatClampNeg at hle hp hcount
  refine ⟨by omega, fun o ho hjob htype => Session.reported_of_le ?_ ho hjob htype⟩
  rw [hcount]
  omega

/-- The same for the reduce tasks; none had been made before the job. -/
theorem reduces_reported (h : Current s p r) (hpos : 0 < s.jobTracker.numReduces.toInt)
    (hdone : s.jobTracker.numReduces.toInt ≤ s.jobTracker.reducesCompleted) :
    r = 0 ∧ s.jobTracker.pendingReducesCreated = s.jobTracker.numReduces.toNatClampNeg ∧
      ∀ o ∈ s.handedOut, o.job = s.submissions → o.assignment.type = .kReduce → o.reported = true := by
  have hle := h.reducesCompleted_le
  have hcreated := h.created
  have hcount := DistJobTracker.countP_plan_kReduce s.jobTracker p r
  rw [← h.assignments] at hcount
  have hcompleted := h.reducesCompleted
  unfold Int32.toNatClampNeg at hcreated ⊢
  refine ⟨by omega, by omega, fun o ho hjob htype => Session.reported_of_le ?_ ho hjob htype⟩
  rw [hcount]
  omega

/-! ## What each message keeps -/

/-- A map task is handed out, of this job or of one before it. -/
theorem handOutMap (h : Current s p r) {ts : List Task} {t : Task} (hm : s.jobTracker.pendingMaps = ts ++ [t]) :
    ∃ p', Current (s.handOut { s.jobTracker with pendingMaps := ts } (s.jobTracker.assignMap t)) p' r := by
  obtain ⟨stale, hstale⟩ := h.pendingMaps
  obtain ⟨old, horigins, hold, hlen⟩ := h.origins
  rw [hm] at hstale hlen
  rw [List.length_append, List.length_singleton] at hlen
  cases p with
  | zero =>
    -- all tasks of this job are out already; the task is from a submission before
    obtain ⟨old', j, rfl⟩ : ∃ old' j, old = old' ++ [j] := by
      rcases List.eq_nil_or_concat old with rfl | ⟨old', j, rfl⟩
      · simp at hlen
      · exact ⟨old', j, List.concat_eq_append ..⟩
    have hj := hold j (by simp)
    have hnext : s.nextJob = j := by rw [Session.nextJob, horigins]; simp
    have hdrop : s.origins.dropLast = old' := by rw [horigins]; simp
    refine ⟨0, h.jobId, ⟨ts, (List.append_nil ts).symm⟩, ⟨old', ?_, fun i hi => hold i (by simp [hi]), ?_⟩, ?_,
      Nat.zero_le _, h.pendingReduces, h.created, h.barrier, ?_, ?_, ?_⟩
    · exact hdrop.trans (List.append_nil old').symm
    · show old'.length + 0 = ts.length
      simpa using hlen
    · intro o ho
      rcases Session.mem_handOut ho with ho | rfl
      · exact h.jobs o ho
      · exact hnext.trans_le hj.le
    · rw [Session.assignments_handOut, if_neg (by omega), List.append_nil]
      exact h.assignments
    · rw [Session.reportedCount_handOut]; exact h.mapsCompleted
    · rw [Session.reportedCount_handOut]; exact h.reducesCompleted
  | succ p =>
    rw [List.range_succ, List.map_append, ← List.append_assoc] at hstale
    obtain ⟨rfl, ht⟩ := List.append_inj' hstale rfl
    rw [List.replicate_succ', ← List.append_assoc] at horigins
    have hnext : s.nextJob = s.submissions := by rw [Session.nextJob, horigins]; simp
    have hdrop : s.origins.dropLast = old ++ List.replicate p s.submissions := by rw [horigins]; simp
    -- a map task is pending, so no reduce task of this job has been made
    have hnone : s.jobTracker.pendingReducesCreated = r := by
      by_contra hne
      have := (h.maps_reported (h.barrier (lt_of_le_of_ne h.created.1 (Ne.symm hne)))).1
      omega
    refine ⟨p, h.jobId, ⟨stale, rfl⟩, ⟨old, hdrop, hold, ?_⟩, ?_, Nat.le_of_succ_le h.pending_le, h.pendingReduces,
      h.created, h.barrier, ?_, ?_, ?_⟩
    · show old.length + p = (stale ++ _).length
      omega
    · intro o ho
      rcases Session.mem_handOut ho with ho | rfl
      · exact h.jobs o ho
      · exact hnext.le
    · rw [Session.assignments_handOut, if_pos hnext, h.assignments, List.singleton_inj.1 ht,
        DistJobTracker.assignMap_mapTask]
      exact (DistJobTracker.plan_pred h.pending_le hnone).symm
    · rw [Session.reportedCount_handOut]; exact h.mapsCompleted
    · rw [Session.reportedCount_handOut]; exact h.reducesCompleted

/-- A reduce task is handed out: there is no other task, and all map tasks have been reported. -/
theorem handOutReduce (h : Current s p r) (hm : s.jobTracker.pendingMaps = []) {rs : List Task} {t : Task}
    (hr : s.jobTracker.createReduce.pendingReduces = rs ++ [t]) :
    s.jobTracker.numMaps.toInt ≤ s.jobTracker.mapsCompleted ∧
      DistJobTracker.assignReduce t = s.jobTracker.reduceAssignment s.jobTracker.pendingReducesCreated ∧
      Current (s.handOut { s.jobTracker.createReduce with pendingReduces := rs } (DistJobTracker.assignReduce t)) p r := by
  rcases s.jobTracker.createReduce_cases with hc | ⟨⟨hdone, hmore⟩, hc⟩
  · rw [hc, h.pendingReduces] at hr
    exact absurd hr.symm (by simp)
  · rw [hc, h.pendingReduces] at hr
    obtain ⟨rfl, ht⟩ : [] = rs ∧ [s.jobTracker.reduceTask s.jobTracker.pendingReducesCreated] = [t] :=
      List.append_inj' hr rfl
    obtain ⟨old, horigins, hold, hlen⟩ := h.origins
    rw [hm, List.length_nil] at hlen
    have hp : p = 0 := by omega
    have hold : s.origins = [] := by
      rw [horigins, hp, List.length_eq_zero_iff.1 (show old.length = 0 by omega)]
      rfl
    have hnext : s.nextJob = s.submissions := by rw [Session.nextJob, hold]; rfl
    have hcreated := h.created
    rw [← List.singleton_inj.1 ht, hc]
    refine ⟨hdone, rfl, h.jobId, h.pendingMaps, ⟨[], ?_, by simp, ?_⟩, ?_, h.pending_le, rfl, ?_, fun _ => hdone, ?_,
      ?_, ?_⟩
    · rw [Session.handOut, hp, hold]; rfl
    · show 0 + p = s.jobTracker.pendingMaps.length
      rw [hp, hm]
      rfl
    · intro o ho
      rcases Session.mem_handOut ho with ho | rfl
      · exact h.jobs o ho
      · exact hnext.le
    · show r ≤ s.jobTracker.pendingReducesCreated + 1 ∧
        s.jobTracker.pendingReducesCreated + 1 ≤ max r s.jobTracker.numReduces.toNatClampNeg
      unfold Int32.toNatClampNeg at hcreated ⊢
      omega
    · rw [Session.assignments_handOut, if_pos hnext, h.assignments]
      exact (DistJobTracker.plan_succ hcreated.1).symm
    · rw [Session.reportedCount_handOut]; exact h.mapsCompleted
    · rw [Session.reportedCount_handOut]; exact h.reducesCompleted

/-- A poll that hands out nothing changes at most the state of the job. -/
theorem pollNone (h : Current s p r) (hr : s.jobTracker.createReduce.pendingReduces = []) :
    Current { s with jobTracker := s.jobTracker.createReduce.finishJob } p r := by
  have hc : s.jobTracker.createReduce = s.jobTracker := by
    rcases s.jobTracker.createReduce_cases with hc | ⟨-, hc⟩
    · exact hc
    · rw [hc] at hr
      exact absurd hr (by simp)
  rw [hc]
  rcases s.jobTracker.finishJob_cases with hf | ⟨-, hf⟩
  · rw [hf]; exact h
  · rw [hf]
    exact ⟨h.jobId, h.pendingMaps, h.origins, h.jobs, h.pending_le, h.pendingReduces, h.created, h.barrier, h.assignments,
      h.mapsCompleted, h.reducesCompleted⟩

theorem poll (h : Current s p r) : ∃ p', Current (s.step .poll) p' r := by
  rw [Session.step]
  rcases s.jobTracker.pollForTask_cases with ⟨ts, t, hm, hpoll⟩ | ⟨hm, rs, t, hr, hpoll⟩ | ⟨-, hr, hpoll⟩
  · rw [hpoll]; exact h.handOutMap hm
  · rw [hpoll]; exact ⟨p, (h.handOutReduce hm hr).2.2⟩
  · rw [hpoll]; exact ⟨p, h.pollNone hr⟩

/-- The report of a task of this job is counted. -/
theorem receive (h : Current s p r) {k : Nat} {o : HandedOut} (hk : s.handedOut[k]? = some o)
    (hnew : o.reported = false) (hjob : o.job = s.submissions) {completion : Completion}
    (htype : completion.type = o.assignment.type) : Current (s.receive k o completion) p r := by
  have hmem := List.mem_of_getElem? hk
  have hjobs : ∀ o' ∈ (s.receive k o completion).handedOut, o'.job ≤ s.submissions := by
    intro o' ho'
    rcases List.mem_or_eq_of_mem_set ho' with ho' | rfl
    · exact h.jobs o' ho'
    · exact hjob.le
  have hassigned : (s.receive k o completion).assignments = s.assignments :=
    Counting.map_filter_set hk rfl rfl
  have hcount : ∀ type, (s.receive k o completion).reportedCount type =
      s.reportedCount type + if o.assignment.type = type then 1 else 0 := by
    intro type
    have hset := @Counting.countP_set_add _ s.handedOut k o { o with reported := true } hk
      fun h => s.currentOf type h && h.reported
    have hbefore : (s.currentOf type o && o.reported) = false := by simp [hnew]
    have hafter : (s.currentOf type { o with reported := true } && true) = decide (o.assignment.type = type) := by
      simp [Session.currentOf, Session.current, hjob]
    simp only [hbefore, hafter, decide_eq_true_eq, Bool.false_eq_true, if_false, Nat.add_zero] at hset
    exact hset
  cases completion with
  | map taskId numParts host port =>
    have hmap : o.assignment.type = .kMap := htype.symm
    have hnone : s.jobTracker.pendingReducesCreated = r := by
      by_contra hne
      have := (h.maps_reported (h.barrier (lt_of_le_of_ne h.created.1 (Ne.symm hne)))).2 o hmem hjob hmap
      rw [hnew] at this
      cases this
    refine ⟨h.jobId, h.pendingMaps, h.origins, hjobs, h.pending_le, h.pendingReduces, h.created, ?_, ?_, ?_, ?_⟩
    · intro hlt
      exact absurd hlt (by show ¬ r < s.jobTracker.pendingReducesCreated; omega)
    · rw [hassigned, h.assignments]
      simp only [DistJobTracker.plan, Session.receive, DistJobTracker.taskCompleted, hnone, Nat.sub_self,
        List.range'_zero, List.map_nil]
    · rw [hcount, if_pos hmap, ← h.mapsCompleted]; rfl
    · rw [hcount, if_neg (by simp [hmap]), ← h.reducesCompleted]; rfl
  | reduce taskId =>
    have hreduce : o.assignment.type = .kReduce := htype.symm
    refine ⟨h.jobId, h.pendingMaps, h.origins, hjobs, h.pending_le, h.pendingReduces, h.created, h.barrier, ?_, ?_, ?_⟩
    · rw [hassigned, h.assignments]; rfl
    · rw [hcount, if_neg (by simp [hreduce]), ← h.mapsCompleted]; rfl
    · rw [hcount, if_pos hreduce, ← h.reducesCompleted]; rfl

/-- With a submission nothing of the new job is handed out yet; what was made stays. -/
theorem submit (h : Current s p r) (inputPath outputPath : Bytes) (numMaps numReduces : Int32) :
    Current (s.step (.submit inputPath outputPath numMaps numReduces)) numMaps.toNatClampNeg
      s.jobTracker.pendingReducesCreated := by
  obtain ⟨old, horigins, hold, hlen⟩ := h.origins
  have hnone : s.handedOut.filter (fun o => o.job = s.submissions + 1) = [] := by
    rw [List.filter_eq_nil_iff]
    intro o ho
    have := h.jobs o ho
    simp only [decide_eq_true_eq]
    omega
  have hcount : ∀ type, (s.step (.submit inputPath outputPath numMaps numReduces)).reportedCount type = 0 := by
    intro type
    refine List.countP_eq_zero.2 fun o ho => ?_
    have := h.jobs o ho
    have hne : o.job ≠ s.submissions + 1 := by omega
    simp [Session.currentOf, Session.current, Session.step, hne]
  refine ⟨.inl rfl, ⟨s.jobTracker.pendingMaps, rfl⟩, ⟨s.origins, rfl, ?_, ?_⟩, fun o ho =>
    (h.jobs o ho).trans (Nat.le_succ _), le_rfl, h.pendingReduces, ⟨le_rfl, le_max_left _ _⟩, fun hlt =>
    absurd hlt (lt_irrefl _), ?_, (hcount _).symm, (hcount _).symm⟩
  · intro j hj
    rw [horigins] at hj
    rcases List.mem_append.1 hj with hj | hj
    · exact (hold j hj).trans (Nat.lt_succ_self _)
    · rw [List.eq_of_mem_replicate hj]; exact Nat.lt_succ_self _
  · have horiginsLen : s.origins.length = s.jobTracker.pendingMaps.length := by
      rw [horigins, List.length_append, List.length_replicate]; exact hlen
    simp [Session.step, DistJobTracker.submitJob, horiginsLen]
  · have hnil : (s.step (.submit inputPath outputPath numMaps numReduces)).assignments = [] :=
      (congrArg (List.map _) hnone).trans rfl
    rw [hnil]
    simp [DistJobTracker.plan, Session.step, DistJobTracker.submitJob]

theorem report (h : Current s p r) {k : Nat} (hown : ∀ o, s.handedOut[k]? = some o → o.reported = false →
    o.job = s.submissions) (numParts : Int32) (host : Bytes) (port : Int32) :
    Current (s.step (.report k numParts host port)) p r := by
  rcases s.report_cases k numParts host port with hstep | ⟨o, hk, hnew, hstep⟩
  · rw [hstep]; exact h
  · rw [hstep]; exact h.receive hk hnew (hown o hk hnew) (Assignment.type_completion ..)

/-- Before the first message. -/
theorem initial : Current {} 0 0 where
  jobId := .inr ⟨rfl, rfl⟩
  pendingMaps := ⟨[], rfl⟩
  origins := ⟨[], rfl, by simp, rfl⟩
  jobs := fun o ho => by cases ho
  pending_le := le_rfl
  pendingReduces := rfl
  created := ⟨le_rfl, le_rfl⟩
  barrier := fun hlt => absurd hlt (lt_irrefl _)
  assignments := by decide
  mapsCompleted := rfl
  reducesCompleted := rfl

end Current

/-! ## Reports and locations -/

def Completion.taskId : Completion → Bytes
  | .map taskId .. => taskId
  | .reduce taskId => taskId

theorem Assignment.taskId_completion (a : Assignment) (numParts : Int32) (host : Bytes) (port : Int32) :
    (a.completion numParts host port).taskId = a.taskId := by
  unfold completion
  cases a.type <;> rfl

/-- The locations that follow from a report: the partitions up to the reported number, at the address of its tracker. -/
def Completion.locations : Completion → List MapOutputLocation
  | .map taskId numParts host port =>
    (List.range numParts.toNatClampNeg).map fun i => ⟨taskId, host, port, Int32.ofNat i⟩
  | .reduce _ => []

namespace Session

/-- The reports of map tasks. -/
def mapReports (s : Session) : List Completion := s.reports.filter fun c => c.type = .kMap

theorem flatMap_mapReports (s : Session) :
    s.mapReports.flatMap Completion.locations = s.reports.flatMap Completion.locations := by
  unfold mapReports
  induction s.reports with
  | nil => rfl
  | cons c cs ih =>
    cases c with
    | map =>
      rw [List.filter_cons_of_pos (by rfl), List.flatMap_cons, List.flatMap_cons, ih]
    | reduce =>
      rw [List.filter_cons_of_neg (by simp [Completion.type]), List.flatMap_cons, ih]
      rfl

end Session

/-- What the reports so far say: they are of the tasks that have been reported, each once, and the JobTracker knows the
locations of all of them. -/
structure Reported (s : Session) : Prop where
  locations : s.jobTracker.mapOutputLocations = s.reports.flatMap Completion.locations
  tasks : (s.reports.map fun c => (c.type, c.taskId)).Perm
    ((s.handedOut.filter (·.reported)).map fun o => (o.assignment.type, o.assignment.taskId))

namespace DistJobTracker

/-- The arguments of the last submission. -/
def job (s : DistJobTracker) : Bytes × Bytes × Bytes × Int32 × Int32 :=
  (s.jobId, s.inputPath, s.outputPath, s.numMaps, s.numReduces)

theorem job_parts {s : DistJobTracker} {jobId inputPath outputPath : Bytes} {numMaps numReduces : Int32}
    (h : s.job = (jobId, inputPath, outputPath, numMaps, numReduces)) :
    s.jobId = jobId ∧ s.inputPath = inputPath ∧ s.outputPath = outputPath ∧ s.numMaps = numMaps ∧
      s.numReduces = numReduces := by
  simpa [job] using h

/-- What a poll leaves as it is. -/
theorem pollForTask_frame (s : DistJobTracker) :
    s.pollForTask.1.job = s.job ∧ s.pollForTask.1.mapOutputLocations = s.mapOutputLocations ∧
      s.pollForTask.1.mapsCompleted = s.mapsCompleted ∧ s.pollForTask.1.reducesCompleted = s.reducesCompleted := by
  have hcreate : s.createReduce.job = s.job ∧ s.createReduce.mapOutputLocations = s.mapOutputLocations ∧
      s.createReduce.mapsCompleted = s.mapsCompleted ∧ s.createReduce.reducesCompleted = s.reducesCompleted := by
    rcases s.createReduce_cases with hc | ⟨-, hc⟩ <;> rw [hc] <;> exact ⟨rfl, rfl, rfl, rfl⟩
  rcases s.pollForTask_cases with ⟨ts, t, -, hpoll⟩ | ⟨-, rs, t, -, hpoll⟩ | ⟨-, -, hpoll⟩
  · rw [hpoll]; exact ⟨rfl, rfl, rfl, rfl⟩
  · rw [hpoll]; exact hcreate
  · rw [hpoll]
    rcases s.createReduce.finishJob_cases with hf | ⟨-, hf⟩
    · rw [hf]; exact hcreate
    · rw [hf]; exact hcreate

theorem taskCompleted_job (s : DistJobTracker) (c : Completion) : (s.taskCompleted c).job = s.job := by
  cases c <;> rfl

theorem taskCompleted_locations (s : DistJobTracker) (c : Completion) :
    (s.taskCompleted c).mapOutputLocations = s.mapOutputLocations ++ c.locations := by
  cases c with
  | map => rfl
  | reduce => exact (List.append_nil _).symm

end DistJobTracker

namespace Session

variable {s : Session}

/-- Between submissions the job stays the same. -/
theorem step_job {e : Event} (he : e.isSubmit = false) :
    (s.step e).jobTracker.job = s.jobTracker.job ∧ (s.step e).submissions = s.submissions := by
  cases e with
  | submit => cases he
  | poll =>
    have hjob := s.jobTracker.pollForTask_frame.1
    rcases s.poll_cases with ⟨t, a, hpoll, hstep⟩ | ⟨t, hpoll, hstep⟩
    · rw [hpoll] at hjob; rw [hstep]; exact ⟨hjob, rfl⟩
    · rw [hpoll] at hjob; rw [hstep]; exact ⟨hjob, rfl⟩
  | report k numParts host port =>
    rcases s.report_cases k numParts host port with hstep | ⟨o, -, -, hstep⟩
    · rw [hstep]; exact ⟨rfl, rfl⟩
    · rw [hstep]; exact ⟨s.jobTracker.taskCompleted_job _, rfl⟩

end Session

theorem Reported.step {s : Session} (h : Reported s) (e : Session.Event) : Reported (s.step e) := by
  cases e with
  | submit => exact ⟨h.locations, h.tasks⟩
  | poll =>
    have hlocations := s.jobTracker.pollForTask_frame.2.1
    rcases s.poll_cases with ⟨t, a, hpoll, hstep⟩ | ⟨t, hpoll, hstep⟩
    · rw [hpoll] at hlocations
      rw [hstep]
      refine ⟨hlocations.trans h.locations, ?_⟩
      rw [Session.handOut, List.filter_append, List.filter_cons_of_neg (by simp), List.filter_nil, List.append_nil]
      exact h.tasks
    · rw [hpoll] at hlocations
      rw [hstep]
      exact ⟨hlocations.trans h.locations, h.tasks⟩
  | report k numParts host port =>
    rcases s.report_cases k numParts host port with hstep | ⟨o, hk, hnew, hstep⟩
    · rw [hstep]; exact h
    · rw [hstep]
      refine ⟨?_, ?_⟩
      · rw [Session.receive, DistJobTracker.taskCompleted_locations, h.locations, List.flatMap_append,
          List.flatMap_singleton]
      · have hset := (@Counting.filter_set_perm _ s.handedOut k o { o with reported := true } (·.reported) hk hnew
          rfl).map fun o => (o.assignment.type, o.assignment.taskId)
        rw [Session.receive, List.map_append]
        refine (h.tasks.append_right _).trans ?_
        rw [List.map_append] at hset
        refine List.Perm.trans (List.Perm.of_eq ?_) hset.symm
        rw [List.map_singleton, List.map_singleton, Assignment.type_completion, Assignment.taskId_completion]

/-! ## A single job -/

/-- All tasks, handed out or pending, are of the job that was submitted last. -/
structure SoleJob (s : Session) : Prop where
  origins : ∀ j ∈ s.origins, j = s.submissions
  handedOut : ∀ o ∈ s.handedOut, o.job = s.submissions

namespace SoleJob

variable {s : Session} {p r : Nat}

theorem nextJob (h : SoleJob s) : s.nextJob = s.submissions := by
  unfold Session.nextJob
  cases hlast : s.origins.getLast? with
  | none => rfl
  | some j => exact h.origins j (List.mem_of_getLast? hlast)

theorem step (h : SoleJob s) {e : Session.Event} (he : e.isSubmit = false) : SoleJob (s.step e) := by
  cases e with
  | submit => cases he
  | poll =>
    rcases s.poll_cases with ⟨t, a, -, hstep⟩ | ⟨t, -, hstep⟩
    · rw [hstep]
      refine ⟨fun j hj => h.origins j (List.dropLast_subset _ hj), fun o ho => ?_⟩
      rcases Session.mem_handOut ho with ho | rfl
      · exact h.handedOut o ho
      · exact h.nextJob
    · rw [hstep]; exact ⟨h.origins, h.handedOut⟩
  | report k numParts host port =>
    rcases s.report_cases k numParts host port with hstep | ⟨o, hk, -, hstep⟩
    · rw [hstep]; exact h
    · rw [hstep]
      refine ⟨h.origins, fun o' ho' => ?_⟩
      rcases List.mem_or_eq_of_mem_set ho' with ho' | rfl
      · exact h.handedOut o' ho'
      · exact h.handedOut o (List.mem_of_getElem? hk)

theorem assignments (h : SoleJob s) : s.assignments = s.handedOut.map (·.assignment) := by
  rw [Session.assignments, List.filter_eq_self.2 fun o ho => by simp [Session.current, h.handedOut o ho]]

/-- All pending map tasks are of this job. -/
theorem pendingMaps (h : SoleJob s) (hc : Current s p r) :
    s.jobTracker.pendingMaps = (List.range p).map (mapTask (bytes "job_001") s.jobTracker.inputPath) := by
  obtain ⟨old, horigins, hold, hlen⟩ := hc.origins
  obtain ⟨stale, hstale⟩ := hc.pendingMaps
  have hnil : old = [] := by
    refine List.eq_nil_iff_forall_not_mem.2 fun j hj => ?_
    have := h.origins j (by rw [horigins]; exact List.mem_append_left _ hj)
    have := hold j hj
    omega
  rw [hstale, List.length_append, List.length_map, List.length_range, hnil, List.length_nil] at hlen
  rw [hstale, List.length_eq_zero_iff.1 (show stale.length = 0 by omega), List.nil_append]

end SoleJob

/-- The invariants of a session in which a single job was submitted, or none yet. -/
structure Single (job : Bytes × Bytes × Bytes × Int32 × Int32) (s : Session) : Prop where
  current : ∃ p, Current s p 0
  sole : SoleJob s
  reported : Reported s
  job : s.jobTracker.job = job

namespace Single

variable {job : Bytes × Bytes × Bytes × Int32 × Int32} {s : Session}

theorem step (h : Single job s) {e : Session.Event} (he : e.isSubmit = false) : Single job (s.step e) := by
  obtain ⟨p, hc⟩ := h.current
  refine ⟨?_, h.sole.step he, h.reported.step e, (Session.step_job he).1.trans h.job⟩
  cases e with
  | submit => cases he
  | poll => exact hc.poll
  | report k numParts host port =>
    exact ⟨p, hc.report (fun o hk _ => h.sole.handedOut o (List.mem_of_getElem? hk)) numParts host port⟩

theorem run {es : List Session.Event} (h : Single job s) (hes : ∀ e ∈ es, e.isSubmit = false) :
    Single job (after Session.step s es) :=
  @after_keeps _ _ Session.step s (Single job) es h fun _ e he hs => hs.step (hes e he)

theorem initial : Single ([], [], [], 0, 0) {} :=
  ⟨⟨0, Current.initial⟩, ⟨by simp, by simp⟩, ⟨rfl, List.Perm.refl _⟩, rfl⟩

/-- The first submission: nothing has been handed out before it. -/
theorem submit (h : Single ([], [], [], 0, 0) s) (inputPath outputPath : Bytes) (numMaps numReduces : Int32) :
    Single (bytes "job_001", inputPath, outputPath, numMaps, numReduces)
      (s.step (.submit inputPath outputPath numMaps numReduces)) := by
  obtain ⟨p, hc⟩ := h.current
  obtain ⟨-, -, -, hmaps, hreduces⟩ := DistJobTracker.job_parts h.job
  have hp : p = 0 := by
    have := hc.pending_le
    rw [hmaps] at this
    exact Nat.le_zero.1 this
  have hcreated : s.jobTracker.pendingReducesCreated = 0 := by
    have := hc.created.2
    rw [hreduces] at this
    exact Nat.le_zero.1 this
  have hnone : s.handedOut = [] := by
    have hplan := h.sole.assignments.symm.trans hc.assignments
    rw [DistJobTracker.plan, hmaps, hcreated, hp] at hplan
    exact List.map_eq_nil_iff.1 hplan
  have horigins : s.origins = [] := by
    obtain ⟨old, horigins, hold, hlen⟩ := hc.origins
    rw [h.sole.pendingMaps hc, hp] at hlen
    rw [horigins, hp, List.length_eq_zero_iff.1 hlen]
    rfl
  refine ⟨⟨_, by have := hc.submit inputPath outputPath numMaps numReduces; rw [hcreated] at this; exact this⟩, ⟨?_, ?_⟩,
    h.reported.step _, rfl⟩
  · intro j hj
    rw [Session.step, horigins] at hj
    exact List.eq_of_mem_replicate hj
  · intro o ho
    rw [Session.step, hnone] at ho
    cases ho

section Facts

variable {inputPath outputPath : Bytes} {numMaps numReduces : Int32}
  (h : Single (bytes "job_001", inputPath, outputPath, numMaps, numReduces) s)

include h

/-- The ids that were handed out, in this order. -/
theorem map_taskId : ∃ p, s.handedOut.map (·.assignment.taskId) =
    (List.range' p (numMaps.toNatClampNeg - p)).reverse.map mapTaskId ++
      (List.range' 0 s.jobTracker.pendingReducesCreated).map reduceTaskId := by
  obtain ⟨p, hc⟩ := h.current
  obtain ⟨hid, -, -, hmaps, -⟩ := DistJobTracker.job_parts h.job
  have hplan := h.sole.assignments.symm.trans hc.assignments
  refine ⟨p, ?_⟩
  rw [show s.handedOut.map (·.assignment.taskId) = (s.handedOut.map (·.assignment)).map (·.taskId) by
    rw [List.map_map]; rfl, hplan, DistJobTracker.plan, List.map_append, List.map_map, List.map_map, hmaps, Nat.sub_zero]
  congr 1
  refine List.map_congr_left fun r _ => ?_
  show s.jobTracker.jobId ++ _ ++ _ = reduceTaskId r
  rw [hid]
  rfl

theorem nodup_taskId : (s.handedOut.map (·.assignment.taskId)).Nodup := by
  obtain ⟨p, hids⟩ := h.map_taskId
  rw [hids]
  refine List.nodup_append.2 ⟨?_, ?_, ?_⟩
  · exact (List.nodup_reverse.2 List.nodup_range').map mapTaskId_injective
  · exact List.Nodup.map reduceTaskId_injective List.nodup_range'
  · intro a ha b hb
    obtain ⟨i, -, rfl⟩ := List.mem_map.1 ha
    obtain ⟨r, -, rfl⟩ := List.mem_map.1 hb
    exact mapTaskId_ne_reduceTaskId i r

theorem countP_type (type : TaskType) :
    s.handedOut.countP (fun o => o.assignment.type = type) ≤
      match type with
      | .kMap => numMaps.toNatClampNeg
      | .kReduce => numReduces.toNatClampNeg := by
  obtain ⟨p, hc⟩ := h.current
  have hcount : s.handedOut.countP (fun o => o.assignment.type = type) =
      (s.jobTracker.plan p 0).countP fun a => a.type = type := by
    rw [← h.sole.assignments.symm.trans hc.assignments, List.countP_map]
    rfl
  obtain ⟨-, -, -, hmaps, hreduces⟩ := DistJobTracker.job_parts h.job
  rw [hcount]
  cases type with
  | kMap =>
    rw [DistJobTracker.countP_plan_kMap, hmaps]
    exact Nat.sub_le _ _
  | kReduce =>
    rw [DistJobTracker.countP_plan_kReduce, Nat.sub_zero, ← hreduces]
    exact hc.created.2.trans (max_le (Nat.zero_le _) le_rfl)

/-- A reduce task is handed out after the last report of a map task, and carries all that was reported. -/
theorem poll_kReduce {a : Assignment} (hpoll : s.jobTracker.pollForTask.2 = some a) (htype : a.type = .kReduce) :
    numMaps.toInt ≤ s.jobTracker.mapsCompleted ∧ a.mapOutputs = s.jobTracker.mapOutputLocations := by
  obtain ⟨p, hc⟩ := h.current
  obtain ⟨-, -, -, hmaps, -⟩ := DistJobTracker.job_parts h.job
  rcases s.jobTracker.pollForTask_cases with ⟨ts, t, hm, heq⟩ | ⟨hm, rs, t, hr, heq⟩ | ⟨-, -, heq⟩
  · -- a pending task is a map task
    rw [h.sole.pendingMaps hc] at hm
    obtain ⟨i, -, rfl⟩ := List.mem_map.1 (show t ∈ (List.range p).map _ by rw [hm]; simp)
    rw [heq, DistJobTracker.assignMap_mapTask] at hpoll
    rw [← Option.some.inj hpoll] at htype
    cases htype
  · obtain ⟨hdone, hassign, -⟩ := hc.handOutReduce hm hr
    rw [heq, hassign] at hpoll
    rw [← Option.some.inj hpoll, ← hmaps]
    exact ⟨hdone, rfl⟩
  · rw [heq] at hpoll
    cases hpoll

/-- Then every map task has been reported, once. -/
theorem map_mapReports (hdone : numMaps.toInt ≤ s.jobTracker.mapsCompleted) :
    (s.mapReports.map (·.taskId)).Perm ((List.range numMaps.toNatClampNeg).map mapTaskId) := by
  obtain ⟨p, hc⟩ := h.current
  obtain ⟨-, -, -, hmaps, -⟩ := DistJobTracker.job_parts h.job
  rw [← hmaps] at hdone
  obtain ⟨rfl, hall⟩ := hc.maps_reported hdone
  -- a task that is not reported is no map task
  have hfilter : (s.handedOut.filter (·.reported)).filter (fun o => o.assignment.type = .kMap) =
      s.handedOut.filter fun o => o.assignment.type = .kMap := by
    rw [List.filter_filter]
    refine List.filter_congr fun o ho => ?_
    by_cases htype : o.assignment.type = .kMap
    · simp [htype, hall o ho (h.sole.handedOut o ho) htype]
    · simp [htype]
  have hplan : (s.handedOut.filter fun o => o.assignment.type = .kMap).map (·.assignment.taskId) =
      (List.range' 0 numMaps.toNatClampNeg).reverse.map mapTaskId := by
    have hfiltered := s.jobTracker.filter_plan_kMap 0 0
    rw [← h.sole.assignments.symm.trans hc.assignments, List.filter_map, hmaps, Nat.sub_zero] at hfiltered
    have hids := congrArg (List.map (·.taskId)) hfiltered
    rw [List.map_map, List.map_map] at hids
    exact hids
  have hperm := (h.reported.tasks.filter (fun x => x.1 = .kMap)).map (·.2)
  rw [List.filter_map, List.filter_map, List.map_map, List.map_map] at hperm
  refine hperm.trans ?_
  show (((s.handedOut.filter (·.reported)).filter fun o => o.assignment.type = .kMap).map (·.assignment.taskId)).Perm _
  rw [hfilter, hplan, List.range_eq_range']
  exact (List.reverse_perm _).map _

end Facts

end Single

namespace Session

/-- For a single job, with polls before it and any order of polls and reports after it: no task is handed out twice, nor
more tasks than the job has, and a poll that hands out a reduce task comes after the reports of all map tasks and hands
out the locations in them. -/
theorem scheduling_safe {pre post : List Event} (hpre : ∀ e ∈ pre, e.isSubmit = false)
    (hpost : ∀ e ∈ post, e.isSubmit = false) (inputPath outputPath : Bytes) (numMaps numReduces : Int32) :
    let s := after step {} (pre ++ .submit inputPath outputPath numMaps numReduces :: post)
    (s.handedOut.map (·.assignment.taskId)).Nodup ∧
    s.handedOut.countP (fun o => o.assignment.type = .kMap) ≤ numMaps.toNatClampNeg ∧
    s.handedOut.countP (fun o => o.assignment.type = .kReduce) ≤ numReduces.toNatClampNeg ∧
    ∀ a, s.jobTracker.pollForTask.2 = some a → a.type = .kReduce →
      (s.mapReports.map (·.taskId)).Perm ((List.range numMaps.toNatClampNeg).map mapTaskId) ∧
      a.mapOutputs = s.mapReports.flatMap Completion.locations := by
  intro s
  have h : Single (bytes "job_001", inputPath, outputPath, numMaps, numReduces) s := by
    have hrun := ((Single.initial.run hpre).submit inputPath outputPath numMaps numReduces).run hpost
    rw [after, after, ← List.foldl_cons, ← List.foldl_append] at hrun
    exact hrun
  refine ⟨h.nodup_taskId, h.countP_type .kMap, h.countP_type .kReduce, fun a hpoll htype => ?_⟩
  obtain ⟨hdone, houtputs⟩ := h.poll_kReduce hpoll htype
  refine ⟨h.map_mapReports hdone, ?_⟩
  rw [houtputs, h.reported.locations, flatMap_mapReports]

/-- One map task: after its report a reduce task is handed out, with the one location reported. -/
theorem scheduling_safe_oneMap :
    let s := after step {} ([.poll] ++ .submit (bytes "in") (bytes "out") 1 1 :: [.poll, .report 0 1 (bytes "h") 17301])
    (s.handedOut.map (·.assignment.taskId)).Nodup ∧
    ∃ a, s.jobTracker.pollForTask.2 = some a ∧ a.type = .kReduce ∧ a.mapOutputs.length = 1 ∧
      a.mapOutputs = s.mapReports.flatMap Completion.locations := by
  have h := @scheduling_safe [.poll] [.poll, .report 0 1 (bytes "h") 17301] (by decide) (by decide) (bytes "in")
    (bytes "out") 1 1
  refine ⟨h.1, _, rfl, by decide +kernel, by decide +kernel, (h.2.2.2 _ rfl (by decide +kernel)).2⟩

end Session

end MiniHadoop.Mapred

/-
When `IsJobDone()` may be believed. The flag is set by a poll that finds the counters full, and nothing ever clears it:
it comes up on a fresh tracker, whose counters and numbers are all zero, it stays up for the next job, and reports of an
earlier job fill the counters of the next. In a session in which none of this happens, the flag says that every task of
the job that was submitted last has been reported.
-/
import MiniHadoop.Mapred.Scheduling

namespace MiniHadoop.Mapred

open Text Runs

namespace DistJobTracker

/-- The counters have reached the numbers of the job. -/
def Full (s : DistJobTracker) : Prop :=
  s.numMaps.toInt ≤ s.mapsCompleted ∧ s.numReduces.toInt ≤ s.reducesCompleted

theorem Full.mono {s s' : DistJobTracker} (h : s.Full) (hjob : s'.job = s.job)
    (hmaps : s.mapsCompleted ≤ s'.mapsCompleted) (hreduces : s.reducesCompleted ≤ s'.reducesCompleted) : s'.Full := by
  obtain ⟨-, -, -, hnumMaps, hnumReduces⟩ := job_parts hjob
  refine ⟨?_, ?_⟩
  · rw [hnumMaps]; exact h.1.trans (by exact_mod_cast hmaps)
  · rw [hnumReduces]; exact h.2.trans (by exact_mod_cast hreduces)

/-- A poll sets the flag only when the counters are full. -/
theorem pollForTask_jobDone (s : DistJobTracker) :
    s.pollForTask.1.jobDone = s.jobDone ∨ s.Full := by
  have hcreate : s.createReduce.jobDone = s.jobDone ∧ (s.createReduce.Full → s.Full) := by
    rcases s.createReduce_cases with hc | ⟨-, hc⟩ <;> rw [hc] <;> exact ⟨rfl, id⟩
  rcases s.pollForTask_cases with ⟨ts, t, -, hpoll⟩ | ⟨-, rs, t, -, hpoll⟩ | ⟨-, -, hpoll⟩
  · rw [hpoll]; exact .inl rfl
  · rw [hpoll]; exact .inl hcreate.1
  · rw [hpoll]
    rcases s.createReduce.finishJob_cases with hf | ⟨hfull, -⟩
    · rw [hf]; exact .inl hcreate.1
    · exact .inr (hcreate.2 hfull)

theorem taskCompleted_counters (s : DistJobTracker) (c : Completion) :
    s.mapsCompleted ≤ (s.taskCompleted c).mapsCompleted ∧ s.reducesCompleted ≤ (s.taskCompleted c).reducesCompleted ∧
      (s.taskCompleted c).jobDone = s.jobDone := by
  cases c with
  | map => exact ⟨Nat.le_succ _, le_rfl, rfl⟩
  | reduce => exact ⟨le_rfl, Nat.le_succ _, rfl⟩

end DistJobTracker

namespace Session

variable {s : Session}

/-! ## What the flag should say -/

/-- A task of the job that was submitted last has been reported. -/
def TaskReported (s : Session) (type : TaskType) (taskId : Bytes) : Prop :=
  ∃ o ∈ s.handedOut, o.job = s.submissions ∧ o.assignment.type = type ∧ o.assignment.taskId = taskId ∧
    o.reported = true

instance (s : Session) (type : TaskType) (taskId : Bytes) : Decidable (s.TaskReported type taskId) :=
  inferInstanceAs (Decidable (∃ o ∈ s.handedOut, o.job = s.submissions ∧ o.assignment.type = type ∧
    o.assignment.taskId = taskId ∧ o.reported = true))

/-- When the job is done, one has been submitted and all its tasks have been reported. -/
def CompletionSound (s : Session) : Prop :=
  s.jobTracker.isJobDone = true → 0 < s.submissions ∧
    (∀ i < s.jobTracker.numMaps.toNatClampNeg, s.TaskReported .kMap (mapTaskId i)) ∧
    ∀ r < s.jobTracker.numReduces.toNatClampNeg, s.TaskReported .kReduce (reduceTaskId r)

instance (s : Session) : Decidable s.CompletionSound :=
  inferInstanceAs (Decidable (s.jobTracker.isJobDone = true → 0 < s.submissions ∧
    (∀ i < s.jobTracker.numMaps.toNatClampNeg, s.TaskReported .kMap (mapTaskId i)) ∧
    ∀ r < s.jobTracker.numReduces.toNatClampNeg, s.TaskReported .kReduce (reduceTaskId r)))

/-- Nobody polls before the first submission, a job with tasks is submitted only while the flag is down, and only tasks of
the last job are reported. -/
def Orderly (s : Session) : Event → Prop
  | .submit _ _ numMaps numReduces =>
    s.jobTracker.isJobDone = false ∨ (numMaps.toInt ≤ 0 ∧ numReduces.toInt ≤ 0)
  | .poll => 0 < s.submissions
  | .report k .. => ∀ o ∈ s.handedOut[k]?, o.reported = false → o.job = s.submissions

instance (s : Session) : DecidablePred s.Orderly
  | .submit _ _ numMaps numReduces => inferInstanceAs
    (Decidable (s.jobTracker.isJobDone = false ∨ (numMaps.toInt ≤ 0 ∧ numReduces.toInt ≤ 0)))
  | .poll => inferInstanceAs (Decidable (0 < s.submissions))
  | .report k .. => inferInstanceAs (Decidable (∀ o ∈ s.handedOut[k]?, o.reported = false → o.job = s.submissions))

/-! ## The invariant -/

/-- The counters count the reports of the last job, and the flag is up only when they are full. -/
structure Counted (s : Session) : Prop where
  current : ∃ p r, Current s p r
  done : s.jobTracker.isJobDone = true → 0 < s.submissions ∧ s.jobTracker.Full

theorem taskReported_of_plan {p r : Nat} (h : Current s p r) {type : TaskType} {a : Assignment}
    (hmem : a ∈ s.jobTracker.plan p r) (htype : a.type = type)
    (hall : ∀ o ∈ s.handedOut, o.job = s.submissions → o.assignment.type = type → o.reported = true) :
    s.TaskReported type a.taskId := by
  rw [← h.assignments] at hmem
  obtain ⟨o, ho, rfl⟩ := List.mem_map.1 hmem
  obtain ⟨ho, hjob⟩ := List.mem_filter.1 ho
  simp only [current, decide_eq_true_eq] at hjob
  exact ⟨o, ho, hjob, htype, rfl, hall o ho hjob htype⟩

/-- Full counters mean that every task has been reported. -/
theorem Counted.sound (h : Counted s) : s.CompletionSound := by
  intro hdone
  obtain ⟨p, r, hc⟩ := h.current
  obtain ⟨hsub, hmaps, hreduces⟩ := h.done hdone
  refine ⟨hsub, fun i hi => ?_, fun i hi => ?_⟩
  · obtain ⟨rfl, hall⟩ := hc.maps_reported hmaps
    have hmem : mapAssignment s.jobTracker.inputPath i ∈ s.jobTracker.plan 0 r := by
      refine List.mem_append_left _ (List.mem_map_of_mem ?_)
      rw [List.mem_reverse, List.mem_range'_1]
      omega
    exact taskReported_of_plan hc hmem rfl hall
  · have hpos : 0 < s.jobTracker.numReduces.toInt := by
      unfold Int32.toNatClampNeg at hi
      omega
    obtain ⟨rfl, hcreated, hall⟩ := hc.reduces_reported hpos hreduces
    have hid : s.jobTracker.jobId = bytes "job_001" := by
      rcases hc.jobId with hid | ⟨-, hnone⟩
      · exact hid
      · rw [hnone] at hi
        exact absurd hi (Nat.not_lt_zero i)
    have hmem : s.jobTracker.reduceAssignment i ∈ s.jobTracker.plan p 0 := by
      refine List.mem_append_right _ (List.mem_map_of_mem ?_)
      rw [List.mem_range'_1]
      omega
    have hreported := taskReported_of_plan hc hmem rfl hall
    rw [show (s.jobTracker.reduceAssignment i).taskId = s.jobTracker.jobId ++ bytes "_r_" ++ decimal i from rfl,
      hid] at hreported
    exact hreported

theorem Counted.step (h : Counted s) {e : Event} (he : s.Orderly e) : Counted (s.step e) := by
  obtain ⟨p, r, hc⟩ := h.current
  cases e with
  | submit inputPath outputPath numMaps numReduces =>
    refine ⟨⟨_, _, hc.submit inputPath outputPath numMaps numReduces⟩, fun hdone => ⟨Nat.succ_pos _, ?_⟩⟩
    rcases he with hclear | ⟨hmaps, hreduces⟩
    · exact absurd (hclear.symm.trans hdone) (by simp)
    · exact ⟨hmaps, hreduces⟩
  | poll =>
    obtain ⟨p', hc'⟩ := hc.poll
    refine ⟨⟨p', r, hc'⟩, ?_⟩
    have hdone : ∀ t, s.jobTracker.pollForTask.1 = t → t.isJobDone = true → 0 < s.submissions ∧ t.Full := by
      rintro _ rfl hdone
      obtain ⟨hjob, -, hmaps, hreduces⟩ := s.jobTracker.pollForTask_frame
      refine ⟨he, ?_⟩
      have hfull : s.jobTracker.Full := by
        rcases s.jobTracker.pollForTask_jobDone with hsame | hfull
        · exact (h.done (hsame.symm.trans hdone)).2
        · exact hfull
      exact hfull.mono hjob hmaps.ge hreduces.ge
    rcases s.poll_cases with ⟨t, a, hpoll, hstep⟩ | ⟨t, hpoll, hstep⟩
    · rw [hstep]; exact hdone t (congrArg Prod.fst hpoll)
    · rw [hstep]; exact hdone t (congrArg Prod.fst hpoll)
  | report k numParts host port =>
    refine ⟨⟨p, r, hc.report he numParts host port⟩, ?_⟩
    rcases s.report_cases k numParts host port with hstep | ⟨o, -, -, hstep⟩
    · rw [hstep]; exact h.done
    · rw [hstep]
      intro hdone
      obtain ⟨hmaps, hreduces, hsame⟩ :=
        s.jobTracker.taskCompleted_counters (o.assignment.completion numParts host port)
      obtain ⟨hsub, hfull⟩ := h.done (hsame.symm.trans hdone)
      exact ⟨hsub, hfull.mono (s.jobTracker.taskCompleted_job _) hmaps hreduces⟩

/-! ## Every run -/

/-- In a session that is orderly at every message, the flag is right in every state. -/
theorem completion_sound {es : List Event} (hes : ∀ pre e, pre ++ [e] <+: es → (after step {} pre).Orderly e) :
    ∀ pre, pre <+: es → (after step {} pre).CompletionSound := by
  intro pre hpre
  have h := @after_invariant _ _ step {} (fun _ s => Counted s) es
    ⟨⟨0, 0, Current.initial⟩, fun hdone => by cases hdone⟩ (fun pre e hpre h => h.step (hes pre e hpre)) pre hpre
  exact h.sound

/-- A job of one map and one reduce task, to its end. -/
def oneJob : List Event :=
  [.submit (bytes "in") (bytes "out") 1 1, .poll, .report 0 1 (bytes "h") 17301, .poll, .report 1 0 [] 0, .poll]

theorem completion_sound_oneJob :
    (after step {} oneJob).jobTracker.isJobDone = true ∧ (after step {} oneJob).CompletionSound :=
  ⟨by decide +kernel, completion_sound
    (@forall_snoc_of_take _ (fun pre e => (after step {} pre).Orderly e) oneJob (by decide +kernel)) oneJob
    (List.prefix_refl _)⟩

/-- A poll of a fresh tracker ends a job that nobody submitted. -/
theorem done_without_job : ¬ ∀ es : List Event, (after step {} es).CompletionSound := by
  intro h
  exact absurd (h [.poll]) (by decide)

end Session

end MiniHadoop.Mapred

/-
A JobTracker and the messages that reach it, from any number of trackers and in any order. A task that was handed out is
reported at most once. The tracker numbers no jobs, and gives the tasks of every job the same ids; here each task
carries the submission it comes from, so that it can be said whose report a counter counts.
-/
import MiniHadoop.Mapred.MapPhase

namespace MiniHadoop.Mapred

open Text Runs

/-! ## States -/

/-- A task that was handed out: the submission it comes from, and whether it has been reported. -/
structure HandedOut where
  job : Nat
  assignment : Assignment
  reported : Bool
  deriving DecidableEq, Repr

/-- The JobTracker with the number of submissions so far, the submission of every task in `pending_maps_`, the tasks
handed out and the reports that have arrived. -/
structure Session where
  jobTracker : DistJobTracker := {}
  submissions : Nat := 0
  origins : List Nat := []
  handedOut : List HandedOut := []
  reports : List Completion := []

/-- The report of a task; a reduce task says nothing but its id. -/
def Assignment.completion (a : Assignment) (numParts : Int32) (host : Bytes) (port : Int32) : Completion :=
  match a.type with
  | .kMap => .map a.taskId numParts host port
  | .kReduce => .reduce a.taskId

namespace Session

/-! ## Steps -/

/-- A job is submitted, a tracker polls, or the `k`-th task handed out is reported. -/
inductive Event where
  | submit (inputPath outputPath : Bytes) (numMaps numReduces : Int32)
  | poll
  | report (k : Nat) (numParts : Int32) (host : Bytes) (port : Int32)
  deriving DecidableEq, Repr

def Event.isSubmit : Event → Bool
  | .submit .. => true
  | _ => false

/-- The submission of the next task: a map task is the last pending one, a reduce task is made for the job that was
submitted last. -/
def nextJob (s : Session) : Nat := s.origins.getLast?.getD s.submissions

/-- A task is handed out. -/
def handOut (s : Session) (jobTracker : DistJobTracker) (assignment : Assignment) : Session :=
  { s with
    jobTracker
    origins := s.origins.dropLast
    handedOut := s.handedOut ++ [⟨s.nextJob, assignment, false⟩] }

/-- The report of the `k`-th task arrives. -/
def receive (s : Session) (k : Nat) (h : HandedOut) (completion : Completion) : Session :=
  { s with
    jobTracker := s.jobTracker.taskCompleted completion
    handedOut := s.handedOut.set k { h with reported := true }
    reports := s.reports ++ [completion] }

/-- A message is handled. A report of a task that was not handed out, or that has been reported, is not sent. -/
def step (s : Session) : Event → Session
  | .submit inputPath outputPath numMaps numReduces =>
    { s with
      jobTracker := s.jobTracker.submitJob inputPath outputPath numMaps numReduces
      submissions := s.submissions + 1
      origins := s.origins ++ List.replicate numMaps.toNatClampNeg (s.submissions + 1) }
  | .poll =>
    match s.jobTracker.pollForTask with
    | (jobTracker, some assignment) => s.handOut jobTracker assignment
    | (jobTracker, none) => { s with jobTracker }
  | .report k numParts host port =>
    match s.handedOut[k]? with
    | some h => if h.reported then s else s.receive k h (h.assignment.completion numParts host port)
    | none => s

/-- A poll hands out a task, or changes the JobTracker only. -/
theorem poll_cases (s : Session) :
    (∃ t a, s.jobTracker.pollForTask = (t, some a) ∧ s.step .poll = s.handOut t a) ∨
      ∃ t, s.jobTracker.pollForTask = (t, none) ∧ s.step .poll = { s with jobTracker := t } := by
  unfold step
  rcases s.jobTracker.pollForTask with ⟨t, _ | a⟩
  · exact .inr ⟨t, rfl, rfl⟩
  · exact .inl ⟨t, a, rfl, rfl⟩

/-- A report changes nothing, or it is the first one of a task that was handed out. -/
theorem report_cases (s : Session) (k : Nat) (numParts : Int32) (host : Bytes) (port : Int32) :
    s.step (.report k numParts host port) = s ∨
      ∃ o, s.handedOut[k]? = some o ∧ o.reported = false ∧
        s.step (.report k numParts host port) = s.receive k o (o.assignment.completion numParts host port) := by
  cases hk : s.handedOut[k]? with
  | none => exact .inl (by rw [step, hk])
  | some o =>
    cases hnew : o.reported with
    | true => exact .inl (by rw [step, hk]; exact if_pos hnew)
    | false => exact .inr ⟨o, rfl, hnew, by rw [step, hk]; exact if_neg (by simp [hnew])⟩

/-! ## The tasks of the last job -/

/-- The task is of the job that was submitted last. -/
def current (s : Session) (h : HandedOut) : Bool := h.job = s.submissions

/-- The tasks of that job that were handed out, in this order. -/
def assignments (s : Session) : List Assignment := (s.handedOut.filter s.current).map (·.assignment)

/-- It is a task of that job and of the given type. -/
def currentOf (s : Session) (type : TaskType) (h : HandedOut) : Bool := s.current h && h.assignment.type = type

/-- How many of them have been reported. -/
def reportedCount (s : Session) (type : TaskType) : Nat := s.handedOut.countP fun h => s.currentOf type h && h.reported

end Session

/-- The id of the `r`-th reduce task of a job. -/
def reduceTaskId (r : Nat) : Bytes := bytes "job_001" ++ bytes "_r_" ++ decimal r

theorem decimal_injective : Function.Injective decimal := by
  intro m n h
  rw [← digitsValue_decimal m, h, digitsValue_decimal]

theorem mapTaskId_injective : Function.Injective mapTaskId := fun _ _ h => decimal_injective (List.append_cancel_left h)

theorem reduceTaskId_injective : Function.Injective reduceTaskId :=
  fun _ _ h => decimal_injective (List.append_cancel_left h)

theorem mapTaskId_ne_reduceTaskId (i r : Nat) : mapTaskId i ≠ reduceTaskId r := by
  intro h
  have hlen : (bytes "job_001" ++ bytes "_m_").length = (bytes "job_001" ++ bytes "_r_").length := by
    simp [bytes]
  exact absurd (List.append_inj h hlen).1 (by decide)

end MiniHadoop.Mapred

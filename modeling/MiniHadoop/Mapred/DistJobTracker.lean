/-
The JobTracker of a distributed job (`mapred/dist_job_tracker.h`): its state and the three handlers of its
server, each one function from state to state. `SubmitJob` resets the counters and appends the new map tasks;
the other lists stay as the last job left them. `Start` runs a loop for speculative tasks that the class
does not declare; it is left out.
-/
import MiniHadoop.Base.Decimal

namespace MiniHadoop.Mapred

open Text

/-! ## Data -/

inductive TaskType where
  | kMap
  | kReduce
  deriving DecidableEq, Repr

/-- `struct MapOutputLocation`. -/
structure MapOutputLocation where
  taskId : Bytes
  host : Bytes
  port : Int32
  partition : Int32
  deriving DecidableEq, Repr

/-- `struct Task`. No code reads `is_speculative`, which is left out. -/
structure Task where
  taskId : Bytes
  jobId : Bytes := []
  type : TaskType
  partition : Int32
  inputPath : Bytes := []
  outputPath : Bytes := []
  mapOutputs : List MapOutputLocation := []
  deriving DecidableEq, Repr

inductive JobState where
  | kPending
  | kRunning
  | kSucceeded
  | kFailed
  deriving DecidableEq, Repr

/-- `class DistJobTracker`. The counters count messages and polls, and do not wrap. -/
structure DistJobTracker where
  jobId : Bytes := []
  inputPath : Bytes := []
  outputPath : Bytes := []
  numMaps : Int32 := 0
  numReduces : Int32 := 0
  mapsCompleted : Nat := 0
  reducesCompleted : Nat := 0
  pendingReducesCreated : Nat := 0
  pendingMaps : List Task := []
  pendingReduces : List Task := []
  mapOutputLocations : List MapOutputLocation := []
  jobState : JobState := .kPending
  jobDone : Bool := false
  deriving DecidableEq, Repr

/-- The response to a poll that has a task. -/
structure Assignment where
  taskId : Bytes
  type : TaskType
  partition : Int32
  inputPath : Bytes
  outputPath : Bytes
  mapOutputs : List MapOutputLocation
  deriving DecidableEq, Repr

/-- The request of `TaskCompleted`. -/
inductive Completion where
  | map (taskId : Bytes) (numParts : Int32) (host : Bytes) (port : Int32)
  | reduce (taskId : Bytes)
  deriving DecidableEq, Repr

/-! ## SubmitJob -/

/-- The `i`-th map task of a job. -/
def mapTask (jobId inputPath : Bytes) (i : Nat) : Task :=
  { taskId := jobId ++ bytes "_m_" ++ decimal i, jobId, type := .kMap, partition := Int32.ofNat i, inputPath }

namespace DistJobTracker

/-- `SubmitJob`. -/
def submitJob (s : DistJobTracker) (inputPath outputPath : Bytes) (numMaps numReduces : Int32) : DistJobTracker :=
  let jobId := bytes "job_001"
  { s with
    jobId, inputPath, outputPath, numMaps, numReduces
    mapsCompleted := 0
    reducesCompleted := 0
    jobState := .kRunning
    pendingMaps := s.pendingMaps ++ (List.range numMaps.toNatClampNeg).map (mapTask jobId inputPath) }

/-! ## PollForTask -/

/-- The `r`-th reduce task of the job, with the locations known now. -/
def reduceTask (s : DistJobTracker) (r : Nat) : Task :=
  { taskId := s.jobId ++ bytes "_r_" ++ decimal r, jobId := s.jobId, type := .kReduce, partition := Int32.ofNat r,
    outputPath := s.outputPath, mapOutputs := s.mapOutputLocations }

/-- All maps have been reported and a reduce task is still to be made: it is. -/
def createReduce (s : DistJobTracker) : DistJobTracker :=
  if s.numMaps.toInt ≤ s.mapsCompleted ∧ s.pendingReducesCreated < s.numReduces.toInt then
    { s with
      pendingReducesCreated := s.pendingReducesCreated + 1
      pendingReduces := s.pendingReduces ++ [s.reduceTask s.pendingReducesCreated] }
  else s

/-- What is written for a task from `pending_maps_`. -/
def assignMap (s : DistJobTracker) (t : Task) : Assignment :=
  match t.type with
  | .kMap => ⟨t.taskId, t.type, t.partition, t.inputPath, [], []⟩
  | .kReduce => ⟨t.taskId, t.type, t.partition, [], s.outputPath, []⟩

/-- What is written for a task from `pending_reduces_`. -/
def assignReduce (t : Task) : Assignment := ⟨t.taskId, t.type, t.partition, [], t.outputPath, t.mapOutputs⟩

/-- A poll that finds no task ends the job when all its tasks have been reported. -/
def finishJob (s : DistJobTracker) : DistJobTracker :=
  if s.numMaps.toInt ≤ s.mapsCompleted ∧ s.numReduces.toInt ≤ s.reducesCompleted then
    { s with jobState := .kSucceeded, jobDone := true }
  else s

/-- `PollForTask`: the youngest pending map task, else a reduce task. -/
def pollForTask (s : DistJobTracker) : DistJobTracker × Option Assignment :=
  match s.pendingMaps.getLast? with
  | some t => ({ s with pendingMaps := s.pendingMaps.dropLast }, some (s.assignMap t))
  | none =>
    -- a reduce task is made for the poll that takes it
    let s := s.createReduce
    match s.pendingReduces.getLast? with
    | some t => ({ s with pendingReduces := s.pendingReduces.dropLast }, some (assignReduce t))
    | none => (s.finishJob, none)

/-! ## TaskCompleted -/

/-- `TaskCompleted`: a map task is entered as the place of `num_parts` partitions. -/
def taskCompleted (s : DistJobTracker) : Completion → DistJobTracker
  | .map taskId numParts host port =>
    { s with
      mapOutputLocations := s.mapOutputLocations ++
        (List.range numParts.toNatClampNeg).map fun i => ⟨taskId, host, port, Int32.ofNat i⟩
      mapsCompleted := s.mapsCompleted + 1 }
  | .reduce _ => { s with reducesCompleted := s.reducesCompleted + 1 }

/-- `IsJobDone()`. -/
def isJobDone (s : DistJobTracker) : Bool := s.jobDone

end DistJobTracker

end MiniHadoop.Mapred

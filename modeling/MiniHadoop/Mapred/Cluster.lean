/-
A JobTracker with any number of TaskTrackers, step by step. A TaskTracker that polls starts a thread for the
task it gets; the thread executes the task, takes stock of its tracker's outputs for its report, and the
report reaches the JobTracker, each at any time. The trackers read and write one file system. The threads of
past tasks are kept, so that a state shows all that was handed out, and so are the calls of `Map`.

Every call to the JobTracker is answered here, and the calls of one tracker do not overlap; `SharedClient` has the
connection on which they may, and take each other's answers.
-/
import MiniHadoop.Base.Runs
import MiniHadoop.Mapred.TaskTracker

namespace MiniHadoop.Mapred

open Text Runs

variable {ι : Type}

/-! ## States -/

/-- How far a thread has come with its task. -/
inductive Phase where
  | assigned
  | executed
  | reporting (message : Completion)
  | reported
  deriving DecidableEq, Repr

/-- A thread of the TaskTracker `tracker`. -/
structure Thread (ι : Type) where
  tracker : ι
  task : Task
  phase : Phase
  deriving DecidableEq, Repr

/-- A call of `Mapper::Map`: the task that makes it, and the record it passes. -/
structure MapCall where
  taskId : Bytes
  record : Int64 × Bytes
  deriving DecidableEq, Repr

/-- What the processes are started with: the addresses of the TaskTrackers, the program of the job, and the
hash of the library. -/
structure Setup (ι : Type) where
  host : ι → Bytes
  shufflePort : ι → Int32
  /-- The TaskTracker whose shuffle server listens at an address. -/
  listener : Bytes → Int32 → Option ι
  mapper : Mapper
  reducer : Reducer
  hash : Bytes → UInt64

/-- The state of all processes. -/
structure Cluster (ι : Type) where
  jobTracker : DistJobTracker := {}
  outputs : ι → MapOutputs := fun _ => ∅
  threads : List (Thread ι) := []
  files : HashMap Bytes Bytes := ∅
  calls : List MapCall := []

/-! ## Steps -/

inductive Event (ι : Type) where
  | submit (inputPath outputPath : Bytes) (numMaps numReduces : Int32)
  | poll (tracker : ι)
  | execute (thread : Nat)
  | prepare (thread : Nat)
  | deliver (thread : Nat)
  deriving DecidableEq, Repr

namespace Cluster

/-- The response of the shuffle server at a location. -/
def fetch (env : Setup ι) (s : Cluster ι) (loc : MapOutputLocation) : Fetch :=
  match env.listener loc.host loc.port with
  | none => .noConnection
  | some tracker => serveShuffle (s.outputs tracker) loc.taskId loc.partition

/-- The thread `j` is in another phase. -/
def setPhase (s : Cluster ι) (j : Nat) (th : Thread ι) (phase : Phase) : Cluster ι :=
  { s with threads := s.threads.set j { th with phase } }

variable [DecidableEq ι]

/-- The thread `j` executes its task. A reduce task writes its output in one step here; `StreamCluster.step` has the steps
of its stream. -/
def execute (env : Setup ι) (s : Cluster ι) (j : Nat) (th : Thread ι) : Cluster ι :=
  let s := s.setPhase j th .executed
  match th.task.type with
  | .kMap =>
    -- the reader opens the whole file, whichever partition the task has
    let content := s.files.lookup th.task.inputPath
    { s with
      outputs := Function.update s.outputs th.tracker
        (executeMapTask env.hash env.mapper content th.task (s.outputs th.tracker))
      calls := s.calls ++ (textRecords content).map (⟨th.task.taskId, ·⟩) }
  | .kReduce =>
    { s with files := s.files.insert th.task.outputPath (executeReduceTask env.reducer (s.fetch env) th.task) }

/-- A step; one that is not possible changes nothing. -/
def step (env : Setup ι) (s : Cluster ι) : Event ι → Cluster ι
  | .submit inputPath outputPath numMaps numReduces =>
    { s with jobTracker := s.jobTracker.submitJob inputPath outputPath numMaps numReduces }
  | .poll tracker =>
    -- the handler and the start of the thread: the poll gets its own answer
    match s.jobTracker.pollForTask with
    | (jobTracker, some a) =>
      { s with jobTracker, threads := s.threads ++ [⟨tracker, a.task, .assigned⟩] }
    | (jobTracker, none) => { s with jobTracker }
  | .execute j =>
    match s.threads[j]? with
    | some th => if th.phase = .assigned then s.execute env j th else s
    | none => s
  | .prepare j =>
    -- under the lock of the outputs; the message is sent later
    match s.threads[j]? with
    | some th =>
      if th.phase = .executed then
        s.setPhase j th (.reporting (reportTaskComplete (env.host th.tracker) (env.shufflePort th.tracker)
          (s.outputs th.tracker) th.task))
      else s
    | none => s
  | .deliver j =>
    match s.threads[j]? with
    | some th =>
      match th.phase with
      | .reporting message =>
        { s.setPhase j th .reported with jobTracker := s.jobTracker.taskCompleted message }
      | _ => s
    | none => s

end Cluster

end MiniHadoop.Mapred

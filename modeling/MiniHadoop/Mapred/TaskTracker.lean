/-
A TaskTracker (`mapred/task_tracker.h`): the task it makes of the response to a poll, the outputs of the map
tasks it has run, which its shuffle server hands out, and what it reports. A map task reads the whole of its
input file; its `num_reduces` is the constant of the source.
-/
import MiniHadoop.Base.HashMap
import MiniHadoop.Mapred.Api
import MiniHadoop.Mapred.DistJobTracker

namespace MiniHadoop.Mapred

open Text

/-- `map_outputs_`: the records of a task for a partition. No code depends on the order of its keys. -/
abbrev MapOutputs := HashMap (Bytes × Int32) (List Record)

/-- The task `PollLoop` reads from a response. A map task keeps its input path, a reduce task its output path
and the locations; the job id is not sent. -/
def Assignment.task (a : Assignment) : Task :=
  match a.type with
  | .kMap => { taskId := a.taskId, type := a.type, partition := a.partition, inputPath := a.inputPath }
  | .kReduce => { taskId := a.taskId, type := a.type, partition := a.partition, outputPath := a.outputPath,
                  mapOutputs := a.mapOutputs }

/-! ## Map tasks -/

/-- `num_reduces` in `ExecuteMapTask`. -/
def kMapPartitions : Int32 := 1

/-- The partition of a key, for the `std::hash` of the library. -/
def hashPartition (hash : Bytes → UInt64) (numReduces : Int32) (key : Bytes) : Int32 :=
  if key = [] then 0 else (hash key &&& 0x7FFFFFFF).toUInt32.toInt32 % numReduces

/-- `map_outputs_[{task_id, p}].push_back({k, v})`. -/
def MapOutputs.push (outputs : MapOutputs) (taskId : Bytes) (p : Int32) (r : Record) : MapOutputs :=
  outputs.insert (taskId, p) (outputs.slot (taskId, p) [] ++ [r])

/-- `ExecuteMapTask` on the content of the input file. -/
def executeMapTask (hash : Bytes → UInt64) (mapper : Mapper) (content : Option Bytes) (task : Task)
    (outputs : MapOutputs) : MapOutputs :=
  (sortRecords (mapper.mapAll mapper.fresh (textRecords content))).foldl
    (fun outputs r => outputs.push task.taskId (hashPartition hash kMapPartitions r.1) r) outputs

/-! ## Reduce tasks -/

/-- What becomes of a request to a shuffle server. -/
inductive Fetch where
  | noConnection
  | callFailed
  | missing
  | found (records : List Record)
  deriving DecidableEq, Repr

/-- The handler of the shuffle server. -/
def serveShuffle (outputs : MapOutputs) (taskId : Bytes) (partition : Int32) : Fetch :=
  match outputs.lookup (taskId, partition) with
  | some records => .found records
  | none => .missing

/-- The loop of `ExecuteReduceTask` over the locations: those of other partitions, and those that do not
answer, are passed over. -/
def gather (fetch : MapOutputLocation → Fetch) (partition : Int32) : List MapOutputLocation → List Record
  | [] => []
  | loc :: rest =>
    if loc.partition ≠ partition then gather fetch partition rest
    else match fetch loc with
      | .noConnection => gather fetch partition rest
      | .callFailed => gather fetch partition rest
      | .missing => gather fetch partition rest
      | .found records => records ++ gather fetch partition rest

/-- The text `ExecuteReduceTask` writes to the output path. -/
def executeReduceTask (reducer : Reducer) (fetch : MapOutputLocation → Fetch) (task : Task) : Bytes :=
  outputText (reducer.reduceAll reducer.fresh
    (groupRuns (sortRecords (gather fetch task.partition task.mapOutputs))))

/-! ## Reports -/

/-- The message of `ReportTaskComplete`. A map task reports as many partitions as there are among all outputs
of its tracker. -/
def reportTaskComplete (host : Bytes) (shufflePort : Int32) (outputs : MapOutputs) (task : Task) : Completion :=
  match task.type with
  | .kMap => .map task.taskId (Int32.ofNat (outputs.keys.map (·.2)).dedup.length) host shufflePort
  | .kReduce => .reduce task.taskId

end MiniHadoop.Mapred

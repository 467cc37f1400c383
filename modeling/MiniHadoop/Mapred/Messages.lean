/-
The messages that reach a JobTracker, and the bytes of its responses (`mapred/dist_job_tracker.h`). An
acknowledgement is the number 1; a task assignment starts with the same number and goes on.
-/
import MiniHadoop.Io.Buffer
import MiniHadoop.Mapred.DistJobTracker

namespace MiniHadoop.Mapred

open Text OutputBuffer

/-- The arguments the three handlers decode. `PollForTask` reads the address of the tracker and does not use it. -/
inductive Message where
  | submitJob (inputPath outputPath : Bytes) (numMaps numReduces : Int32)
  | pollForTask (trackerHost : Bytes) (trackerPort : Int32)
  | taskCompleted (completion : Completion)
  deriving DecidableEq, Repr

def TaskType.code : TaskType → Int32
  | .kMap => 0
  | .kReduce => 1

def MapOutputLocation.write (loc : MapOutputLocation) : Bytes :=
  writeString loc.taskId ++ (writeString loc.host ++ (writeInt loc.port ++ writeInt loc.partition))

/-- The response to a poll that has a task. A map task ends with an empty string in the place of the number of
locations. -/
def Assignment.write (a : Assignment) : Bytes :=
  writeInt 1 ++ (writeString a.taskId ++ (writeInt a.type.code ++ (writeInt a.partition ++ (writeString a.inputPath ++
    (writeString a.outputPath ++ match a.type with
      | .kMap => writeString []
      | .kReduce => writeInt (Int32.ofNat a.mapOutputs.length) ++ a.mapOutputs.flatMap MapOutputLocation.write)))))

/-- The response to a poll. -/
def pollResponse : Option Assignment → Bytes
  | some a => a.write
  | none => writeInt 0

/-- The response to a submission and to a report. -/
def ack : Bytes := writeInt 1

/-- No response to a poll is an acknowledgement. -/
theorem pollResponse_ne_ack (a : Option Assignment) : pollResponse a ≠ ack := by
  cases a with
  | none => decide
  | some a =>
    intro h
    have hlen := congrArg List.length h
    simp only [pollResponse, Assignment.write, ack, writeString, List.length_append, length_writeInt] at hlen
    omega

namespace DistJobTracker

/-- A handler: the state after the message, and the response. -/
def handle (s : DistJobTracker) : Message → DistJobTracker × Bytes
  | .submitJob inputPath outputPath numMaps numReduces =>
    (s.submitJob inputPath outputPath numMaps numReduces, ack)
  | .pollForTask _ _ => (s.pollForTask.1, pollResponse s.pollForTask.2)
  | .taskCompleted completion => (s.taskCompleted completion, ack)

end DistJobTracker

end MiniHadoop.Mapred

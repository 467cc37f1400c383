/-
Tasks on the wire: what `PollForTask` writes for a task (`mapred/dist_job_tracker.h`) and what `PollLoop` makes of it
(`mapred/task_tracker.h`). The last field of a map task is an empty string on one side and a number on the other, which are
the same four bytes; the number of locations of a reduce task is narrowed to an `int32_t`.
-/
import MiniHadoop.Mapred.Messages
import MiniHadoop.Mapred.TaskTracker

namespace MiniHadoop.Mapred

open Text Wire Reading InputBuffer OutputBuffer

/-! ## PollLoop -/

/-- `static_cast<TaskType>(code)` of the codes that are sent; every other one goes the way of a reduce task. -/
def TaskType.ofCode (code : Int32) : TaskType := if code = 0 then .kMap else .kReduce

theorem TaskType.ofCode_code (type : TaskType) : TaskType.ofCode type.code = type := by
  cases type <;> rfl

/-- A location in the response. -/
def readLocation : Reader MapOutputLocation := do
  let taskId ← readString
  let host ← readString
  let port ← readInt
  let partition ← readInt
  return { taskId, host, port, partition }

/-- The rest of a map task: the input path; the output path and the number of outputs are skipped. -/
def readMapTask (taskId : Bytes) (partition : Int32) : Reader (Option Task) := do
  let inputPath ← readString
  let _ ← readString
  let _ ← readInt
  return some { taskId, type := .kMap, partition, inputPath }

/-- The rest of a reduce task: the input path is skipped. -/
def readReduceTask (taskId : Bytes) (partition : Int32) : Reader (Option Task) := do
  let _ ← readString
  let outputPath ← readString
  let numLocs ← readInt
  let mapOutputs ← times readLocation numLocs.toNatClampNeg
  return some { taskId, type := .kReduce, partition, outputPath, mapOutputs }

/-- What follows the partition. -/
def readFields (taskId : Bytes) (partition : Int32) : TaskType → Reader (Option Task)
  | .kMap => readMapTask taskId partition
  | .kReduce => readReduceTask taskId partition

/-- The task that `PollLoop` reads from the response to a poll, if there is one. -/
def readTask : Reader (Option Task) := do
  let hasTask ← readInt
  if hasTask = 0 then return none
  else do
    let taskId ← readString
    let code ← readInt
    let partition ← readInt
    readFields taskId partition (TaskType.ofCode code)

/-! ## Reading a response -/

/-- The strings of a location fit their length fields. -/
def MapOutputLocation.Sized (loc : MapOutputLocation) : Prop := loc.taskId.length < 2 ^ 31 ∧ loc.host.length < 2 ^ 31

/-- So do those of an assignment. -/
structure Assignment.Sized (a : Assignment) : Prop where
  taskId : a.taskId.length < 2 ^ 31
  inputPath : a.inputPath.length < 2 ^ 31
  outputPath : a.outputPath.length < 2 ^ 31
  mapOutputs : ∀ loc ∈ a.mapOutputs, loc.Sized

/-- How many locations `PollLoop` reads: the number that is sent, as an `int32_t`. -/
def Assignment.counted (a : Assignment) : Nat := (Int32.ofNat a.mapOutputs.length).toNatClampNeg

/-- What is left in the response after that. -/
def Assignment.unread (a : Assignment) : Bytes :=
  match a.type with
  | .kMap => []
  | .kReduce => (a.mapOutputs.drop a.counted).flatMap MapOutputLocation.write

theorem counted_lt (a : Assignment) : a.counted < 2 ^ 31 := by
  have hlt := Int32.toInt_lt (Int32.ofNat a.mapOutputs.length)
  unfold Assignment.counted Int32.toNatClampNeg
  omega

/-- They are all of them when the number fits. -/
theorem counted_eq_iff (a : Assignment) : a.counted = a.mapOutputs.length ↔ a.mapOutputs.length < 2 ^ 31 := by
  constructor
  · intro h
    rw [← h]
    exact counted_lt a
  · exact fun h => (int32_ofNat_size h).2

theorem counted_le (a : Assignment) : a.counted ≤ a.mapOutputs.length := by
  by_cases h : a.mapOutputs.length < 2 ^ 31
  · exact ((counted_eq_iff a).2 h).le
  · exact (counted_lt a).le.trans (Nat.not_lt.1 h)

theorem reads_location {loc : MapOutputLocation} (h : loc.Sized) : Reads rest readLocation loc.write loc :=
  (reads_string h.1).bind ((reads_string h.2).bind ((reads_int loc.port).bind
    ((reads_int loc.partition).last (MapOutputLocation.mk loc.taskId loc.host loc.port))))

/-- An empty string is the number zero. -/
theorem reads_emptyString : Reads rest readInt (writeString []) 0 := reads_int 0

theorem reads_mapTask {taskId inputPath outputPath : Bytes} {partition : Int32} (hin : inputPath.length < 2 ^ 31)
    (hout : outputPath.length < 2 ^ 31) :
    Reads rest (readMapTask taskId partition) (writeString inputPath ++ (writeString outputPath ++ writeString []))
      (some { taskId, type := .kMap, partition, inputPath }) :=
  (reads_string hin).bind ((reads_string hout).bind (reads_emptyString.last fun _ => some _))

/-- As many locations are read as the number says. -/
theorem reads_reduceTask {taskId inputPath outputPath : Bytes} {partition count : Int32} {locs : List MapOutputLocation}
    (hin : inputPath.length < 2 ^ 31) (hout : outputPath.length < 2 ^ 31) (hcount : locs.length = count.toNatClampNeg)
    (hlocs : ∀ loc ∈ locs, loc.Sized) :
    Reads rest (readReduceTask taskId partition)
      (writeString inputPath ++ (writeString outputPath ++ (writeInt count ++ locs.flatMap MapOutputLocation.write)))
      (some { taskId, type := .kReduce, partition, outputPath, mapOutputs := locs }) := by
  refine (reads_string hin).bind ((reads_string hout).bind ((reads_int count).bind ?_))
  rw [← hcount]
  exact (Reads.times fun loc hloc => reads_location (hlocs loc hloc)).last fun mapOutputs =>
    (some { taskId, type := .kReduce, partition, outputPath, mapOutputs } : Option Task)

/-- The fields that both kinds of tasks start with. -/
theorem reads_task {taskId fields : Bytes} (type : TaskType) (partition : Int32) {task : Option Task}
    (hid : taskId.length < 2 ^ 31) (h : Reads rest (readFields taskId partition type) fields task) :
    Reads rest readTask (writeInt 1 ++ (writeString taskId ++ (writeInt type.code ++ (writeInt partition ++ fields))))
      task := by
  refine (reads_int 1).bind ((reads_string hid).bind ((reads_int type.code).bind ((reads_int partition).bind ?_)))
  rw [TaskType.ofCode_code]
  exact h

/-- What `PollLoop` makes of a response: the task, with as many of its locations as were counted. -/
theorem readTask_write {a : Assignment} (h : a.Sized) {m : Buffer} (hm : m.1 = a.write) :
    ∃ b, readTask (reset m) = .ok (some { a.task with mapOutputs := a.task.mapOutputs.take a.counted }, b) ∧
      b.rest = a.unread := by
  have hcounted := counted_le a
  obtain ⟨hid, hin, hout, hlocs⟩ := h
  obtain ⟨taskId, type, partition, inputPath, outputPath, mapOutputs⟩ := a
  cases type with
  | kMap =>
    have hreads := reads_task .kMap partition hid (reads_mapTask hin hout)
    obtain ⟨b, hread, hrest⟩ := hreads (reset m) [] (by rw [rest_reset, hm, List.append_nil]; rfl)
    refine ⟨b, ?_, hrest⟩
    rw [hread, Assignment.task]
    dsimp only
    rw [List.take_nil]
  | kReduce =>
    have hcount : (mapOutputs.take (Int32.ofNat mapOutputs.length).toNatClampNeg).length =
        (Int32.ofNat mapOutputs.length).toNatClampNeg := List.length_take_of_le hcounted
    have hreads := reads_task .kReduce partition hid
      (reads_reduceTask hin hout hcount fun loc hloc => hlocs loc (List.mem_of_mem_take hloc))
    refine hreads (reset m) _ ?_
    have hsplit : mapOutputs.flatMap MapOutputLocation.write =
        (mapOutputs.take (Int32.ofNat mapOutputs.length).toNatClampNeg).flatMap MapOutputLocation.write ++
          (mapOutputs.drop (Int32.ofNat mapOutputs.length).toNatClampNeg).flatMap MapOutputLocation.write := by
      rw [← List.flatMap_append, List.take_append_drop]
    rw [rest_reset, hm, Assignment.write]
    dsimp only
    rw [hsplit]
    simp only [List.append_assoc]
    rfl

/-! ## Tasks that are handed out -/

/-- The strings of a task that are sent fit their length fields. -/
structure Task.Sized (t : Task) : Prop where
  taskId : t.taskId.length < 2 ^ 31
  inputPath : t.inputPath.length < 2 ^ 31
  outputPath : t.outputPath.length < 2 ^ 31
  mapOutputs : ∀ loc ∈ t.mapOutputs, loc.Sized

/-- Two tasks are the same to a tracker. -/
structure Task.Same (t t' : Task) : Prop where
  taskId : t'.taskId = t.taskId
  type : t'.type = t.type
  partition : t'.partition = t.partition
  inputPath : t.type = .kMap → t'.inputPath = t.inputPath
  outputPath : t.type = .kReduce → t'.outputPath = t.outputPath
  mapOutputs : t.type = .kReduce → t'.mapOutputs = t.mapOutputs

namespace DistJobTracker

/-- What a poll is told of a task: a pending map task or a reduce task that was created. -/
def assign (s : DistJobTracker) (t : Task) : Assignment :=
  match t.type with
  | .kMap => s.assignMap t
  | .kReduce => assignReduce t

/-- A poll is told of the last pending map task. -/
theorem pollForTask_pending {s : DistJobTracker} {t : Task} (h : s.pendingMaps.getLast? = some t) (htype : t.type = .kMap) :
    s.pollForTask.2 = some (s.assign t) := by
  rw [pollForTask, h, assign, htype]

/-- Without pending map tasks it is told of the last reduce task, which may have been created for it. -/
theorem pollForTask_created {s : DistJobTracker} {t : Task} (hmaps : s.pendingMaps = [])
    (h : s.createReduce.pendingReduces.getLast? = some t) (htype : t.type = .kReduce) :
    s.pollForTask.2 = some (s.assign t) := by
  rw [pollForTask, hmaps, assign, htype]
  simp only [List.getLast?_nil, h]

theorem assign_sized (s : DistJobTracker) {t : Task} (h : t.Sized) : (s.assign t).Sized := by
  have hempty : ([] : Bytes).length < 2 ^ 31 := by decide
  obtain ⟨hid, hin, hout, hlocs⟩ := h
  obtain ⟨taskId, jobId, type, partition, inputPath, outputPath, mapOutputs⟩ := t
  cases type with
  | kMap => exact ⟨hid, hin, hempty, nofun⟩
  | kReduce => exact ⟨hid, hempty, hout, hlocs⟩

/-- What `PollLoop` makes of the response for a task. -/
theorem readTask_assign (s : DistJobTracker) {t : Task} (h : t.Sized) {m : Buffer}
    (hm : m.1 = pollResponse (some (s.assign t))) : ∃ t' b, readTask (reset m) = .ok (some t', b) ∧
      (b.remaining = 0 ∧ Task.Same t t' ↔ (t.type = .kReduce → t.mapOutputs.length < 2 ^ 31)) := by
  obtain ⟨b, hread, hrest⟩ := readTask_write (s.assign_sized h) hm
  refine ⟨_, b, hread, ?_⟩
  rw [← length_rest, hrest]
  obtain ⟨taskId, jobId, type, partition, inputPath, outputPath, mapOutputs⟩ := t
  cases type with
  | kMap =>
    constructor
    · exact fun _ => nofun
    · exact fun _ => ⟨rfl, ⟨rfl, rfl, rfl, fun _ => rfl, nofun, nofun⟩⟩
  | kReduce =>
    have hiff := counted_eq_iff (s.assign ⟨taskId, jobId, .kReduce, partition, inputPath, outputPath, mapOutputs⟩)
    have hle := counted_le (s.assign ⟨taskId, jobId, .kReduce, partition, inputPath, outputPath, mapOutputs⟩)
    constructor
    · rintro ⟨-, hsame⟩ -
      have hlen := congrArg List.length (hsame.mapOutputs rfl)
      exact hiff.1 ((List.length_take_of_le hle).symm.trans hlen)
    · intro hlt
      have hall := hiff.2 (hlt rfl)
      constructor
      · unfold Assignment.unread
        rw [hall]
        show (List.flatMap MapOutputLocation.write (mapOutputs.drop mapOutputs.length)).length = 0
        rw [List.drop_length]
        rfl
      · refine ⟨rfl, rfl, rfl, nofun, fun _ => rfl, fun _ => ?_⟩
        rw [hall]
        exact List.take_length

/-- A task is decoded to itself, and the response to its end, exactly when it is a map task or the number of its locations
is below `2 ^ 31`. -/
theorem task_decoded_iff (s : DistJobTracker) {t : Task} (h : t.Sized) {m : Buffer}
    (hm : m.1 = pollResponse (some (s.assign t))) :
    (∃ t' b, readTask (reset m) = .ok (some t', b) ∧ b.remaining = 0 ∧ Task.Same t t') ↔
      (t.type = .kReduce → t.mapOutputs.length < 2 ^ 31) := by
  obtain ⟨t', b, hread, hiff⟩ := readTask_assign s h hm
  rw [← hiff, hread]
  constructor
  · rintro ⟨t'', b', heq, hsame⟩
    cases heq
    exact hsame
  · exact fun hsame => ⟨t', b, rfl, hsame⟩

/-- A reduce task with the given locations. -/
def firstReduce (mapOutputs : List MapOutputLocation) : Task where
  taskId := bytes "job_001_r_0"
  type := .kReduce
  partition := 0
  outputPath := bytes "/out"
  mapOutputs

theorem firstReduce_sized {locs : List MapOutputLocation} (h : ∀ loc ∈ locs, loc.Sized) : (firstReduce locs).Sized where
  taskId := show (bytes "job_001_r_0").length < 2 ^ 31 by decide
  inputPath := show ([] : Bytes).length < 2 ^ 31 by decide
  outputPath := show (bytes "/out").length < 2 ^ 31 by decide
  mapOutputs := h

/-- The response for it fits a buffer when its locations do. -/
theorem firstReduce_fits (locs : List MapOutputLocation)
    (h : (locs.flatMap MapOutputLocation.write).length ≤ 2 ^ 35) :
    (pollResponse (some (assign {} (firstReduce locs)))).length < maxSize := by
  have hid : (bytes "job_001_r_0").length = 11 := by decide
  have hout : (bytes "/out").length = 4 := by decide
  refine lt_maxSize ?_
  show (writeInt 1 ++ (writeString (bytes "job_001_r_0") ++ (writeInt 1 ++ (writeInt 0 ++ (writeString [] ++
    (writeString (bytes "/out") ++ (writeInt (Int32.ofNat locs.length) ++
      locs.flatMap MapOutputLocation.write))))))).length < 2 ^ 63
  simp only [List.length_append, length_writeInt, writeString, hid, hout, List.length_nil]
  omega

theorem task_decoded_firstReduce : ∃ t' b,
    readTask (reset ⟨_, firstReduce_fits [⟨bytes "job_001_m_0", bytes "h", 9001, 0⟩] (by decide)⟩) =
        .ok (some t', b) ∧
      b.remaining = 0 ∧ Task.Same (firstReduce [⟨bytes "job_001_m_0", bytes "h", 9001, 0⟩]) t' := by
  refine (task_decoded_iff {} (firstReduce_sized fun loc hloc => ?_) rfl).2 fun _ => by decide
  rw [List.mem_singleton.1 hloc]
  exact ⟨by decide, by decide⟩

/-- Of a reduce task with `2 ^ 31` locations the number is sent as a negative one, and no location is read. -/
theorem locations_not_decoded : ¬ ∀ (s : DistJobTracker) (t : Task) (m : Buffer), t.Sized →
    m.1 = pollResponse (some (s.assign t)) →
      ∃ t' b, readTask (reset m) = .ok (some t', b) ∧ b.remaining = 0 ∧ Task.Same t t' := by
  intro h
  obtain ⟨locs, hlen, hlocs, hwritten⟩ : ∃ locs : List MapOutputLocation, locs.length = 2 ^ 31 ∧
      (∀ loc ∈ locs, loc.Sized) ∧ (locs.flatMap MapOutputLocation.write).length ≤ 2 ^ 35 := by
    refine ⟨List.replicate (2 ^ 31) ⟨[], [], 0, 0⟩, List.length_replicate, fun loc hloc => ?_, ?_⟩
    · rw [List.eq_of_mem_replicate hloc]
      exact ⟨by decide, by decide⟩
    · rw [List.length_flatMap, List.map_replicate, List.sum_replicate_nat]
      decide
  have hsized := firstReduce_sized hlocs
  obtain ⟨t', b, hread, hsame⟩ := h {} (firstReduce locs) ⟨_, firstReduce_fits locs hwritten⟩ hsized rfl
  obtain ⟨t'', b', hread', hiff⟩ := readTask_assign {} hsized (m := ⟨_, firstReduce_fits locs hwritten⟩) rfl
  rw [hread] at hread'
  cases hread'
  have hlt : locs.length < 2 ^ 31 := hiff.1 hsame rfl
  rw [hlen] at hlt
  exact lt_irrefl _ hlt

end DistJobTracker

end MiniHadoop.Mapred

/-
A reduce task whose shuffle goes wrong (`mapred/task_tracker.h`). Every request for the output of a map task may fail in
its own way, and each time the loop goes on with the next location; afterwards the thread reports the task complete,
whatever it has gathered. Exactly when it has gathered everything.
-/
import MiniHadoop.Mapred.Shuffle

namespace MiniHadoop.Mapred

open Text Counting

/-! ## Requests that fail -/

/-- How the request for the output of a map task goes: no connection, a call that fails, a tracker that has the output no
longer, or an answer. -/
inductive ShuffleOutcome where
  | refused
  | broken
  | lost
  | served
  deriving DecidableEq, Repr

/-- What `ExecuteReduceTask` gets of the records that the map task has emitted for the partition. A tracker has no entry
for a task that has emitted none. -/
def ShuffleOutcome.fetch (records : List Record) : ShuffleOutcome → Fetch
  | .refused => .noConnection
  | .broken => .callFailed
  | .lost => .missing
  | .served => if records = [] then .missing else .found records

/-- The loop of `ExecuteReduceTask` over the locations, with what each request for itself gives. -/
def gatherFrom (fetch : Nat → MapOutputLocation → Fetch) (partition : Int32) :
    Nat → List MapOutputLocation → List Record
  | _, [] => []
  | i, loc :: rest =>
    if loc.partition ≠ partition then gatherFrom fetch partition (i + 1) rest
    else match fetch i loc with
      | .noConnection => gatherFrom fetch partition (i + 1) rest
      | .callFailed => gatherFrom fetch partition (i + 1) rest
      | .missing => gatherFrom fetch partition (i + 1) rest
      | .found records => records ++ gatherFrom fetch partition (i + 1) rest

/-- When equal locations give the same, it is the loop over the locations. -/
theorem gatherFrom_const (fetch : MapOutputLocation → Fetch) (partition : Int32) :
    ∀ (locs : List MapOutputLocation) (i : Nat), gatherFrom (fun _ => fetch) partition i locs = gather fetch partition locs
  | [], _ => rfl
  | loc :: rest, i => by
    have ih := gatherFrom_const fetch partition rest (i + 1)
    cases hf : fetch loc <;> simp only [gatherFrom, gather, hf, ih]

/-! ## The thread -/

/-- What the thread of a reduce task does: the records that it sorts, groups and reduces, what it writes to the output
path, and the report it sends. -/
structure ReduceRun where
  input : List Record
  output : Bytes
  report : Option Completion

/-- The thread of a reduce task: `ExecuteReduceTask`, then `ReportTaskComplete`. -/
def reduceThread (reducer : Reducer) (fetch : Nat → MapOutputLocation → Fetch) (host : Bytes) (shufflePort : Int32)
    (outputs : MapOutputs) (task : Task) : ReduceRun :=
  let input := gatherFrom fetch task.partition 0 task.mapOutputs
  { input
    output := outputText (reducer.reduceAll reducer.fresh (groupRuns (sortRecords input)))
    report := some (reportTaskComplete host shufflePort outputs task) }

theorem output_reduceThread (reducer : Reducer) (fetch : MapOutputLocation → Fetch) (host : Bytes) (shufflePort : Int32)
    (outputs : MapOutputs) (task : Task) :
    (reduceThread reducer (fun _ => fetch) host shufflePort outputs task).output = executeReduceTask reducer fetch task := by
  rw [reduceThread, executeReduceTask]
  dsimp only
  rw [gatherFrom_const]

/-- The records of all the locations of a partition. -/
def allRecords (records : MapOutputLocation → List Record) (partition : Int32) (locs : List MapOutputLocation) :
    List Record :=
  (locs.filter fun loc => loc.partition = partition).flatMap records

/-- A task that is reported complete was computed from the records of all the locations of its partition. -/
def ReduceRun.Whole (run : ReduceRun) (records : MapOutputLocation → List Record) (task : Task) : Prop :=
  run.report.isSome → run.input = allRecords records task.partition task.mapOutputs

/-! ## What is gathered -/

section Gather

variable {records : MapOutputLocation → List Record} {outcome : Nat → ShuffleOutcome} {partition : Int32}

/-- What the requests give under a pattern of outcomes. -/
def fetchOf (records : MapOutputLocation → List Record) (outcome : Nat → ShuffleOutcome) (i : Nat)
    (loc : MapOutputLocation) : Fetch :=
  (outcome i).fetch (records loc)

theorem records_fetch (o : ShuffleOutcome) (rs : List Record) :
    (o.fetch rs).records = if o = .served then rs else [] := by
  cases o with
  | refused | broken | lost => rfl
  | served =>
    rw [ShuffleOutcome.fetch, if_pos rfl]
    split
    · rename_i hnil
      rw [hnil]
      rfl
    · rfl

theorem gatherFrom_skip {loc : MapOutputLocation} (h : loc.partition ≠ partition)
    (fetch : Nat → MapOutputLocation → Fetch) (i : Nat) (rest : List MapOutputLocation) :
    gatherFrom fetch partition i (loc :: rest) = gatherFrom fetch partition (i + 1) rest := by
  rw [gatherFrom, if_pos h]

theorem gatherFrom_own {loc : MapOutputLocation} (h : loc.partition = partition)
    (fetch : Nat → MapOutputLocation → Fetch) (i : Nat) (rest : List MapOutputLocation) :
    gatherFrom fetch partition i (loc :: rest) = (fetch i loc).records ++ gatherFrom fetch partition (i + 1) rest := by
  rw [gatherFrom, if_neg (not_not.2 h)]
  cases fetch i loc <;> rfl

theorem allRecords_skip {loc : MapOutputLocation} (h : loc.partition ≠ partition) (rest : List MapOutputLocation) :
    allRecords records partition (loc :: rest) = allRecords records partition rest := by
  rw [allRecords, List.filter_cons_of_neg (by simpa using h)]
  rfl

theorem allRecords_own {loc : MapOutputLocation} (h : loc.partition = partition) (rest : List MapOutputLocation) :
    allRecords records partition (loc :: rest) = records loc ++ allRecords records partition rest := by
  rw [allRecords, List.filter_cons_of_pos (by simpa using h), List.flatMap_cons]
  rfl

/-- The loop gathers nothing that is not there. -/
theorem gatherFrom_sublist : ∀ (locs : List MapOutputLocation) (i : Nat),
    (gatherFrom (fetchOf records outcome) partition i locs).Sublist (allRecords records partition locs)
  | [], _ => List.Sublist.refl []
  | loc :: rest, i => by
    by_cases hp : loc.partition = partition
    · rw [gatherFrom_own hp, allRecords_own hp, fetchOf, records_fetch]
      refine List.Sublist.append ?_ (gatherFrom_sublist rest (i + 1))
      split
      · exact List.Sublist.refl _
      · exact List.nil_sublist _
    · rw [gatherFrom_skip hp, allRecords_skip hp]
      exact gatherFrom_sublist rest (i + 1)

/-- The loop gathers everything exactly when every location that has something for the partition answers. -/
theorem gatherFrom_eq_iff : ∀ (locs : List MapOutputLocation) (i : Nat),
    gatherFrom (fetchOf records outcome) partition i locs = allRecords records partition locs ↔
      ∀ k loc, locs[k]? = some loc → loc.partition = partition → records loc ≠ [] → outcome (i + k) = .served
  | [], _ => ⟨fun _ => nofun, fun _ => rfl⟩
  | loc :: rest, i => by
    rw [forall_places_cons (P := fun k loc => loc.partition = partition → records loc ≠ [] → outcome k = .served)]
    by_cases hp : loc.partition = partition
    · rw [gatherFrom_own hp, allRecords_own hp, fetchOf, records_fetch]
      by_cases hgot : outcome i = .served ∨ records loc = []
      · have hsame : (if outcome i = .served then records loc else []) = records loc := by
          rcases hgot with hserved | hnil
          · rw [if_pos hserved]
          · rw [hnil, ite_self]
        rw [hsame, List.append_cancel_left_eq, gatherFrom_eq_iff rest (i + 1), and_iff_right]
        exact fun _ hne => hgot.resolve_right hne
      · rw [not_or] at hgot
        rw [if_neg hgot.1, List.nil_append]
        constructor
        · -- what is missing cannot be made up for by the other locations
          intro heq
          have hle : (gatherFrom (fetchOf records outcome) partition (i + 1) rest).length ≤
              (allRecords records partition rest).length := (gatherFrom_sublist rest (i + 1)).length_le
          have hpos := List.length_pos_iff.2 hgot.2
          rw [heq, List.length_append] at hle
          omega
        · rintro ⟨hserved, -⟩
          exact absurd (hserved hp hgot.2) hgot.1
    · rw [gatherFrom_skip hp, allRecords_skip hp, gatherFrom_eq_iff rest (i + 1), and_iff_right]
      exact fun h => absurd h hp

/-- A reduce task that is reported complete was computed from all its records exactly when every location of its
partition that has records answers. -/
theorem whole_iff (records : MapOutputLocation → List Record) (outcome : Nat → ShuffleOutcome) (reducer : Reducer)
    (host : Bytes) (shufflePort : Int32) (outputs : MapOutputs) (task : Task) :
    (reduceThread reducer (fetchOf records outcome) host shufflePort outputs task).Whole records task ↔
      ∀ i loc, task.mapOutputs[i]? = some loc → loc.partition = task.partition → records loc ≠ [] →
        outcome i = .served := by
  have hiff := @gatherFrom_eq_iff records outcome task.partition task.mapOutputs 0
  simp only [Nat.zero_add] at hiff
  rw [← hiff]
  constructor
  · exact fun h => h rfl
  · exact fun h _ => h

end Gather

/-- The only map task has emitted a record, its tracker cannot be reached, and the reduce task is complete. -/
theorem complete_without_input : ¬ ∀ (records : MapOutputLocation → List Record) (outcome : Nat → ShuffleOutcome)
    (reducer : Reducer) (host : Bytes) (shufflePort : Int32) (outputs : MapOutputs) (task : Task),
    (reduceThread reducer (fetchOf records outcome) host shufflePort outputs task).Whole records task := by
  intro h
  have hwhole := h (fun _ => [(bytes "a", 1)]) (fun _ => .refused)
    { State := Unit, fresh := (), reduce := fun _ key values => ((), [(key, values.sum)]) } (bytes "h") 9001 ∅
    { taskId := bytes "job_001_r_0", type := .kReduce, partition := 0, outputPath := bytes "/out",
      mapOutputs := [⟨bytes "job_001_m_0", bytes "h", 9001, 0⟩] } rfl
  revert hwhole
  decide

end MiniHadoop.Mapred

/-
The JobTracker that runs a whole job in one process (`mapred/job_tracker.h`): the records of the mapper are
partitioned by the hash of their keys, each partition is sorted by key and grouped, one reducer takes all groups, and
what it has collected is sorted and written. The reducer is called once for every key with all its values, so the
output does not depend on the number of partitions, nor on the hash.
-/
import Mathlib.Data.List.Flatten
import MiniHadoop.Base.HashMap
import MiniHadoop.Mapred.Grouping

namespace MiniHadoop.Mapred

open Text

/-! ## The program -/

/-- `HashPartitioner::GetPartition`, for the `std::hash` of the library. -/
def getPartition (hash : Bytes → UInt64) (key : Bytes) (numPartitions : Nat) : Nat :=
  (hash key &&& 0x7FFFFFFF).toNat % numPartitions

/-- A `std::sort` that compares keys only: which of two records with one key comes first is its own affair. -/
structure KeySort where
  sort : List Record → List Record
  perm : ∀ rs, (sort rs).Perm rs
  sorted : ∀ rs, KeySorted (sort rs)

/-- `struct JobConfig`; the number of reduce tasks is positive. -/
structure JobConfig where
  inputPath : Bytes
  outputPath : Bytes
  numReduceTasks : Nat := 1

/-- `class JobTracker` with a submitted job. A combiner that was submitted is made and not called. -/
structure JobTracker where
  config : JobConfig
  mapper : Mapper
  reducer : Reducer
  combiner : Bool := false

namespace JobTracker

/-- `MapCollector::Collect`. -/
def collect (hash : Bytes → UInt64) (numReduces : Nat) (parts : List (List Record)) (r : Record) : List (List Record) :=
  parts.modify (getPartition hash r.1 numReduces) (· ++ [r])

/-- The block for a job with a combiner: the sum of each run of equal keys. -/
def combine (part : List Record) : List Record := (groupRuns part).map fun g => (g.1, g.2.sum)

/-- The map phase: the partitions, each sorted by key. -/
def mapPhase (jt : JobTracker) (hash : Bytes → UInt64) (sort : KeySort) (records : List (Int64 × Bytes)) :
    List (List Record) :=
  let partitioned := (jt.mapper.mapAll jt.mapper.fresh records).foldl (collect hash jt.config.numReduceTasks)
    (List.replicate jt.config.numReduceTasks [])
  let partitioned := partitioned.map sort.sort
  if jt.combiner then partitioned.map combine else partitioned

/-- The calls of the reducer for one partition, with what it has collected. -/
def reducePartition (r : Reducer) : r.State → List (Bytes × List Int64) → r.State × List Record
  | self, [] => (self, [])
  | self, (key, values) :: rest =>
    let called := r.reduce self key values
    let more := reducePartition r called.1 rest
    (more.1, called.2 ++ more.2)

/-- The loop over the partitions, with one reducer for all. -/
def reducePhase (r : Reducer) : r.State → List (List Record) → List Record
  | _, [] => []
  | self, part :: rest =>
    let called := reducePartition r self (groupRuns part)
    called.2 ++ reducePhase r called.1 rest

/-- `all_results`, sorted, for the records that the reader of the input returns. -/
def allResults (jt : JobTracker) (hash : Bytes → UInt64) (sort : KeySort) (records : List (Int64 × Bytes)) :
    List Record :=
  sortRecords (reducePhase jt.reducer jt.reducer.fresh (jt.mapPhase hash sort records))

/-- The text that is written to the output path. -/
def output (jt : JobTracker) (hash : Bytes → UInt64) (sort : KeySort) (records : List (Int64 × Bytes)) : Bytes :=
  outputText (jt.allResults hash sort records)

/-- `RunJob()`: what is in the files afterwards. -/
def runJob (jt : JobTracker) (hash : Bytes → UInt64) (sort : KeySort) (files : HashMap Bytes Bytes) :
    HashMap Bytes Bytes :=
  files.insert jt.config.outputPath (jt.output hash sort (textRecords (files.lookup jt.config.inputPath)))

/-! ## Partitions -/

theorem getPartition_lt (hash : Bytes → UInt64) (key : Bytes) {numPartitions : Nat} (h : 1 ≤ numPartitions) :
    getPartition hash key numPartitions < numPartitions := Nat.mod_lt _ h

/-- The records of a partition. -/
def partition (hash : Bytes → UInt64) (numReduces : Nat) (rs : List Record) (p : Nat) : List Record :=
  rs.filter fun r => getPartition hash r.1 numReduces = p

theorem collect_partition (hash : Bytes → UInt64) (numReduces : Nat) (rs : List Record) (r : Record) :
    collect hash numReduces ((List.range numReduces).map (partition hash numReduces rs)) r =
      (List.range numReduces).map (partition hash numReduces (rs ++ [r])) := by
  refine List.ext_getElem? fun p => ?_
  rw [collect, List.getElem?_modify, List.getElem?_map, List.getElem?_map]
  cases hp : (List.range numReduces)[p]? with
  | none => rfl
  | some q =>
    obtain ⟨hlt, rfl⟩ := List.getElem?_eq_some_iff.1 hp
    rw [List.getElem_range]
    simp only [Option.map_some, partition, List.filter_append, List.filter_singleton]
    by_cases hpart : getPartition hash r.1 numReduces = p <;> simp [hpart]

/-- Each partition has the records whose keys are hashed to it, in the order in which they were collected. -/
theorem foldl_collect (hash : Bytes → UInt64) (numReduces : Nat) : ∀ (rs seen : List Record),
    rs.foldl (collect hash numReduces) ((List.range numReduces).map (partition hash numReduces seen)) =
      (List.range numReduces).map (partition hash numReduces (seen ++ rs))
  | [], seen => by rw [List.append_nil, List.foldl_nil]
  | r :: rs, seen => by
    rw [List.foldl_cons, collect_partition, foldl_collect hash numReduces rs, List.append_assoc, List.singleton_append]

theorem mapPhase_eq {jt : JobTracker} (hcombiner : jt.combiner = false) (hash : Bytes → UInt64) (sort : KeySort)
    (records : List (Int64 × Bytes)) :
    jt.mapPhase hash sort records = (List.range jt.config.numReduceTasks).map fun p =>
      sort.sort (partition hash jt.config.numReduceTasks (jt.mapper.mapAll jt.mapper.fresh records) p) := by
  have hempty : List.replicate jt.config.numReduceTasks [] =
      (List.range jt.config.numReduceTasks).map (partition hash jt.config.numReduceTasks []) := by
    rw [show partition hash jt.config.numReduceTasks [] = fun _ => [] from rfl, List.map_const', List.length_range]
  rw [mapPhase, hempty, foldl_collect, hcombiner, if_neg Bool.false_ne_true, List.nil_append, List.map_map]
  rfl

/-! ## Calls of the reducer -/

theorem reduceAll_append (r : Reducer) : ∀ (groups more : List (Bytes × List Int64)) (self : r.State),
    r.reduceAll self (groups ++ more) =
      (reducePartition r self groups).2 ++ r.reduceAll (reducePartition r self groups).1 more
  | [], _, _ => rfl
  | (key, values) :: groups, more, self => by
    rw [List.cons_append, Reducer.reduceAll, reduceAll_append r groups more, reducePartition, List.append_assoc]

/-- The reducer is called for the groups of one partition after the other. -/
theorem reducePhase_eq (r : Reducer) : ∀ (parts : List (List Record)) (self : r.State),
    reducePhase r self parts = r.reduceAll self (parts.flatMap groupRuns)
  | [], _ => rfl
  | part :: parts, self => by
    rw [reducePhase, List.flatMap_cons, reduceAll_append, reducePhase_eq r parts]

/-- The groups of all partitions. -/
def calls (jt : JobTracker) (hash : Bytes → UInt64) (sort : KeySort) (records : List (Int64 × Bytes)) :
    List (Bytes × List Int64) := (jt.mapPhase hash sort records).flatMap groupRuns

theorem allResults_eq (jt : JobTracker) (hash : Bytes → UInt64) (sort : KeySort) (records : List (Int64 × Bytes)) :
    jt.allResults hash sort records =
      sortRecords (jt.reducer.reduceAll jt.reducer.fresh (jt.calls hash sort records)) := by
  rw [allResults, reducePhase_eq, calls]

/-- The values of a key are all in the partition of the key. -/
theorem valuesOf_partition {hash : Bytes → UInt64} {numReduces p : Nat} {key : Bytes}
    (hp : getPartition hash key numReduces = p) (rs : List Record) :
    valuesOf key (partition hash numReduces rs p) = valuesOf key rs := by
  rw [valuesOf, partition, List.filter_filter, valuesOf]
  congr 1
  refine List.filter_congr fun r _ => ?_
  by_cases hr : r.1 = key <;> simp [hr, hp]

theorem grouped_partition (sort : KeySort) (rs : List Record) : Grouped (sort.sort rs) (groupRuns (sort.sort rs)) :=
  grouped_groupRuns (sort.sorted rs)

/-- A group of a partition has a key that is hashed to the partition. -/
theorem partition_of_mem {hash : Bytes → UInt64} {numReduces p : Nat} {sort : KeySort} {rs : List Record} {key : Bytes}
    (h : key ∈ (groupRuns (sort.sort (partition hash numReduces rs p))).map (·.1)) :
    getPartition hash key numReduces = p ∧ key ∈ rs.map (·.1) := by
  obtain ⟨r, hr, rfl⟩ := List.mem_map.1 (((grouped_partition sort _).mem key).1 h)
  obtain ⟨hr, hpart⟩ := List.mem_filter.1 ((sort.perm _).mem_iff.1 hr)
  exact ⟨by simpa using hpart, List.mem_map_of_mem hr⟩

/-- The reducer is called exactly once for every key that the mapper has emitted, with all the values of the key. -/
theorem calls_exact {jt : JobTracker} (hcombiner : jt.combiner = false) (hreduces : 1 ≤ jt.config.numReduceTasks)
    (hash : Bytes → UInt64) (sort : KeySort) (records : List (Int64 × Bytes)) :
    ((jt.calls hash sort records).map (·.1)).Nodup ∧
      (∀ key, key ∈ (jt.calls hash sort records).map (·.1) ↔
        key ∈ (jt.mapper.mapAll jt.mapper.fresh records).map (·.1)) ∧
      ∀ call ∈ jt.calls hash sort records,
        call.2.Perm (valuesOf call.1 (jt.mapper.mapAll jt.mapper.fresh records)) := by
  have hcalls : jt.calls hash sort records = (List.range jt.config.numReduceTasks).flatMap fun p =>
      groupRuns (sort.sort (partition hash jt.config.numReduceTasks (jt.mapper.mapAll jt.mapper.fresh records) p)) := by
    rw [calls, mapPhase_eq hcombiner, List.flatMap_map]
  generalize jt.mapper.mapAll jt.mapper.fresh records = rs at hcalls ⊢
  rw [hcalls]
  refine ⟨?_, fun key => ⟨fun hkey => ?_, fun hkey => ?_⟩, fun call hcall => ?_⟩
  · rw [List.map_flatMap, List.nodup_flatMap]
    refine ⟨fun p _ => (grouped_partition sort _).nodup, List.nodup_range.imp fun hne => ?_⟩
    intro key hkey hkey'
    exact hne ((partition_of_mem hkey).1.symm.trans (partition_of_mem hkey').1)
  · rw [List.map_flatMap] at hkey
    obtain ⟨p, -, hkey⟩ := List.mem_flatMap.1 hkey
    exact (partition_of_mem hkey).2
  · rw [List.map_flatMap]
    refine List.mem_flatMap.2 ⟨_, List.mem_range.2 (getPartition_lt hash key hreduces), ?_⟩
    obtain ⟨r, hr, rfl⟩ := List.mem_map.1 hkey
    rw [(grouped_partition sort _).mem]
    exact List.mem_map_of_mem ((sort.perm _).mem_iff.2 (List.mem_filter.2 ⟨hr, by simp⟩))
  · obtain ⟨p, -, hcall⟩ := List.mem_flatMap.1 hcall
    have hpart := (partition_of_mem (List.mem_map_of_mem hcall)).1
    rw [(grouped_partition sort _).values call hcall, ← valuesOf_partition hpart rs]
    exact valuesOf_perm (sort.perm _)

theorem output_eq {jt : JobTracker} (hcombiner : jt.combiner = false) (hreduces : 1 ≤ jt.config.numReduceTasks)
    {f : Bytes → Multiset Int64 → List Record} (hf : jt.reducer.OfMultiset f) (hash : Bytes → UInt64) (sort : KeySort)
    (records : List (Int64 × Bytes)) :
    jt.output hash sort records =
      outputText (sortRecords (Reducer.results f (jt.mapper.mapAll jt.mapper.fresh records))) := by
  obtain ⟨hnodup, hmem, hvalues⟩ := calls_exact hcombiner hreduces hash sort records
  rw [output, allResults_eq, sortRecords_eq_of_perm (Reducer.reduceAll_perm hf hnodup hmem hvalues _)]

/-- The reducer is called exactly once for every key, with all its values in some order. So a reducer to which only the
key and the multiset of the values matter gives a file that depends neither on the number of reduce tasks nor on the
hash. -/
theorem runJob_groups {jt : JobTracker} (hcombiner : jt.combiner = false) (hreduces : 1 ≤ jt.config.numReduceTasks)
    (hash : Bytes → UInt64) (sort : KeySort) (records : List (Int64 × Bytes)) :
    (((jt.calls hash sort records).map (·.1)).Nodup ∧
      (∀ key, key ∈ (jt.calls hash sort records).map (·.1) ↔
        key ∈ (jt.mapper.mapAll jt.mapper.fresh records).map (·.1)) ∧
      (∀ call ∈ jt.calls hash sort records,
        call.2.Perm (valuesOf call.1 (jt.mapper.mapAll jt.mapper.fresh records)))) ∧
    jt.output hash sort records =
      outputText (sortRecords (jt.reducer.reduceAll jt.reducer.fresh (jt.calls hash sort records))) ∧
    ∀ f, jt.reducer.OfMultiset f → jt.output hash sort records =
      outputText (sortRecords (Reducer.results f (jt.mapper.mapAll jt.mapper.fresh records))) := by
  refine ⟨calls_exact hcombiner hreduces hash sort records, by rw [output, allResults_eq], fun f hf => ?_⟩
  exact output_eq hcombiner hreduces hf hash sort records

/-- A sort that also compares the values. -/
def recordSort : KeySort where
  sort := sortRecords
  perm := List.perm_insertionSort RecordLe
  sorted := keySorted_sortRecords

/-- Every line is counted under itself, in three partitions. -/
def countLines : JobTracker where
  config := { inputPath := bytes "in", outputPath := bytes "out", numReduceTasks := 3 }
  mapper := { State := Unit, fresh := (), map := fun _ _ line => ((), [(line, 1)]) }
  reducer := { State := Unit, fresh := (), reduce := fun _ key values => ((), [(key, Int64.ofNat values.length)]) }

/-- Three lines, two of them the same. -/
def threeLines : List (Int64 × Bytes) := [(0, bytes "b"), (2, bytes "a"), (4, bytes "b")]

theorem runJob_groups_threeLines :
    (((countLines.calls (fun _ => 4) recordSort threeLines).map (·.1)).Nodup ∧
      (∀ key, key ∈ (countLines.calls (fun _ => 4) recordSort threeLines).map (·.1) ↔
        key ∈ (countLines.mapper.mapAll countLines.mapper.fresh threeLines).map (·.1)) ∧
      (∀ call ∈ countLines.calls (fun _ => 4) recordSort threeLines,
        call.2.Perm (valuesOf call.1 (countLines.mapper.mapAll countLines.mapper.fresh threeLines)))) ∧
    countLines.output (fun _ => 4) recordSort threeLines = outputText [(bytes "a", 1), (bytes "b", 2)] := by
  obtain ⟨hexact, -, hfile⟩ := @runJob_groups countLines rfl (by decide) (fun _ => 4) recordSort threeLines
  have hresults : sortRecords (Reducer.results (fun key values => [(key, Int64.ofNat values.card)])
      (countLines.mapper.mapAll countLines.mapper.fresh threeLines)) = [(bytes "a", 1), (bytes "b", 2)] := by decide
  exact ⟨hexact, by rw [hfile (fun key values => [(key, Int64.ofNat values.card)]) fun _ _ _ => rfl, hresults]⟩

end JobTracker

end MiniHadoop.Mapred

/-
The two engines on one job: a distributed job with one map task and one reduce task, and the JobTracker that runs it
in one process. The first writes in the order of its reduce task, the second sorts what it has; they write the same
lines, and the same file when the reducer collects one record for each key, under that key.
-/
import MiniHadoop.Io.Buffer
import MiniHadoop.Mapred.JobTracker
import MiniHadoop.Mapred.ReduceOutput

namespace MiniHadoop.Mapred

open Text Runs Reading

/-! ## The shuffle on the wire -/

section Wire

open OutputBuffer InputBuffer

/-- What the handler of the shuffle server writes. -/
def shuffleResponse : Option (List Record) → Bytes
  | some records =>
    writeInt 1 ++ (writeInt (Int32.ofNat records.length) ++ records.flatMap fun r => writeString r.1 ++ writeLong r.2)
  | none => writeInt 0

/-- What `ExecuteReduceTask` reads of a response. -/
def readShuffle : Reader Fetch := do
  let found ← readInt
  if found = 0 then return .missing
  else do
    let count ← readInt
    let records ← times (do
      let k ← readString
      let v ← readLong
      return (k, v)) count.toNatClampNeg
    return .found records

/-- A reduce task reads the records that the shuffle server holds, when their number and the lengths of their keys can
be written. -/
theorem reads_shuffleResponse (outputs : MapOutputs) (taskId : Bytes) (partition : Int32)
    (hfits : ∀ records ∈ outputs.lookup (taskId, partition),
      records.length < 2 ^ 31 ∧ ∀ r ∈ records, r.1.length < 2 ^ 31) :
    Reads rest readShuffle (shuffleResponse (outputs.lookup (taskId, partition)))
      (serveShuffle outputs taskId partition) := by
  rw [serveShuffle]
  cases hrecords : outputs.lookup (taskId, partition) with
  | none =>
    rw [← List.append_nil (shuffleResponse none)]
    exact (reads_int 0).bind (Reads.pure Fetch.missing)
  | some records =>
    obtain ⟨hlen, hkeys⟩ := hfits records hrecords
    refine (reads_int 1).bind ((reads_int _).bind ?_)
    rw [(int32_ofNat_size hlen).2]
    refine (Reads.times fun r hr => ?_).last Fetch.found
    exact (reads_string (hkeys r hr)).bind ((reads_long r.2).last fun v => (r.1, v))

end Wire

variable {ι : Type} [DecidableEq ι] {env : Setup ι} {f : Bytes → Multiset Int64 → List Record}

/-! ## Lines -/

/-- The lines of an output file are those of its records, one after the other. -/
theorem getlines_outputText : ∀ rs : List Record,
    getlines lineEnd (outputText rs) = rs.flatMap fun r => getlines lineEnd (outputText [r])
  | [] => rfl
  | (key, value) :: rs => by
    have hline : ∀ rest : List Record, outputText ((key, value) :: rest) =
        (key ++ bytes "\t" ++ toStr value) ++ lineEnd :: outputText rest := by
      intro rest
      rw [outputText, show bytes "\n" = [lineEnd] from rfl, List.append_assoc _ [lineEnd], List.singleton_append]
    rw [List.flatMap_cons, ← getlines_outputText rs, hline, hline, getlines, getlinesFrom_split]
    rfl

theorem getlines_outputText_perm {rs rs' : List Record} (h : rs.Perm rs') :
    (getlines lineEnd (outputText rs)).Perm (getlines lineEnd (outputText rs')) := by
  rw [getlines_outputText rs, getlines_outputText rs']
  exact h.flatMap_right _

/-! ## The reduce task -/

theorem reduced_perm {r : Reducer} (hf : r.OfMultiset f) (rs : List Record) :
    (reduced r rs).Perm (Reducer.results f rs) := by
  have hperm : (sortRecords rs).Perm rs := List.perm_insertionSort RecordLe rs
  have hgroups := grouped_groupRuns (keySorted_sortRecords rs)
  refine Reducer.reduceAll_perm hf hgroups.nodup (fun key => ?_) (fun g hg => ?_) _
  · rw [hgroups.mem, (hperm.map _).mem_iff]
  · rw [hgroups.values g hg]
    exact valuesOf_perm hperm

/-- One record for each key, under that key, is in the order of the keys. -/
theorem reduced_sorted {r : Reducer} (hf : r.OfMultiset f)
    (hone : ∀ key values, ∃ value, f key values = [(key, value)]) (rs : List Record) :
    (reduced r rs).Pairwise RecordLe := by
  rw [reduced, Reducer.reduceAll_eq hf, List.pairwise_flatMap]
  refine ⟨fun g _ => ?_, (List.pairwise_map.1 (grouped_groupRuns (keySorted_sortRecords rs)).keys).imp ?_⟩
  · obtain ⟨value, hvalue⟩ := hone g.1 g.2
    rw [hvalue]
    exact List.pairwise_singleton _ _
  · intro g g' hlt a ha b hb
    obtain ⟨value, hvalue⟩ := hone g.1 g.2
    obtain ⟨value', hvalue'⟩ := hone g'.1 g'.2
    rw [hvalue, List.mem_singleton] at ha
    rw [hvalue', List.mem_singleton] at hb
    rw [ha, hb]
    exact .inl hlt

/-- The one reduce task of a job with one map task writes what its reducer makes of all that the mapper emits. -/
theorem Cluster.runJob_single {es : List (Event ι)} (hjob : SingleJob es)
    (hrpc : ∀ tracker, env.listener (env.host tracker) (env.shufflePort tracker) = some tracker)
    (files : HashMap Bytes Bytes) (inputPath outputPath : Bytes)
    (hdone : (runJob env files inputPath outputPath 1 1 es).ReducesExecuted 1) :
    (runJob env files inputPath outputPath 1 1 es).files.lookup outputPath =
      some (outputText (reduced env.reducer (mapped env.mapper (files.lookup inputPath)))) := by
  obtain ⟨hone, -, hc⟩ := runJob_collected hjob hrpc files inputPath outputPath 1 1
  obtain ⟨hemitted, hwritten⟩ := runJob_written hjob hrpc files inputPath outputPath 1 1
  obtain ⟨pre, g, post, hsplit, hid, hperm, -, -⟩ := hc.split hone (hc.mem_of_executed hdone Nat.zero_lt_one)
  -- a task after it would be the same task again
  have hpost : post = [] := by
    refine List.eq_nil_iff_forall_not_mem.2 fun g' hg' => ?_
    have hnodup := hc.nodup hone
    obtain ⟨r, hr, hid', -⟩ := hc.ids g' (by rw [hsplit]; simp [hg'])
    rw [show Int32.toNatClampNeg 1 = 1 from rfl, Nat.lt_one_iff] at hr
    rw [hsplit, List.map_append, List.map_cons, List.nodup_append, List.nodup_cons] at hnodup
    refine hnodup.2.1.1 (List.mem_map.2 ⟨g', hg', ?_⟩)
    rw [hid', hid, hr]
  have hbarrier := hc.barrier (by rw [hsplit]; simp)
  rw [hemitted.emittedAll hone hbarrier, show Int32.toNatClampNeg 1 = 1 from rfl, List.replicate_one, List.flatten_cons,
    List.flatten_nil, List.append_nil] at hperm
  rw [hwritten g (by rw [hsplit, hpost]; simp), reduced_eq_of_perm hperm]

/-! ## The same job -/

/-- The job of a cluster, for the engine of one process. -/
def Setup.local (env : Setup ι) (inputPath outputPath : Bytes) (numReduceTasks : Nat) : JobTracker where
  config := { inputPath, outputPath, numReduceTasks }
  mapper := env.mapper
  reducer := env.reducer

/-- When the reduce task of a distributed job with one map task and one reduce task has been executed, there are the
same lines in its output file as in that of the other engine; and the files are the same if the reducer collects exactly
one record for each key, under that key. -/
theorem engines_agree (hf : env.reducer.OfMultiset f) {es : List (Event ι)} (hjob : SingleJob es)
    (hrpc : ∀ tracker, env.listener (env.host tracker) (env.shufflePort tracker) = some tracker)
    (files : HashMap Bytes Bytes) (inputPath outputPath localPath : Bytes)
    (hdone : (Cluster.runJob env files inputPath outputPath 1 1 es).ReducesExecuted 1) {numReduceTasks : Nat}
    (hreduces : 1 ≤ numReduceTasks) (hash : Bytes → UInt64) (sort : KeySort) :
    ∃ distributed single, (Cluster.runJob env files inputPath outputPath 1 1 es).files.lookup outputPath = some distributed ∧
      ((env.local inputPath localPath numReduceTasks).runJob hash sort files).lookup localPath = some single ∧
      (getlines lineEnd distributed).Perm (getlines lineEnd single) ∧
      ((∀ key values, ∃ value, f key values = [(key, value)]) → distributed = single) := by
  have hsingle : ((env.local inputPath localPath numReduceTasks).runJob hash sort files).lookup localPath =
      some (outputText (sortRecords (Reducer.results f (mapped env.mapper (files.lookup inputPath))))) := by
    refine (AList.lookup_insert _).trans (congrArg some ?_)
    exact @JobTracker.output_eq (env.local inputPath localPath numReduceTasks) rfl hreduces f hf hash sort _
  have hperm := (reduced_perm hf (mapped env.mapper (files.lookup inputPath))).trans
    (List.perm_insertionSort RecordLe _).symm
  refine ⟨_, _, Cluster.runJob_single hjob hrpc files inputPath outputPath hdone, hsingle,
    getlines_outputText_perm hperm, fun hone => ?_⟩
  exact congrArg outputText (hperm.eq_of_pairwise' (reduced_sorted hf hone _) (List.pairwise_insertionSort _ _))

/-- A job that counts lines by the number of values. -/
def countValues : Setup Bool := { Cluster.countLines with
  reducer := { State := Unit, fresh := (), reduce := fun _ key values => ((), [(key, Int64.ofNat values.length)]) } }

/-- The map task is executed and reported, then the reduce task is executed. -/
def oneAfterOther : List (Event Bool) := [.poll true, .execute 0, .prepare 0, .deliver 0, .poll false, .execute 1]

theorem engines_agree_countValues :
    ∃ distributed single,
      (Cluster.runJob countValues Cluster.oneLine (bytes "in") (bytes "out") 1 1 oneAfterOther).files.lookup (bytes "out") =
        some distributed ∧
      ((countValues.local (bytes "in") (bytes "local") 2).runJob (fun _ => 3) JobTracker.recordSort
        Cluster.oneLine).lookup (bytes "local") = some single ∧
      (getlines lineEnd distributed).Perm (getlines lineEnd single) ∧ distributed = single := by
  obtain ⟨distributed, single, hd, hs, hperm, heq⟩ := @engines_agree _ _ countValues
    (fun key values => [(key, Int64.ofNat values.card)]) (fun _ _ _ => rfl) oneAfterOther (by decide) (by decide)
    Cluster.oneLine (bytes "in") (bytes "out") (bytes "local") (by decide +kernel) 2 (by decide) (fun _ => 3)
    JobTracker.recordSort
  exact ⟨distributed, single, hd, hs, hperm, heq fun key values => ⟨_, rfl⟩⟩

end MiniHadoop.Mapred

/-
The whole chain: a file that a history of clients has left in NDFS is read, copied to the local file system, counted by a
word count, and what the word count has written is put into NDFS and read back. NDFS and the distributed job are taken down
to the bytes of their messages.
-/
import MiniHadoop.Mapred.JobWire
import MiniHadoop.Mapred.WordCount
import MiniHadoop.Ndfs.ClientWire

namespace MiniHadoop.Mapred

open Text Words Wire Runs

/-! ## The counts of a text -/

/-- The text is the counts of the words of another one: a line for every word, in the ascending order of the words. -/
def CountsOf (text counts : Bytes) : Prop :=
  ∃ entries : List (Bytes × Nat), entries.Pairwise (fun a b => a.1 < b.1) ∧
    (∀ w n, (w, n) ∈ entries ↔ 0 < n ∧ n = occurrences isSpace text w) ∧
    counts = entries.flatMap JobTracker.countLine

/-- A text has one text of counts. -/
theorem CountsOf.unique {text counts counts' : Bytes} (h : CountsOf text counts) (h' : CountsOf text counts') :
    counts = counts' := by
  obtain ⟨entries, hascending, hentries, rfl⟩ := h
  obtain ⟨entries', hascending', hentries', rfl⟩ := h'
  have hnodup : ∀ {l : List (Bytes × Nat)}, l.Pairwise (fun a b => a.1 < b.1) → l.Nodup := fun hl =>
    hl.imp fun hlt heq => by
      rw [heq] at hlt
      exact List.lt_irrefl _ hlt
  have hperm : entries.Perm entries' := (List.perm_ext_iff_of_nodup (hnodup hascending) (hnodup hascending')).2
    fun e => (hentries e.1 e.2).trans (hentries' e.1 e.2).symm
  rw [hperm.eq_of_pairwise (fun a b _ _ hab hba => absurd (List.lt_trans hab hba) (List.lt_irrefl _)) hascending
    hascending']

/-- What the reduce task of a word count makes of all words of a text. -/
theorem countsOf_reduced {text : Bytes} (hcounts : ∀ w, occurrences isSpace text w < 2 ^ 63) :
    CountsOf text (outputText (reduced wordCountReducer (mapped wordCountMapper (some text)))) := by
  have hmapped : mapped wordCountMapper (some text) = (words isSpace text).map fun w => (w, 1) := mapAll_text text
  have hpure : wordCountReducer.Pure fun key values => [(key, values.sum)] := by
    intro _ key values
    exact congrArg (fun sum => [(key, sum)]) (sumOf_eq values)
  have hsort : (sortRecords (mapped wordCountMapper (some text))).Perm (mapped wordCountMapper (some text)) :=
    List.perm_insertionSort RecordLe _
  have hgroups := grouped_groupRuns (keySorted_sortRecords (mapped wordCountMapper (some text)))
  have hreduced : reduced wordCountReducer (mapped wordCountMapper (some text)) =
      (groupRuns (sortRecords (mapped wordCountMapper (some text)))).map fun g => (g.1, g.2.sum) := by
    rw [reduced, Reducer.reduceAll_pure hpure, ← List.map_eq_flatMap]
  -- one record for each key, in the order of the keys
  have hkeys : (reduced wordCountReducer (mapped wordCountMapper (some text))).map (·.1) =
      (groupRuns (sortRecords (mapped wordCountMapper (some text)))).map (·.1) := by
    rw [hreduced, List.map_map]
    rfl
  have hsorted : sortRecords (reduced wordCountReducer (mapped wordCountMapper (some text))) =
      reduced wordCountReducer (mapped wordCountMapper (some text)) := by
    refine (List.perm_insertionSort RecordLe _).eq_of_pairwise' (List.pairwise_insertionSort _ _) ?_
    have hascending := hgroups.keys
    rw [← hkeys, List.pairwise_map] at hascending
    exact hascending.imp fun hlt => .inl hlt
  rw [← hsorted]
  refine JobTracker.outputText_counts (by rw [hkeys]; exact hgroups.nodup) (fun w => ?_) (fun r hr => ?_) hcounts
  · rw [hkeys, hgroups.mem, (hsort.map _).mem_iff, hmapped, List.map_map, ← count_words, List.count_pos_iff]
    simp
  · rw [hreduced] at hr
    obtain ⟨g, hg, rfl⟩ := List.mem_map.1 hr
    have hvalues := @valuesOf_perm g.1 _ _ hsort
    rw [← hgroups.values g hg, hmapped, valuesOf_ones, List.perm_replicate, count_words] at hvalues
    show g.2.sum = _
    rw [hvalues, sum_ones]

/-- The file of the word count that runs in one process. -/
theorem countsOf_outputFile {config : JobConfig} {hash : Bytes → UInt64} {sort : KeySort} {files : HashMap Bytes Bytes}
    {text : Bytes} (hreduces : 1 ≤ config.numReduceTasks) (hfile : files.lookup config.inputPath = some text)
    (hcounts : ∀ w, occurrences isSpace text w < 2 ^ 63) :
    ∃ counts, CountsOf text counts ∧
      (JobTracker.submitJob config wordCountMapper wordCountReducer none).outputFile hash sort files = some counts := by
  obtain ⟨hmem, hsum⟩ := @JobTracker.groupsOf_wordCount config hash sort files text hreduces hfile
  have hkeys : ((JobTracker.groupsOf config wordCountMapper hash sort files).map fun g => (g.1, g.2.sum)).map (·.1) =
      (JobTracker.groupsOf config wordCountMapper hash sort files).map (·.1) := List.map_map
  refine ⟨_, JobTracker.outputText_counts (by rw [hkeys]; exact JobTracker.groupsOf_nodup hreduces)
    (fun w => by rw [hkeys, hmem, ← count_words, List.count_pos_iff])
    (fun r hr => by obtain ⟨g, hg, rfl⟩ := List.mem_map.1 hr; exact hsum g hg) hcounts,
    JobTracker.outputFile_wordCount none⟩

/-! ## The chain -/

section Chain

variable {now blockSize : Int64} {c₀ c : Ndfs.Cluster} {calls : List Ndfs.Call} {remote text : Bytes}

/-- What a history of healthy calls has left under a path is read, counted by the engine of one process, and the counts
are put under another path: they are read from there. -/
theorem full_chain (hb : 0 < blockSize) (h₀ : c₀.Empty) (hnames : Ndfs.NamesFit c₀.ns)
    (hcalls : Run (Ndfs.HealthyWireStep now blockSize) c₀ calls c)
    (htext : Ndfs.FileMap.after calls (Ndfs.splitPath remote) = some text) (hremote : Ndfs.PathFits remote)
    (hresponse : (Ndfs.NameNode.writeGetBlocks (c.ns.getBlocks remote)).length < 2 ^ 31)
    (hcounts : ∀ w, occurrences isSpace text w < 2 ^ 63) {config : JobConfig} (hreduces : 1 ≤ config.numReduceTasks)
    (hash : Bytes → UInt64) (sort : KeySort) (files : HashMap Bytes Bytes) :
    Ndfs.DfsClient.readFile c now .answered (fun _ _ => .complete) remote [] = .ok (.OK, text) ∧
      ∃ counts, CountsOf text counts ∧
        (JobTracker.submitJob config wordCountMapper wordCountReducer none).outputFile hash sort
          (files.insert config.inputPath text) = some counts ∧
        ∀ (output : Bytes) (data : Buffer) (env : Nat → Ndfs.ChunkEnv) (c' : Ndfs.Cluster), data.1 = counts →
          Ndfs.HealthyWireStep now blockSize c (.write output data env) c' → Ndfs.PathFits output →
            (Ndfs.NameNode.writeGetBlocks (c'.ns.getBlocks output)).length < 2 ^ 31 →
              Ndfs.DfsClient.readFile c' now .answered (fun _ _ => .complete) output [] = .ok (.OK, counts) := by
  obtain ⟨hholds, -⟩ := Ndfs.Holds.wire_run hb h₀ hnames hcalls
  have hread := hholds.readFile_wire now htext hremote hresponse
  obtain ⟨counts, hcountsOf, hfile⟩ := @countsOf_outputFile config hash sort (files.insert config.inputPath text) text
    hreduces (AList.lookup_insert _) hcounts
  refine ⟨hread, counts, hcountsOf, hfile, fun output data env c' hdata hput houtput hresponse' => ?_⟩
  obtain ⟨hholds', -⟩ := Ndfs.Holds.wire_run hb h₀ hnames (hcalls.snoc hput)
  refine hholds'.readFile_wire now ?_ houtput hresponse'
  rw [Ndfs.FileMap.after, List.foldl_append, ← hdata]
  exact Function.update_self ..

/-- Three bytes that are one word. -/
theorem full_chain_threeBytes :
    ∃ c calls, Run (Ndfs.HealthyWireStep 0 2) (Ndfs.freshCluster [Ndfs.localNode 9000]) calls c ∧
      Ndfs.DfsClient.readFile c 0 .answered (fun _ _ => .complete) (bytes "/d/f") [] = .ok (.OK, [1, 2, 3]) ∧
      ∃ counts, CountsOf [1, 2, 3] counts ∧
        (JobTracker.submitJob JobTracker.oneReduce wordCountMapper wordCountReducer none).outputFile (fun _ => 3)
          JobTracker.recordSort ((∅ : HashMap Bytes Bytes).insert JobTracker.oneReduce.inputPath [1, 2, 3]) =
            some counts := by
  obtain ⟨c, hrun, hresponse⟩ := Ndfs.put_threeBytes
  obtain ⟨hread, counts, hcounts, hfile, -⟩ := @full_chain 0 2 _ c _ (bytes "/d/f") [1, 2, 3] (by decide)
    (Ndfs.freshCluster_empty (Ndfs.localNode 9000)) Ndfs.namesFit_local hrun rfl Ndfs.pathFits_df hresponse
    (fun w => Nat.lt_of_le_of_lt (occurrences_le _ w) (by decide)) JobTracker.oneReduce (by decide) (fun _ => 3)
    JobTracker.recordSort ∅
  exact ⟨c, _, hrun, hread, counts, hcounts, hfile⟩

variable {ι : Type} [DecidableEq ι] {env : Setup ι}

/-- What a history of healthy calls has left under a path is read and counted by a distributed job with one map task and
one reduce task, whichever trackers run them and in whatever order the processes take their steps: when the reduce task has
been executed, its output file is the counts of the text. -/
theorem full_dist_chain (hb : 0 < blockSize) (h₀ : c₀.Empty) (hnames : Ndfs.NamesFit c₀.ns)
    (hcalls : Run (Ndfs.HealthyWireStep now blockSize) c₀ calls c)
    (htext : Ndfs.FileMap.after calls (Ndfs.splitPath remote) = some text) (hremote : Ndfs.PathFits remote)
    (hresponse : (Ndfs.NameNode.writeGetBlocks (c.ns.getBlocks remote)).length < 2 ^ 31)
    (hcounts : ∀ w, occurrences isSpace text w < 2 ^ 63) (hmapper : env.mapper = wordCountMapper)
    (hreducer : env.reducer = wordCountReducer)
    (hrpc : ∀ tracker, env.listener (env.host tracker) (env.shufflePort tracker) = some tracker)
    (files : HashMap Bytes Bytes) (localIn localOut : Bytes) {es : List (Event ι)} (hjob : SingleJob es)
    {job : Cluster ι}
    (hrun : Run (JobStep env) { files := files.insert localIn text } (.submit localIn localOut 1 1 :: es) job)
    (hdone : job.ReducesExecuted 1) :
    Ndfs.DfsClient.readFile c now .answered (fun _ _ => .complete) remote [] = .ok (.OK, text) ∧
      ∃ counts, CountsOf text counts ∧ job.files.lookup localOut = some counts := by
  obtain ⟨hholds, -⟩ := Ndfs.Holds.wire_run hb h₀ hnames hcalls
  have hjobs : job = Cluster.runJob env (files.insert localIn text) localIn localOut 1 1 es :=
    (eq_of_run hrun).trans rfl
  have hread := hholds.readFile_wire now htext hremote hresponse
  refine ⟨hread, _, countsOf_reduced hcounts, ?_⟩
  rw [hjobs] at hdone ⊢
  rw [Cluster.runJob_single hjob hrpc _ localIn localOut hdone, hmapper, hreducer, AList.lookup_insert]

end Chain

/-- Two TaskTrackers with the word count. -/
def countWords : Setup Bool := { Cluster.countLines with mapper := wordCountMapper, reducer := wordCountReducer }

theorem full_dist_chain_threeBytes :
    ∃ c calls, Run (Ndfs.HealthyWireStep 0 2) (Ndfs.freshCluster [Ndfs.localNode 9000]) calls c ∧
      Ndfs.DfsClient.readFile c 0 .answered (fun _ _ => .complete) (bytes "/d/f") [] = .ok (.OK, [1, 2, 3]) ∧
      ∃ job counts, Run (JobStep countWords) { files := (∅ : HashMap Bytes Bytes).insert (bytes "in") [1, 2, 3] }
          (.submit (bytes "in") (bytes "out") 1 1 :: oneAfterOther) job ∧
        CountsOf [1, 2, 3] counts ∧ job.files.lookup (bytes "out") = some counts := by
  obtain ⟨c, hcalls, hresponse⟩ := Ndfs.put_threeBytes
  have hrun := @run_of_fits Bool _ countWords { files := (∅ : HashMap Bytes Bytes).insert (bytes "in") [1, 2, 3] } _ []
    (.submit (bytes "in") (bytes "out") 1 1 :: oneAfterOther) .nil (by decide +kernel)
  obtain ⟨hread, counts, hcounts, hfile⟩ := @full_dist_chain 0 2 _ c _ (bytes "/d/f") [1, 2, 3] Bool _ countWords
    (by decide) (Ndfs.freshCluster_empty (Ndfs.localNode 9000)) Ndfs.namesFit_local hcalls rfl Ndfs.pathFits_df hresponse
    (fun w => Nat.lt_of_le_of_lt (occurrences_le _ w) (by decide)) rfl rfl (by decide) ∅ (bytes "in") (bytes "out")
    oneAfterOther (by decide) _ hrun (by decide +kernel)
  exact ⟨c, _, hcalls, hread, _, counts, hrun, hcounts, hfile⟩

end MiniHadoop.Mapred

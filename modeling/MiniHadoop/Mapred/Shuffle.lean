/-
The shuffle of one job on fresh trackers. A map task sorts all it emits into partition 0, since it takes the number of
reduce tasks to be 1, and a tracker that holds anything reports one partition. So there is one location for each map task
that has records (and some for tasks without), always of partition 0, and the reduce task of that partition gathers
everything, once.
-/
import MiniHadoop.Mapred.JobThreads
import Mathlib.Data.List.Dedup
import Mathlib.Data.List.Perm.Basic

namespace MiniHadoop.Mapred

open Text Runs

/-! ## Outputs of map tasks -/

theorem hashPartition_kMapPartitions (hash : Bytes → UInt64) (key : Bytes) :
    hashPartition hash kMapPartitions key = 0 := by
  unfold hashPartition kMapPartitions
  split
  · rfl
  · exact Int32.mod_one

/-- The records that are stored under the id of a task, one after the other. -/
theorem lookup_foldl_push (hash : Bytes → UInt64) (taskId : Bytes) (key : Bytes × Int32) :
    ∀ (rs : List Record) (outputs : MapOutputs),
      (rs.foldl (fun outputs r => outputs.push taskId (hashPartition hash kMapPartitions r.1) r) outputs).lookup key =
        if key = (taskId, 0) ∧ rs ≠ [] then some (outputs.slot (taskId, 0) [] ++ rs) else outputs.lookup key
  | [], outputs => by simp
  | r :: rs, outputs => by
    rw [List.foldl_cons, lookup_foldl_push hash taskId key rs, hashPartition_kMapPartitions]
    unfold MapOutputs.push HashMap.slot
    rw [HashMap.lookup_insert_eq, HashMap.lookup_insert_eq, if_pos rfl]
    by_cases hkey : key = (taskId, 0)
    · by_cases hrs : rs = []
      · simp [hkey, hrs]
      · simp [hkey, hrs]
    · simp [hkey]

/-- What a map task emits on the content of its input file. -/
def mapped (mapper : Mapper) (content : Option Bytes) : List Record := mapper.mapAll mapper.fresh (textRecords content)

theorem lookup_executeMapTask (hash : Bytes → UInt64) (mapper : Mapper) (content : Option Bytes) (task : Task)
    (outputs : MapOutputs) (key : Bytes × Int32) :
    (executeMapTask hash mapper content task outputs).lookup key =
      if key = (task.taskId, 0) ∧ mapped mapper content ≠ [] then
        some (outputs.slot (task.taskId, 0) [] ++ sortRecords (mapped mapper content))
      else outputs.lookup key := by
  have hnil : sortRecords (mapped mapper content) ≠ [] ↔ mapped mapper content ≠ [] := by
    rw [← List.length_pos_iff_ne_nil, ← List.length_pos_iff_ne_nil, sortRecords, List.length_insertionSort]
  rw [executeMapTask, lookup_foldl_push, ← mapped]
  simp only [hnil]

theorem slot_executeMapTask (hash : Bytes → UInt64) (mapper : Mapper) (content : Option Bytes) (task : Task)
    (outputs : MapOutputs) (key : Bytes × Int32) :
    (executeMapTask hash mapper content task outputs).slot key [] =
      if key = (task.taskId, 0) then outputs.slot key [] ++ sortRecords (mapped mapper content)
      else outputs.slot key [] := by
  rw [HashMap.slot, lookup_executeMapTask]
  by_cases hkey : key = (task.taskId, 0)
  · by_cases hnil : mapped mapper content = []
    · simp [hkey, hnil, HashMap.slot, sortRecords]
    · rw [if_pos ⟨hkey, hnil⟩, if_pos hkey, hkey]
      rfl
  · simp [hkey, HashMap.slot]

theorem mem_executeMapTask {hash : Bytes → UInt64} {mapper : Mapper} {content : Option Bytes} {task : Task}
    {outputs : MapOutputs} {key : Bytes × Int32} (hkey : key ∈ executeMapTask hash mapper content task outputs) :
    key ∈ outputs ∨ key = (task.taskId, 0) := by
  rw [← AList.lookup_isSome, lookup_executeMapTask] at hkey
  split at hkey
  · rename_i h; exact .inr h.1
  · exact .inl (AList.lookup_isSome.1 hkey)

/-- A tracker that has outputs still has some when another task was executed. -/
theorem keys_executeMapTask_ne_nil {hash : Bytes → UInt64} {mapper : Mapper} {content : Option Bytes} {task : Task}
    {outputs : MapOutputs} (h : outputs.keys ≠ []) : (executeMapTask hash mapper content task outputs).keys ≠ [] := by
  obtain ⟨key, hkey⟩ := List.exists_mem_of_ne_nil _ h
  have hmem : key ∈ executeMapTask hash mapper content task outputs := by
    rw [← AList.lookup_isSome, lookup_executeMapTask]
    split
    · rfl
    · exact AList.lookup_isSome.2 (AList.mem_keys.2 hkey)
  exact List.ne_nil_of_mem (AList.mem_keys.1 hmem)

/-- With all outputs in partition 0 a tracker reports one partition, or none if it has nothing. -/
theorem length_partitions {outputs : MapOutputs} (hzero : ∀ key ∈ outputs, key.2 = 0) :
    (outputs.keys.map (·.2)).dedup.length = if outputs.keys = [] then 0 else 1 := by
  have hreplicate : outputs.keys.map (·.2) = List.replicate outputs.keys.length 0 := by
    rw [List.eq_replicate_iff]
    refine ⟨List.length_map _, fun x hx => ?_⟩
    obtain ⟨key, hkey, rfl⟩ := List.mem_map.1 hx
    exact hzero key (AList.mem_keys.2 hkey)
  split
  · rename_i hnone; rw [hnone]; rfl
  · rename_i hsome
    rw [hreplicate, List.replicate_dedup (by simpa using hsome)]
    rfl

theorem slot_of_keys_nil {outputs : MapOutputs} (hnone : outputs.keys = []) (key : Bytes × Int32) :
    outputs.slot key [] = [] := by
  have hkey : key ∉ outputs := by rw [AList.mem_keys, hnone]; exact List.not_mem_nil
  rw [HashMap.slot, AList.lookup_eq_none.2 hkey]
  rfl

/-! ## Gathering -/

/-- The records of a response. -/
def Fetch.records : Fetch → List Record
  | .found records => records
  | _ => []

theorem gather_eq (fetch : MapOutputLocation → Fetch) (partition : Int32) : ∀ locs : List MapOutputLocation,
    gather fetch partition locs =
      (locs.filter fun loc => loc.partition = partition).flatMap fun loc => (fetch loc).records
  | [] => rfl
  | loc :: locs => by
    rw [gather, gather_eq fetch partition locs]
    by_cases hp : loc.partition = partition
    · rw [if_neg (not_not.2 hp), List.filter_cons_of_pos (by simp [hp]), List.flatMap_cons]
      cases fetch loc <;> rfl
    · rw [if_pos hp, List.filter_cons_of_neg (by simp [hp])]

theorem gather_append (fetch : MapOutputLocation → Fetch) (partition : Int32) (locs locs' : List MapOutputLocation) :
    gather fetch partition (locs ++ locs') = gather fetch partition locs ++ gather fetch partition locs' := by
  rw [gather_eq, gather_eq, gather_eq, List.filter_append, List.flatMap_append]

theorem records_serveShuffle (outputs : MapOutputs) (taskId : Bytes) (partition : Int32) :
    (serveShuffle outputs taskId partition).records = outputs.slot (taskId, partition) [] := by
  unfold serveShuffle HashMap.slot
  cases outputs.lookup (taskId, partition) <;> rfl

/-! ## The invariant -/

variable {ι : Type} {env : Setup ι} {c : Cluster ι} {th : Thread ι}

/-- The thread has executed a map task. -/
def Thread.HasMapped (th : Thread ι) : Prop := th.task.type = .kMap ∧ th.phase ≠ .assigned

namespace Cluster

/-- What a map task has emitted: the result of the calls of `Map` it has made. -/
def emitted (env : Setup ι) (c : Cluster ι) (taskId : Bytes) : List Record :=
  env.mapper.mapAll env.mapper.fresh ((c.calls.filter fun call => call.taskId = taskId).map (·.record))

theorem emitted_of_ne {c' : Cluster ι} {taskId taskId' : Bytes} {lines : List (Int64 × Bytes)}
    (hcalls : c'.calls = c.calls ++ lines.map (⟨taskId, ·⟩)) (hne : taskId' ≠ taskId) :
    c'.emitted env taskId' = c.emitted env taskId' := by
  have hnone : (lines.map (⟨taskId, ·⟩ : _ → MapCall)).filter (fun call => call.taskId = taskId') = [] := by
    rw [List.filter_eq_nil_iff]
    intro call hcall
    obtain ⟨line, -, rfl⟩ := List.mem_map.1 hcall
    simp [hne.symm]
  rw [emitted, emitted, hcalls, List.filter_append, hnone, List.append_nil]

theorem emitted_self {c' : Cluster ι} {taskId : Bytes} {lines : List (Int64 × Bytes)}
    (hcalls : c'.calls = c.calls ++ lines.map (⟨taskId, ·⟩)) (hnew : ∀ call ∈ c.calls, call.taskId ≠ taskId) :
    c'.emitted env taskId = env.mapper.mapAll env.mapper.fresh lines := by
  have hnone : c.calls.filter (fun call => call.taskId = taskId) = [] := by
    rw [List.filter_eq_nil_iff]
    exact fun call hcall => by simp [hnew call hcall]
  have hall : (lines.map (⟨taskId, ·⟩ : _ → MapCall)).filter (fun call => call.taskId = taskId) =
      lines.map (⟨taskId, ·⟩) := by
    rw [List.filter_eq_self]
    intro call hcall
    obtain ⟨line, -, rfl⟩ := List.mem_map.1 hcall
    simp
  rw [emitted, hcalls, List.filter_append, hnone, List.nil_append, hall, List.map_map]
  congr 1
  exact List.map_id _

/-- What the tracker of a thread holds of its task. -/
def held (c : Cluster ι) (th : Thread ι) : List Record := (c.outputs th.tracker).slot (th.task.taskId, 0) []

/-- There is a thread that has executed the map task of this id. -/
def HasRun (c : Cluster ι) (taskId : Bytes) : Prop := ∃ th ∈ c.threads, th.task.taskId = taskId ∧ th.HasMapped

/-- It stays one when a thread goes on. -/
theorem HasRun.setPhase {taskId : Bytes} (h : c.HasRun taskId) {j : Nat} {phase : Phase} (hj : c.threads[j]? = some th)
    (hphase : phase ≠ .assigned) : (c.setPhase j th phase).HasRun taskId :=
  Counting.exists_mem_set hj (fun hth => ⟨hth.1, hth.2.1, hphase⟩) h

end Cluster

/-- Where the records of a job are: each executed map task has all its records on its own tracker, in partition 0; each
task that was reported is the place of that partition, unless it has no record. -/
structure Shuffled (env : Setup ι) (c : Cluster ι) : Prop where
  calls : ∀ call ∈ c.calls, c.HasRun call.taskId
  outputs : ∀ tracker, ∀ key ∈ c.outputs tracker, key.2 = 0 ∧ c.HasRun key.1
  held : ∀ th ∈ c.threads, th.HasMapped → c.held th = sortRecords (c.emitted env th.task.taskId)
  messages : ∀ th ∈ c.threads, ∀ message, th.phase = .reporting message → th.task.type = .kMap →
    ∃ numParts, message = .map th.task.taskId numParts (env.host th.tracker) (env.shufflePort th.tracker) ∧
      (numParts = 1 ∨ numParts = 0 ∧ c.held th = [])
  locations : ∀ loc ∈ c.jobTracker.mapOutputLocations, loc.partition = 0 ∧ c.HasRun loc.taskId
  gathered : (gather (c.fetch env) 0 c.jobTracker.mapOutputLocations).Perm
    ((c.threads.filter Thread.isReportedMap).flatMap c.held)

namespace Shuffled

/-- What a location gives depends on the outputs under its id only. -/
theorem gather_congr {c' : Cluster ι} {locs : List MapOutputLocation}
    (h : ∀ loc ∈ locs, ∀ tracker, (c'.outputs tracker).slot (loc.taskId, loc.partition) [] =
      (c.outputs tracker).slot (loc.taskId, loc.partition) []) (partition : Int32) :
    gather (c'.fetch env) partition locs = gather (c.fetch env) partition locs := by
  rw [gather_eq, gather_eq]
  refine List.flatMap_congr fun loc hloc => ?_
  unfold Cluster.fetch
  cases env.listener loc.host loc.port with
  | none => rfl
  | some tracker => rw [records_serveShuffle, records_serveShuffle, h loc (List.mem_of_mem_filter hloc)]

/-- A thread moves on, other than by executing a map task or by being counted as reported. -/
theorem setPhase (h : Shuffled env c) {j : Nat} {phase : Phase} (hj : c.threads[j]? = some th)
    (hran : th.task.type = .kMap → th.phase ≠ .assigned) (hphase : phase ≠ .assigned)
    (hold : th.phase ≠ .reported) (hnew : phase ≠ .reported)
    (hmessage : ∀ message, phase = .reporting message → th.task.type = .kMap →
      ∃ numParts, message = .map th.task.taskId numParts (env.host th.tracker) (env.shufflePort th.tracker) ∧
        (numParts = 1 ∨ numParts = 0 ∧ c.held th = [])) :
    Shuffled env (c.setPhase j th phase) := by
  have hrun : ∀ taskId, c.HasRun taskId → (c.setPhase j th phase).HasRun taskId := fun _ h => h.setPhase hj hphase
  have hmem : ∀ th' ∈ (c.setPhase j th phase).threads, th' ∈ c.threads ∨ th' = { th with phase } :=
    fun th' hth' => List.mem_or_eq_of_mem_set hth'
  constructor
  · exact fun call hcall => hrun _ (h.calls call hcall)
  · exact fun tracker key hkey => ⟨(h.outputs tracker key hkey).1, hrun _ (h.outputs tracker key hkey).2⟩
  · intro th' hth' hmapped
    rcases hmem th' hth' with hth' | rfl
    · exact h.held th' hth' hmapped
    · exact h.held th (List.mem_of_getElem? hj) ⟨hmapped.1, hran hmapped.1⟩
  · intro th' hth'
    rcases hmem th' hth' with hth' | rfl
    · exact h.messages th' hth'
    · exact hmessage
  · exact fun loc hloc => ⟨(h.locations loc hloc).1, hrun _ (h.locations loc hloc).2⟩
  · have hfilter : (c.setPhase j th phase).threads.filter Thread.isReportedMap =
        c.threads.filter Thread.isReportedMap :=
      Counting.filter_set_of_neg hj (by simp [Thread.isReportedMap, hold]) (by simp [Thread.isReportedMap, hnew])
    rw [hfilter]
    exact h.gathered

/-- The locations in the report of a map task give its records. -/
theorem gather_locations (hrpc : ∀ tracker, env.listener (env.host tracker) (env.shufflePort tracker) = some tracker)
    {numParts : Int32} (hparts : numParts = 1 ∨ numParts = 0 ∧ c.held th = []) :
    let message := Completion.map th.task.taskId numParts (env.host th.tracker) (env.shufflePort th.tracker)
    (∀ loc ∈ message.locations, loc.partition = 0 ∧ loc.taskId = th.task.taskId) ∧
      gather (c.fetch env) 0 message.locations = c.held th := by
  rcases hparts with rfl | ⟨rfl, hnone⟩
  · have hone : (Completion.map th.task.taskId 1 (env.host th.tracker) (env.shufflePort th.tracker)).locations =
        [⟨th.task.taskId, env.host th.tracker, env.shufflePort th.tracker, 0⟩] := rfl
    refine ⟨fun loc hloc => ?_, ?_⟩
    · rw [hone, List.mem_singleton] at hloc
      rw [hloc]
      exact ⟨rfl, rfl⟩
    · have hfetch : c.fetch env ⟨th.task.taskId, env.host th.tracker, env.shufflePort th.tracker, 0⟩ =
          serveShuffle (c.outputs th.tracker) th.task.taskId 0 := by
        unfold Cluster.fetch
        rw [hrpc]
      rw [hone, gather_eq]
      simp only [decide_true, List.filter_cons_of_pos, List.filter_nil, List.flatMap_cons, List.flatMap_nil, List.append_nil]
      rw [hfetch, records_serveShuffle]
      rfl
  · refine ⟨fun loc hloc => absurd hloc List.not_mem_nil, ?_⟩
    rw [hnone]
    rfl

/-- A report arrives: it adds the location of the records of its task. -/
theorem deliver (h : Shuffled env c)
    (hrpc : ∀ tracker, env.listener (env.host tracker) (env.shufflePort tracker) = some tracker) {j : Nat}
    {message : Completion} (hj : c.threads[j]? = some th) (hp : th.phase = .reporting message)
    (htype : message.type = th.task.type) :
    Shuffled env { c.setPhase j th .reported with jobTracker := c.jobTracker.taskCompleted message } := by
  have hth := List.mem_of_getElem? hj
  have hrun : ∀ taskId, c.HasRun taskId → (c.setPhase j th .reported).HasRun taskId :=
    fun _ h => h.setPhase hj (by simp)
  have hmem : ∀ th' ∈ (c.setPhase j th .reported).threads, th' ∈ c.threads ∨ th' = { th with phase := .reported } :=
    fun th' hth' => List.mem_or_eq_of_mem_set hth'
  constructor
  · exact fun call hcall => hrun _ (h.calls call hcall)
  · exact fun tracker key hkey => ⟨(h.outputs tracker key hkey).1, hrun _ (h.outputs tracker key hkey).2⟩
  · intro th' hth' hmapped
    rcases hmem th' hth' with hth' | rfl
    · exact h.held th' hth' hmapped
    · exact h.held th hth ⟨hmapped.1, by rw [hp]; simp⟩
  · intro th' hth'
    rcases hmem th' hth' with hth' | rfl
    · exact h.messages th' hth'
    · intro message hmessage
      cases hmessage
  · intro loc hloc
    rw [show ({ c.setPhase j th .reported with jobTracker := c.jobTracker.taskCompleted message } :
      Cluster ι).jobTracker = c.jobTracker.taskCompleted message from rfl, DistJobTracker.taskCompleted_locations] at hloc
    rcases List.mem_append.1 hloc with hloc | hloc
    · exact ⟨(h.locations loc hloc).1, hrun _ (h.locations loc hloc).2⟩
    · cases message with
      | map =>
        obtain ⟨numParts, hmessage, hparts⟩ := h.messages th hth _ hp htype.symm
        rw [hmessage] at hloc
        obtain ⟨hpart, hid⟩ := (gather_locations hrpc hparts).1 loc hloc
        exact ⟨hpart, hrun _ ⟨th, hth, hid.symm, htype.symm, by rw [hp]; simp⟩⟩
      | reduce => cases hloc
  · show (gather (c.fetch env) 0 (c.jobTracker.taskCompleted message).mapOutputLocations).Perm
      ((c.setPhase j th .reported).threads.filter Thread.isReportedMap |>.flatMap c.held)
    rw [DistJobTracker.taskCompleted_locations, gather_append]
    cases message with
    | map =>
      obtain ⟨numParts, hmessage, hparts⟩ := h.messages th hth _ hp htype.symm
      have hperm := (@Counting.filter_set_perm _ c.threads j th { th with phase := .reported } Thread.isReportedMap hj
        (by simp [Thread.isReportedMap, hp])
        (by simp [Thread.isReportedMap, show th.task.type = .kMap from htype.symm])).flatMap_right c.held
      rw [hmessage, (gather_locations hrpc hparts).2]
      refine (h.gathered.append_right _).trans (List.Perm.trans (List.Perm.of_eq ?_) hperm.symm)
      rw [List.flatMap_append, List.flatMap_singleton]
      rfl
    | reduce =>
      have hfilter : (c.setPhase j th .reported).threads.filter Thread.isReportedMap =
          c.threads.filter Thread.isReportedMap :=
        Counting.filter_set_of_neg hj (by simp [Thread.isReportedMap, hp])
          (by simp [Thread.isReportedMap, show th.task.type = .kReduce from htype.symm])
      rw [hfilter, Completion.locations, gather, List.append_nil]
      exact h.gathered

/-- A new thread has done nothing yet. -/
theorem handOut (h : Shuffled env c) {t : DistJobTracker} (ht : t.mapOutputLocations = c.jobTracker.mapOutputLocations)
    (tracker : ι) (task : Task) :
    Shuffled env { c with jobTracker := t, threads := c.threads ++ [⟨tracker, task, .assigned⟩] } := by
  have hrun : ∀ taskId, c.HasRun taskId → ∃ th ∈ c.threads ++ [⟨tracker, task, .assigned⟩],
      th.task.taskId = taskId ∧ th.HasMapped := by
    rintro taskId ⟨th, hth, hid, hmapped⟩
    exact ⟨th, List.mem_append_left _ hth, hid, hmapped⟩
  constructor
  · exact fun call hcall => hrun _ (h.calls call hcall)
  · exact fun tracker key hkey => ⟨(h.outputs tracker key hkey).1, hrun _ (h.outputs tracker key hkey).2⟩
  · intro th hth hmapped
    rcases List.mem_append.1 hth with hth | hth
    · exact h.held th hth hmapped
    · rw [List.mem_singleton.1 hth] at hmapped
      exact absurd rfl hmapped.2
  · intro th hth
    rcases List.mem_append.1 hth with hth | hth
    · exact h.messages th hth
    · intro message hmessage
      rw [List.mem_singleton.1 hth] at hmessage
      cases hmessage
  · intro loc hloc
    have hloc : loc ∈ c.jobTracker.mapOutputLocations := by rw [← ht]; exact hloc
    exact ⟨(h.locations loc hloc).1, hrun _ (h.locations loc hloc).2⟩
  · show (gather (c.fetch env) 0 t.mapOutputLocations).Perm _
    rw [ht, List.filter_append, List.filter_cons_of_neg (by simp [Thread.isReportedMap]), List.filter_nil, List.append_nil]
    exact h.gathered

/-- A map task that has not been executed has left no trace. -/
theorem not_hasRun {inputPath outputPath : Bytes} {numMaps numReduces : Int32}
    (hone : OneJob env inputPath outputPath numMaps numReduces c) (hth : th ∈ c.threads) (hp : th.phase = .assigned) :
    ¬ c.HasRun th.task.taskId := by
  rintro ⟨th', hth', hid, hmapped⟩
  rw [hone.thread_unique hth' hth hid] at hmapped
  exact hmapped.2 hp

variable [DecidableEq ι]

theorem poll (h : Shuffled env c) (tracker : ι) : Shuffled env (c.step env (.poll tracker)) := by
  have hlocations := c.jobTracker.pollForTask_frame.2.1
  rw [Cluster.step]
  split
  · rename_i hpoll
    rw [hpoll] at hlocations
    exact h.handOut hlocations tracker _
  · rename_i t hpoll
    rw [hpoll] at hlocations
    refine ⟨h.calls, h.outputs, h.held, h.messages, ?_, ?_⟩
    · exact fun loc hloc => h.locations loc (hlocations ▸ hloc)
    · show (gather (c.fetch env) 0 t.mapOutputLocations).Perm _
      rw [show t.mapOutputLocations = _ from hlocations]
      exact h.gathered

/-- What the execution of a map task makes of the outputs: all it emits is put under its id on its tracker. -/
structure MapEffect (env : Setup ι) (c : Cluster ι) (th : Thread ι) (outputs : ι → MapOutputs) : Prop where
  slot : ∀ tracker key, key ≠ (th.task.taskId, 0) → (outputs tracker).slot key [] = (c.outputs tracker).slot key []
  self : (outputs th.tracker).slot (th.task.taskId, 0) [] =
    c.held th ++ sortRecords (mapped env.mapper (c.files.lookup th.task.inputPath))
  mem : ∀ tracker key, key ∈ outputs tracker → key ∈ c.outputs tracker ∨ key = (th.task.taskId, 0)
  keys : ∀ tracker, (c.outputs tracker).keys ≠ [] → (outputs tracker).keys ≠ []
  other : ∀ tracker, tracker ≠ th.tracker → outputs tracker = c.outputs tracker

theorem execute_kMap (env : Setup ι) (c : Cluster ι) (j : Nat) (htype : th.task.type = .kMap) :
    ∃ outputs, c.execute env j th = { c.setPhase j th .executed with
        outputs
        calls := c.calls ++ (textRecords (c.files.lookup th.task.inputPath)).map (⟨th.task.taskId, ·⟩) } ∧
      MapEffect env c th outputs := by
  refine ⟨Function.update c.outputs th.tracker (executeMapTask env.hash env.mapper (c.files.lookup th.task.inputPath)
    th.task (c.outputs th.tracker)), ?_, ?_, ?_, ?_, ?_, ?_⟩
  · rw [Cluster.execute, htype]; rfl
  · intro tracker key hkey
    by_cases htracker : tracker = th.tracker
    · rw [htracker, Function.update_self, slot_executeMapTask, if_neg hkey]
    · rw [Function.update_of_ne htracker]
  · rw [Function.update_self, slot_executeMapTask, if_pos rfl]
    rfl
  · intro tracker key hkey
    by_cases htracker : tracker = th.tracker
    · rw [htracker, Function.update_self] at hkey
      rw [htracker]
      exact mem_executeMapTask hkey
    · rw [Function.update_of_ne htracker] at hkey
      exact .inl hkey
  · intro tracker hne
    by_cases htracker : tracker = th.tracker
    · rw [htracker, Function.update_self]
      exact keys_executeMapTask_ne_nil (htracker ▸ hne)
    · rw [Function.update_of_ne htracker]; exact hne
  · intro tracker hne
    rw [Function.update_of_ne hne]

/-- A map task is executed; nothing was known under its id. -/
theorem executeMap (h : Shuffled env c) {inputPath outputPath : Bytes} {numMaps numReduces : Int32}
    (hone : OneJob env inputPath outputPath numMaps numReduces c) {j : Nat} (hj : c.threads[j]? = some th)
    (hp : th.phase = .assigned) (htype : th.task.type = .kMap) : Shuffled env (c.execute env j th) := by
  have hth := List.mem_of_getElem? hj
  have hnew := not_hasRun hone hth hp
  obtain ⟨outputs, hexec, hslot, hself, hmem, -, -⟩ := execute_kMap env c j htype
  rw [hexec]
  have hother : ∀ taskId, c.HasRun taskId → taskId ≠ th.task.taskId := fun taskId hrun heq => hnew (heq ▸ hrun)
  have hrun : ∀ taskId, c.HasRun taskId → (c.setPhase j th .executed).HasRun taskId :=
    fun _ h => h.setPhase hj (by simp)
  have hran : (c.setPhase j th .executed).HasRun th.task.taskId :=
    ⟨{ th with phase := .executed }, List.mem_set (List.getElem?_eq_some_iff.1 hj).1 _, rfl, htype, by simp⟩
  constructor
  · intro call hcall
    rcases List.mem_append.1 hcall with hcall | hcall
    · exact hrun _ (h.calls call hcall)
    · obtain ⟨line, -, rfl⟩ := List.mem_map.1 hcall
      exact hran
  · intro tracker key hkey
    rcases hmem tracker key hkey with hkey | rfl
    · exact ⟨(h.outputs tracker key hkey).1, hrun _ (h.outputs tracker key hkey).2⟩
    · exact ⟨rfl, hran⟩
  · intro th' hth' hmapped
    rcases List.mem_or_eq_of_mem_set hth' with hth' | rfl
    · have hne := hother _ ⟨th', hth', rfl, hmapped⟩
      refine (hslot th'.tracker (th'.task.taskId, 0) (by simp [hne])).trans ((h.held th' hth' hmapped).trans ?_)
      exact congrArg sortRecords (Cluster.emitted_of_ne rfl hne).symm
    · -- its id was free on its tracker and among the calls
      have hfree : c.held th = [] := by
        have hkey : (th.task.taskId, (0 : Int32)) ∉ c.outputs th.tracker :=
          fun hkey => hnew (h.outputs th.tracker _ hkey).2
        rw [Cluster.held, HashMap.slot, AList.lookup_eq_none.2 hkey]
        rfl
      rw [hfree, List.nil_append] at hself
      refine hself.trans (congrArg sortRecords (Cluster.emitted_self rfl fun call hcall heq => ?_).symm)
      exact hnew (heq ▸ h.calls call hcall)
  · intro th' hth' message hmessage htype'
    rcases List.mem_or_eq_of_mem_set hth' with hth' | rfl
    · obtain ⟨numParts, heq, hparts⟩ := h.messages th' hth' message hmessage htype'
      have hne := hother _ ⟨th', hth', rfl, htype', by rw [hmessage]; simp⟩
      refine ⟨numParts, heq, hparts.imp id fun hnone => ⟨hnone.1, ?_⟩⟩
      exact (hslot th'.tracker (th'.task.taskId, 0) (by simp [hne])).trans hnone.2
    · cases hmessage
  · exact fun loc hloc => ⟨(h.locations loc hloc).1, hrun _ (h.locations loc hloc).2⟩
  · have hfilter : (c.setPhase j th .executed).threads.filter Thread.isReportedMap =
        c.threads.filter Thread.isReportedMap :=
      Counting.filter_set_of_neg hj (by simp [Thread.isReportedMap, hp]) (by simp [Thread.isReportedMap])
    have hgather := @gather_congr _ env c { c.setPhase j th .executed with outputs } c.jobTracker.mapOutputLocations
      (fun loc hloc tracker => hslot tracker _ (by simp [hother _ (h.locations loc hloc).2])) 0
    rw [hfilter]
    refine (List.Perm.of_eq hgather).trans (h.gathered.trans (List.Perm.of_eq (List.flatMap_congr fun th' hth' => ?_)))
    obtain ⟨hth', hreported⟩ := List.mem_filter.1 hth'
    simp only [Thread.isReportedMap, Bool.and_eq_true, decide_eq_true_eq] at hreported
    have hne := hother _ ⟨th', hth', rfl, hreported.1, by rw [hreported.2]; simp⟩
    exact (hslot th'.tracker (th'.task.taskId, 0) (by simp [hne])).symm

theorem submitted (files : HashMap Bytes Bytes) (inputPath outputPath : Bytes) (numMaps numReduces : Int32) :
    Shuffled env (Cluster.step env { files } (.submit inputPath outputPath numMaps numReduces)) where
  calls _ hcall := absurd hcall List.not_mem_nil
  outputs _ key hkey := absurd hkey (AList.notMem_empty key)
  held _ hth := absurd hth List.not_mem_nil
  messages _ hth := absurd hth List.not_mem_nil
  locations _ hloc := absurd hloc List.not_mem_nil
  gathered := List.Perm.refl _

/-- Every step of a single job keeps the invariant. -/
theorem step (h : Shuffled env c) {inputPath outputPath : Bytes} {numMaps numReduces : Int32}
    (hone : OneJob env inputPath outputPath numMaps numReduces c)
    (hrpc : ∀ tracker, env.listener (env.host tracker) (env.shufflePort tracker) = some tracker) {e : Event ι}
    (he : e.isSubmit = false) : Shuffled env (c.step env e) := by
  rcases c.step_cases env he with ⟨hstep, -⟩ | ⟨tracker, t, a, rfl, -, -⟩ | ⟨tracker, t, rfl, -, -⟩ |
    ⟨j, th, rfl, hj, hp, hstep⟩ | ⟨j, th, rfl, hj, hp, hstep⟩ | ⟨j, th, message, rfl, hj, hp, hstep⟩
  · rw [hstep]; exact h
  · exact h.poll tracker
  · exact h.poll tracker
  · rw [hstep]
    cases htype : th.task.type with
    | kMap => exact h.executeMap hone hj hp htype
    | kReduce =>
      have hset : Shuffled env (c.setPhase j th .executed) :=
        h.setPhase hj (by simp [htype]) (by simp) (by rw [hp]; simp) (by simp) (by simp)
      rw [Cluster.execute, htype]
      exact ⟨hset.calls, hset.outputs, hset.held, hset.messages, hset.locations, hset.gathered⟩
  · rw [hstep]
    refine h.setPhase hj (by rw [hp]; simp) (by simp) (by rw [hp]; simp) (by simp) fun message hmessage htype => ?_
    cases hmessage
    rw [reportTaskComplete, htype]
    refine ⟨_, rfl, ?_⟩
    rw [length_partitions fun key hkey => (h.outputs th.tracker key hkey).1]
    split
    · rename_i hnone; exact .inr ⟨rfl, slot_of_keys_nil hnone _⟩
    · exact .inl rfl
  · rw [hstep]
    exact h.deliver hrpc hj hp (hone.message_type (List.mem_of_getElem? hj) hp)

end Shuffled

/-! ## What is gathered -/

section Gathered

variable {inputPath outputPath : Bytes} {numMaps numReduces : Int32}

/-- What the map tasks of a job have emitted. -/
def Cluster.emittedAll (env : Setup ι) (c : Cluster ι) (numMaps : Int32) : List Record :=
  (List.range numMaps.toNatClampNeg).flatMap fun i => c.emitted env (mapTaskId i)

/-- When all map tasks have been reported, their locations give all they have emitted in partition 0, and nothing in any
other. -/
theorem Shuffled.gather_perm (h : Shuffled env c) (hone : OneJob env inputPath outputPath numMaps numReduces c)
    (hdone : numMaps.toInt ≤ c.jobTracker.mapsCompleted) (partition : Int32) :
    (gather (c.fetch env) partition c.jobTracker.mapOutputLocations).Perm
      (if partition = 0 then c.emittedAll env numMaps else []) := by
  obtain ⟨hids, hall⟩ := hone.maps_reported hdone
  split
  · rename_i hzero
    rw [hzero]
    have hfilter : c.threads.filter Thread.isReportedMap = c.threads.filter Thread.isMap := by
      refine List.filter_congr fun th hth => ?_
      by_cases htype : th.task.type = .kMap
      · simp [Thread.isReportedMap, Thread.isMap, htype, hall th hth htype]
      · simp [Thread.isReportedMap, Thread.isMap, htype]
    have hheld : ∀ th ∈ c.threads.filter Thread.isMap, (c.held th).Perm (c.emitted env th.task.taskId) := by
      intro th hth
      obtain ⟨hth, htype⟩ := List.mem_filter.1 hth
      have htype : th.task.type = .kMap := by simpa [Thread.isMap] using htype
      rw [h.held th hth ⟨htype, by rw [hall th hth htype]; simp⟩]
      exact List.perm_insertionSort _ _
    have hgathered := h.gathered
    rw [hfilter] at hgathered
    have hemitted := hids.flatMap_right (c.emitted env)
    rw [List.flatMap_map, List.flatMap_map] at hemitted
    exact hgathered.trans ((List.Perm.flatMap_left _ hheld).trans hemitted)
  · rename_i hpart
    rw [gather_eq, List.filter_eq_nil_iff.2, List.flatMap_nil]
    intro loc hloc
    rw [(h.locations loc hloc).1]
    simpa using Ne.symm hpart

end Gathered

/-! ## All reduce tasks of a run -/

/-- The thread has executed a reduce task. -/
def Thread.hasReduced (th : Thread ι) : Bool := th.task.type = .kReduce && th.phase ≠ .assigned

namespace Cluster

/-- The reduce task that a step executes, with `all_data` after the loop over its locations. -/
def gathers (env : Setup ι) (c : Cluster ι) : Event ι → List (Task × List Record)
  | .execute j =>
    match c.threads[j]? with
    | some th =>
      if th.phase = .assigned ∧ th.task.type = .kReduce then
        [(th.task, gather (c.fetch env) th.task.partition th.task.mapOutputs)]
      else []
    | none => []
  | _ => []

/-- Nothing is gathered by a step that executes no task. -/
theorem gathers_eq_nil {env : Setup ι} {c : Cluster ι} {e : Event ι}
    (h : ∀ j th, e = .execute j → c.threads[j]? = some th → th.phase ≠ .assigned) : c.gathers env e = [] := by
  cases e with
  | execute j =>
    rw [gathers]
    split
    · rename_i th hj
      rw [if_neg fun hp => h j th rfl hj hp.1]
    · rfl
  | submit | poll | prepare | deliver => rfl

/-- The step that executes a task gathers what a reduce task gathers. -/
theorem gathers_execute {env : Setup ι} {c : Cluster ι} {j : Nat} {th : Thread ι} (hj : c.threads[j]? = some th)
    (hp : th.phase = .assigned) : c.gathers env (.execute j) =
      if th.task.type = .kReduce then [(th.task, gather (c.fetch env) th.task.partition th.task.mapOutputs)] else [] := by
  simp only [gathers, hj, hp, true_and]

/-- All reduce tasks of a job of `n` have been executed. -/
def ReducesExecuted (c : Cluster ι) (n : Nat) : Prop :=
  ∀ r < n, ∃ th ∈ c.threads, th.task.taskId = reduceTaskId r ∧ th.hasReduced

instance (c : Cluster ι) (n : Nat) : Decidable (c.ReducesExecuted n) :=
  inferInstanceAs (Decidable (∀ r < n, ∃ th ∈ c.threads, th.task.taskId = reduceTaskId r ∧ th.hasReduced))

end Cluster

/-- What the reduce tasks have gathered so far: each executed one is there, once, and only that of partition 0 has
anything. -/
structure Collected (env : Setup ι) (numMaps numReduces : Int32) (gs : List (Task × List Record)) (c : Cluster ι) :
    Prop where
  tasks : (gs.map (·.1.taskId)).Perm ((c.threads.filter Thread.hasReduced).map (·.task.taskId))
  ids : ∀ g ∈ gs, ∃ r < numReduces.toNatClampNeg, g.1.taskId = reduceTaskId r ∧ g.1.partition = Int32.ofNat r
  records : ∀ g ∈ gs, g.2.Perm (if g.1.partition = 0 then c.emittedAll env numMaps else [])
  barrier : gs ≠ [] → numMaps.toInt ≤ c.jobTracker.mapsCompleted

namespace Collected

variable {numMaps numReduces : Int32} {gs : List (Task × List Record)}

/-- A step that executes no reduce task, and no map task after the last of them. -/
theorem frame (h : Collected env numMaps numReduces gs c) {c' : Cluster ι}
    (hthreads : (c'.threads.filter Thread.hasReduced).map (·.task.taskId) =
      (c.threads.filter Thread.hasReduced).map (·.task.taskId))
    (hmaps : c.jobTracker.mapsCompleted ≤ c'.jobTracker.mapsCompleted)
    (hcalls : numMaps.toInt ≤ c.jobTracker.mapsCompleted → c'.calls = c.calls) :
    Collected env numMaps numReduces gs c' where
  tasks := by rw [hthreads]; exact h.tasks
  ids := h.ids
  records := by
    intro g hg
    have hsame : c'.emittedAll env numMaps = c.emittedAll env numMaps := by
      unfold Cluster.emittedAll Cluster.emitted
      rw [hcalls (h.barrier (List.ne_nil_of_mem hg))]
    rw [hsame]
    exact h.records g hg
  barrier := fun hne => (h.barrier hne).trans (by exact_mod_cast hmaps)

/-- A thread moves on with its map task, or after it has executed its reduce task. -/
theorem setPhase (h : Collected env numMaps numReduces gs c) {j : Nat} {phase : Phase} (hj : c.threads[j]? = some th)
    (hsame : Thread.hasReduced { th with phase } = th.hasReduced) :
    Collected env numMaps numReduces gs (c.setPhase j th phase) :=
  h.frame (Counting.map_filter_set hj hsame rfl) le_rfl fun _ => rfl

variable [DecidableEq ι] {inputPath outputPath : Bytes}

/-- A map task is executed: no reduce task has been, yet. -/
theorem executeMap (h : Collected env numMaps numReduces gs c)
    (hone : OneJob env inputPath outputPath numMaps numReduces c) {j : Nat}
    (hj : c.threads[j]? = some th) (hp : th.phase = .assigned) (htype : th.task.type = .kMap) :
    Collected env numMaps numReduces gs (c.execute env j th) := by
  have hset : Collected env numMaps numReduces gs (c.setPhase j th .executed) :=
    h.setPhase hj (by simp [Thread.hasReduced, htype])
  rw [Cluster.execute, htype]
  refine hset.frame rfl le_rfl fun hdone => ?_
  have hreported := (hone.maps_reported hdone).2 th (List.mem_of_getElem? hj) htype
  rw [hp] at hreported
  cases hreported

/-- A reduce task is executed. -/
theorem executeReduce (h : Collected env numMaps numReduces gs c)
    (hone : OneJob env inputPath outputPath numMaps numReduces c)
    (hs : Shuffled env c) {j : Nat} (hj : c.threads[j]? = some th) (hp : th.phase = .assigned)
    (htype : th.task.type = .kReduce) :
    Collected env numMaps numReduces (gs ++ [(th.task, gather (c.fetch env) th.task.partition th.task.mapOutputs)])
      (c.execute env j th) := by
  obtain ⟨hdone, r, hr, hid, hpart, -, houtputs⟩ := hone.reduce_thread (List.mem_of_getElem? hj) htype
  rw [Cluster.execute, htype]
  have hnew := hs.gather_perm hone hdone th.task.partition
  rw [← houtputs] at hnew
  constructor
  · have hperm := (@Counting.filter_set_perm _ c.threads j th { th with phase := .executed } Thread.hasReduced hj
      (by simp [Thread.hasReduced, hp]) (by simp [Thread.hasReduced, htype])).map (·.task.taskId)
    rw [List.map_append] at hperm ⊢
    exact (h.tasks.append_right _).trans hperm.symm
  · intro g hg
    rcases List.mem_append.1 hg with hg | hg
    · exact h.ids g hg
    · rw [List.mem_singleton.1 hg]; exact ⟨r, hr, hid, hpart⟩
  · intro g hg
    rcases List.mem_append.1 hg with hg | hg
    · exact h.records g hg
    · rw [List.mem_singleton.1 hg]; exact hnew
  · exact fun _ => hdone

/-- Every step of a single job adds what it gathers. -/
theorem step (h : Collected env numMaps numReduces gs c) (hone : OneJob env inputPath outputPath numMaps numReduces c)
    (hs : Shuffled env c) {e : Event ι} (he : e.isSubmit = false) :
    Collected env numMaps numReduces (gs ++ c.gathers env e) (c.step env e) := by
  rcases c.step_cases env he with ⟨hstep, hnone⟩ | ⟨tracker, t, a, rfl, hpoll, hstep⟩ | ⟨tracker, t, rfl, hpoll, hstep⟩ |
    ⟨j, th, rfl, hj, hp, hstep⟩ | ⟨j, th, rfl, hj, hp, hstep⟩ | ⟨j, th, message, rfl, hj, hp, hstep⟩
  · rw [Cluster.gathers_eq_nil hnone, hstep, List.append_nil]; exact h
  · have hmaps := c.jobTracker.pollForTask_frame.2.2.1
    rw [hpoll] at hmaps
    rw [Cluster.gathers_eq_nil (by simp), List.append_nil, hstep]
    refine h.frame ?_ hmaps.ge fun _ => rfl
    rw [List.filter_append, List.filter_cons_of_neg (by simp [Thread.hasReduced]), List.filter_nil, List.append_nil]
  · have hmaps := c.jobTracker.pollForTask_frame.2.2.1
    rw [hpoll] at hmaps
    rw [Cluster.gathers_eq_nil (by simp), List.append_nil, hstep]
    exact h.frame rfl hmaps.ge fun _ => rfl
  · rw [Cluster.gathers_execute hj hp, hstep]
    cases htype : th.task.type with
    | kMap =>
      rw [if_neg (by simp), List.append_nil]
      exact h.executeMap hone hj hp htype
    | kReduce =>
      rw [if_pos rfl]
      exact h.executeReduce hone hs hj hp htype
  · rw [Cluster.gathers_eq_nil (by simp), List.append_nil, hstep]
    exact h.setPhase hj (by simp [Thread.hasReduced, hp])
  · rw [Cluster.gathers_eq_nil (by simp), List.append_nil, hstep]
    have hset : Collected env numMaps numReduces gs (c.setPhase j th .reported) :=
      h.setPhase hj (by simp [Thread.hasReduced, hp])
    refine hset.frame rfl ?_ fun _ => rfl
    cases message with
    | map => exact Nat.le_succ _
    | reduce => exact le_rfl

end Collected

namespace Collected

variable {numMaps numReduces : Int32} {gs : List (Task × List Record)} {inputPath outputPath : Bytes}
  (h : Collected env numMaps numReduces gs c)

include h

/-- Partition 0 is that of the first reduce task. -/
theorem partition_eq_zero {g : Task × List Record} (hg : g ∈ gs) :
    g.1.partition = 0 ↔ g.1.taskId = reduceTaskId 0 := by
  obtain ⟨r, hr, hid, hpart⟩ := h.ids g hg
  have hlt := numReduces.toInt_lt
  unfold Int32.toNatClampNeg at hr
  have hr31 : r < 2 ^ 31 := by omega
  rw [hid, hpart, reduceTaskId_injective.eq_iff, ← Int32.toInt_inj, Int32.toInt_ofNat_of_lt hr31]
  simp

theorem nodup (hone : OneJob env inputPath outputPath numMaps numReduces c) : (gs.map (·.1.taskId)).Nodup :=
  h.tasks.nodup_iff.2 (hone.nodup_taskId.sublist (List.filter_sublist.map _))

/-- Every executed reduce task has gathered. -/
theorem mem_of_executed {n : Nat} (hdone : c.ReducesExecuted n) {r : Nat} (hr : r < n) :
    reduceTaskId r ∈ gs.map (·.1.taskId) := by
  obtain ⟨th, hth, hid, hreduced⟩ := hdone r hr
  rw [h.tasks.mem_iff, ← hid]
  exact List.mem_map_of_mem (List.mem_filter.2 ⟨hth, hreduced⟩)

/-- The first reduce task has gathered all there is, the others nothing. -/
theorem split (hone : OneJob env inputPath outputPath numMaps numReduces c)
    (hzero : reduceTaskId 0 ∈ gs.map (·.1.taskId)) :
    ∃ pre g post, gs = pre ++ g :: post ∧ g.1.taskId = reduceTaskId 0 ∧ g.2.Perm (c.emittedAll env numMaps) ∧
      (∀ g' ∈ pre, g'.2 = []) ∧ ∀ g' ∈ post, g'.2 = [] := by
  obtain ⟨g, hg, hid⟩ := List.mem_map.1 hzero
  obtain ⟨pre, post, rfl⟩ := List.append_of_mem hg
  have hnodup := h.nodup hone
  rw [List.map_append, List.map_cons, List.nodup_append, List.nodup_cons] at hnodup
  obtain ⟨-, ⟨hpost, -⟩, hpre⟩ := hnodup
  have hempty : ∀ g' ∈ pre ++ g :: post, g'.1.taskId ≠ g.1.taskId → g'.2 = [] := by
    intro g' hg' hne
    have hrecords := h.records g' hg'
    rw [if_neg (by rw [h.partition_eq_zero hg', ← hid]; exact hne)] at hrecords
    exact hrecords.eq_nil
  refine ⟨pre, g, post, rfl, hid, ?_, fun g' hg' => ?_, fun g' hg' => ?_⟩
  · have hrecords := h.records g hg
    rw [if_pos ((h.partition_eq_zero hg).2 hid)] at hrecords
    exact hrecords
  · exact hempty g' (List.mem_append_left _ hg') (hpre _ (List.mem_map_of_mem hg') _ (List.mem_cons_self ..))
  · refine hempty g' (List.mem_append_right _ (List.mem_cons_of_mem _ hg')) fun heq => hpost ?_
    rw [← heq]
    exact List.mem_map_of_mem hg'

end Collected

namespace Cluster

variable [DecidableEq ι]

/-- What the reduce tasks of a job gather, in the order in which they are executed. -/
def gathered (env : Setup ι) (files : HashMap Bytes Bytes) (inputPath outputPath : Bytes) (numMaps numReduces : Int32)
    (es : List (Event ι)) : List (Task × List Record) :=
  trace (step env) (gathers env) (step env { files } (.submit inputPath outputPath numMaps numReduces)) es

theorem runJob_collected {es : List (Event ι)} (hjob : SingleJob es)
    (hrpc : ∀ tracker, env.listener (env.host tracker) (env.shufflePort tracker) = some tracker)
    (files : HashMap Bytes Bytes) (inputPath outputPath : Bytes) (numMaps numReduces : Int32) :
    let c := runJob env files inputPath outputPath numMaps numReduces es
    OneJob env inputPath outputPath numMaps numReduces c ∧ Shuffled env c ∧
      Collected env numMaps numReduces (gathered env files inputPath outputPath numMaps numReduces es) c := by
  refine @after_invariant _ _ (step env) _ (fun pre c => OneJob env inputPath outputPath numMaps numReduces c ∧
    Shuffled env c ∧ Collected env numMaps numReduces
      (gathered env files inputPath outputPath numMaps numReduces pre) c) es ?_ ?_ es (List.prefix_refl es)
  · refine ⟨OneJob.submitted files inputPath outputPath numMaps numReduces,
      Shuffled.submitted files inputPath outputPath numMaps numReduces, List.Perm.refl _, ?_, ?_, ?_⟩
    · exact fun g hg => absurd hg List.not_mem_nil
    · exact fun g hg => absurd hg List.not_mem_nil
    · exact fun hne => absurd rfl hne
  · rintro pre e hpre ⟨hone, hs, hc⟩
    have he := hjob e (hpre.subset (by simp))
    refine ⟨hone.step he, hs.step hone hrpc he, ?_⟩
    rw [gathered, trace_snoc]
    exact hc.step hone hs he

/-- When all reduce tasks of a job on fresh trackers have been executed, each of them once, they have gathered what the
map tasks have emitted, each record once; and no key was gathered by two of them. -/
theorem shuffle_exact {es : List (Event ι)} (hjob : SingleJob es)
    (hrpc : ∀ tracker, env.listener (env.host tracker) (env.shufflePort tracker) = some tracker)
    (files : HashMap Bytes Bytes) (inputPath outputPath : Bytes) {numMaps numReduces : Int32}
    (hreduces : 1 ≤ numReduces.toInt)
    (hdone : (runJob env files inputPath outputPath numMaps numReduces es).ReducesExecuted numReduces.toNatClampNeg) :
    let c := runJob env files inputPath outputPath numMaps numReduces es
    let gs := gathered env files inputPath outputPath numMaps numReduces es
    (gs.map (·.1.taskId)).Perm ((List.range numReduces.toNatClampNeg).map reduceTaskId) ∧
    (gs.flatMap (·.2)).Perm ((List.range numMaps.toNatClampNeg).flatMap fun i => c.emitted env (mapTaskId i)) ∧
    ∀ g ∈ gs, ∀ g' ∈ gs, ∀ key, key ∈ g.2.map (·.1) → key ∈ g'.2.map (·.1) → g.1.taskId = g'.1.taskId := by
  intro c gs
  obtain ⟨hone, -, hc⟩ := runJob_collected hjob hrpc files inputPath outputPath numMaps numReduces
  have hpos : 0 < numReduces.toNatClampNeg := by
    unfold Int32.toNatClampNeg
    omega
  refine ⟨?_, ?_, ?_⟩
  · refine (List.perm_ext_iff_of_nodup (hc.nodup hone) (List.nodup_range.map reduceTaskId_injective)).2 fun taskId => ?_
    constructor
    · intro hmem
      obtain ⟨g, hg, rfl⟩ := List.mem_map.1 hmem
      obtain ⟨r, hr, hid, -⟩ := hc.ids g hg
      rw [hid]
      exact List.mem_map_of_mem (List.mem_range.2 hr)
    · intro hmem
      obtain ⟨r, hr, rfl⟩ := List.mem_map.1 hmem
      exact hc.mem_of_executed hdone (List.mem_range.1 hr)
  · obtain ⟨pre, g, post, hsplit, -, hperm, hpre, hpost⟩ := hc.split hone (hc.mem_of_executed hdone hpos)
    have hnone : ∀ l : List (Task × List Record), (∀ g' ∈ l, g'.2 = []) → l.flatMap (·.2) = [] :=
      fun l hl => List.flatMap_eq_nil_iff.2 hl
    show (List.flatMap _ (gathered env files inputPath outputPath numMaps numReduces es)).Perm _
    rw [hsplit, List.flatMap_append, List.flatMap_cons, hnone pre hpre, hnone post hpost, List.nil_append, List.append_nil]
    exact hperm
  · -- only the first reduce task has any key
    have hfirst : ∀ g ∈ gs, ∀ key, key ∈ g.2.map (·.1) → g.1.taskId = reduceTaskId 0 := by
      intro g hg key hkey
      rw [← hc.partition_eq_zero hg]
      by_contra hpart
      have hrecords := hc.records g hg
      rw [if_neg hpart] at hrecords
      rw [hrecords.eq_nil] at hkey
      cases hkey
    intro g hg g' hg' key hkey hkey'
    rw [hfirst g hg key hkey, hfirst g' hg' key hkey']

/-- Two map tasks on two trackers, reported in the other order, and a reduce task. -/
def twoMaps : List (Event Bool) :=
  [.poll true, .poll false, .execute 0, .execute 1, .prepare 0, .prepare 1, .deliver 1, .deliver 0, .poll true, .execute 2]

theorem shuffle_exact_twoMaps :
    ((gathered countLines oneLine (bytes "in") (bytes "out") 2 1 twoMaps).flatMap (·.2)).length = 2 ∧
    ((gathered countLines oneLine (bytes "in") (bytes "out") 2 1 twoMaps).flatMap (·.2)).Perm
      ((List.range (Int32.toNatClampNeg 2)).flatMap fun i =>
        (runJob countLines oneLine (bytes "in") (bytes "out") 2 1 twoMaps).emitted countLines (mapTaskId i)) :=
  ⟨by decide +kernel, (shuffle_exact (by decide) (by decide) oneLine (bytes "in") (bytes "out") (by decide)
    (by decide +kernel)).2.1⟩

end Cluster

end MiniHadoop.Mapred

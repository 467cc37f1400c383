/-
The output of a job whose reduce tasks write it in one step each. All of them write the same file, each over what was
there before, so the file holds what the reduce task that was executed last has collected.
-/
import MiniHadoop.Mapred.Shuffle

namespace MiniHadoop.Mapred

open Text Runs

variable {ι : Type} {env : Setup ι} {c : Cluster ι} {th : Thread ι}

/-! ## What a reduce task writes -/

/-- What the reducer of a reduce task collects from the records that were gathered. -/
def reduced (reducer : Reducer) (records : List Record) : List Record :=
  reducer.reduceAll reducer.fresh (groupRuns (sortRecords records))

theorem executeReduceTask_eq (reducer : Reducer) (fetch : MapOutputLocation → Fetch) (task : Task) :
    executeReduceTask reducer fetch task = outputText (reduced reducer (gather fetch task.partition task.mapOutputs)) :=
  rfl

theorem reduced_eq_of_perm {reducer : Reducer} {rs rs' : List Record} (h : rs.Perm rs') :
    reduced reducer rs = reduced reducer rs' := by
  rw [reduced, reduced, sortRecords_eq_of_perm h]

theorem reduced_nil (reducer : Reducer) : reduced reducer [] = [] := rfl

/-- Every result has a line of its own. -/
theorem outputText_eq_nil {rs : List Record} : outputText rs = [] ↔ rs = [] := by
  cases rs with
  | nil => simp [outputText]
  | cons r rs => simp [outputText, bytes]

/-! ## What the map tasks have emitted -/

/-- Every map task that was executed has emitted what a mapper makes of the input as it was submitted. -/
def Emitted (env : Setup ι) (content : Option Bytes) (c : Cluster ι) : Prop :=
  ∀ th ∈ c.threads, th.HasMapped → c.emitted env th.task.taskId = mapped env.mapper content

namespace Emitted

variable {content : Option Bytes}

/-- A step that executes no map task. -/
theorem frame (h : Emitted env content c) {c' : Cluster ι} (hcalls : c'.calls = c.calls)
    (hthreads : ∀ th' ∈ c'.threads, th'.HasMapped →
      ∃ th ∈ c.threads, th.HasMapped ∧ th.task.taskId = th'.task.taskId) : Emitted env content c' := by
  intro th' hth' hmapped
  obtain ⟨th, hth, hmapped, hid⟩ := hthreads th' hth' hmapped
  rw [← h th hth hmapped, hid, Cluster.emitted, Cluster.emitted, hcalls]

theorem setPhase (h : Emitted env content c) {j : Nat} {phase : Phase} (hj : c.threads[j]? = some th)
    (hran : th.task.type = .kMap → th.phase ≠ .assigned) : Emitted env content (c.setPhase j th phase) := by
  refine h.frame rfl fun th' hth' hmapped => ?_
  rcases List.mem_or_eq_of_mem_set hth' with hth' | rfl
  · exact ⟨th', hth', hmapped, rfl⟩
  · exact ⟨th, List.mem_of_getElem? hj, ⟨hmapped.1, hran hmapped.1⟩, rfl⟩

variable [DecidableEq ι] {inputPath outputPath : Bytes} {numMaps numReduces : Int32}

/-- A map task is executed, on the input as it was submitted. -/
theorem executeMap (h : Emitted env content c) (hone : OneJob env inputPath outputPath numMaps numReduces c)
    (hs : Shuffled env c) (hm : MapPhase numMaps inputPath content c) {j : Nat} (hj : c.threads[j]? = some th)
    (hp : th.phase = .assigned) (htype : th.task.type = .kMap) : Emitted env content (c.execute env j th) := by
  have hth := List.mem_of_getElem? hj
  have hnew := Shuffled.not_hasRun hone hth hp
  have hcontent : c.files.lookup th.task.inputPath = content := by
    rw [(hm.threads th hth).path htype]
    exact (hm.threads th hth).unread htype hp
  obtain ⟨outputs, hexec, -⟩ := Shuffled.execute_kMap env c j htype
  rw [hexec]
  intro th' hth' hmapped
  rcases List.mem_or_eq_of_mem_set hth' with hth' | rfl
  · rw [Cluster.emitted_of_ne rfl fun hid => hnew ⟨th', hth', hid, hmapped⟩]
    exact h th' hth' hmapped
  · have hfree : ∀ call ∈ c.calls, call.taskId ≠ th.task.taskId :=
      fun call hcall hid => hnew (hid ▸ hs.calls call hcall)
    refine (Cluster.emitted_self rfl hfree).trans ?_
    rw [hcontent, mapped]

theorem step (h : Emitted env content c) (hone : OneJob env inputPath outputPath numMaps numReduces c)
    (hs : Shuffled env c) (hm : MapPhase numMaps inputPath content c) {e : Event ι} (he : e.isSubmit = false) :
    Emitted env content (c.step env e) := by
  rcases c.step_cases env he with ⟨hstep, -⟩ | ⟨tracker, t, a, rfl, hpoll, hstep⟩ | ⟨tracker, t, rfl, hpoll, hstep⟩ |
    ⟨j, th, rfl, hj, hp, hstep⟩ | ⟨j, th, rfl, hj, hp, hstep⟩ | ⟨j, th, message, rfl, hj, hp, hstep⟩
  · rw [hstep]; exact h
  · rw [hstep]
    refine h.frame rfl fun th hth hmapped => ?_
    rcases List.mem_append.1 hth with hth | hth
    · exact ⟨th, hth, hmapped, rfl⟩
    · rw [List.mem_singleton.1 hth] at hmapped
      exact absurd rfl hmapped.2
  · rw [hstep]
    exact h.frame rfl fun th hth hmapped => ⟨th, hth, hmapped, rfl⟩
  · rw [hstep]
    cases htype : th.task.type with
    | kMap => exact h.executeMap hone hs hm hj hp htype
    | kReduce =>
      have hset : Emitted env content (c.setPhase j th .executed) := h.setPhase hj (by simp [htype])
      rw [Cluster.execute, htype]
      exact hset.frame rfl fun th hth hmapped => ⟨th, hth, hmapped, rfl⟩
  · rw [hstep]
    exact h.setPhase hj fun _ => by rw [hp]; simp
  · rw [hstep]
    have hset : Emitted env content (c.setPhase j th .reported) := h.setPhase hj fun _ => by rw [hp]; simp
    exact hset.frame rfl fun th hth hmapped => ⟨th, hth, hmapped, rfl⟩

omit [DecidableEq ι] in
/-- When all map tasks have been reported, each has emitted this. -/
theorem emittedAll (h : Emitted env content c) (hone : OneJob env inputPath outputPath numMaps numReduces c)
    (hdone : numMaps.toInt ≤ c.jobTracker.mapsCompleted) :
    c.emittedAll env numMaps = (List.replicate numMaps.toNatClampNeg (mapped env.mapper content)).flatten := by
  obtain ⟨hids, hall⟩ := hone.maps_reported hdone
  have heach : ∀ i ∈ List.range numMaps.toNatClampNeg,
      c.emitted env (mapTaskId i) = mapped env.mapper content := by
    intro i hi
    obtain ⟨th, hth, hid⟩ := List.mem_map.1 (hids.mem_iff.2 (List.mem_map_of_mem hi))
    obtain ⟨hth, htype⟩ := List.mem_filter.1 hth
    have htype : th.task.type = .kMap := by simpa [Thread.isMap] using htype
    rw [← hid]
    exact h th hth ⟨htype, by rw [hall th hth htype]; simp⟩
  rw [Cluster.emittedAll, List.flatMap_congr heach, List.flatMap_def, List.map_const', List.length_range]

end Emitted

/-! ## What is in the output file -/

section Written

variable [DecidableEq ι] {outputPath : Bytes} {gs : List (Task × List Record)}

/-- A step writes a file only when it executes a reduce task. -/
theorem step_files (env : Setup ι) (c : Cluster ι) (e : Event ι) :
    (c.gathers env e = [] ∧ (c.step env e).files = c.files) ∨
    ∃ th ∈ c.threads, th.task.type = .kReduce ∧ ∃ rs, c.gathers env e = [(th.task, rs)] ∧
      (c.step env e).files = c.files.insert th.task.outputPath (outputText (reduced env.reducer rs)) := by
  cases he : e.isSubmit with
  | true =>
    cases e with
    | submit => exact .inl ⟨rfl, rfl⟩
    | poll | execute | prepare | deliver => cases he
  | false =>
    rcases c.step_cases env he with ⟨hstep, hnone⟩ | ⟨tracker, t, a, rfl, -, hstep⟩ | ⟨tracker, t, rfl, -, hstep⟩ |
      ⟨j, th, rfl, hj, hp, hstep⟩ | ⟨j, th, rfl, -, -, hstep⟩ | ⟨j, th, message, rfl, -, -, hstep⟩
    · rw [hstep]; exact .inl ⟨Cluster.gathers_eq_nil hnone, rfl⟩
    · rw [hstep]; exact .inl ⟨rfl, rfl⟩
    · rw [hstep]; exact .inl ⟨rfl, rfl⟩
    · rw [Cluster.gathers_execute hj hp, hstep, Cluster.execute]
      cases htype : th.task.type with
      | kMap => exact .inl ⟨rfl, rfl⟩
      | kReduce =>
        refine .inr ⟨th, List.mem_of_getElem? hj, htype, _, rfl, ?_⟩
        exact congrArg (c.files.insert th.task.outputPath) (executeReduceTask_eq env.reducer (c.fetch env) th.task)
    · rw [hstep]; exact .inl ⟨rfl, rfl⟩
    · rw [hstep]; exact .inl ⟨rfl, rfl⟩

/-- The output file holds what the last reduce task has collected. -/
def Written (env : Setup ι) (outputPath : Bytes) (gs : List (Task × List Record)) (c : Cluster ι) : Prop :=
  ∀ g, gs.getLast? = some g → c.files.lookup outputPath = some (outputText (reduced env.reducer g.2))

theorem Written.step (h : Written env outputPath gs c) {inputPath : Bytes} {numMaps numReduces : Int32}
    (hone : OneJob env inputPath outputPath numMaps numReduces c) (e : Event ι) :
    Written env outputPath (gs ++ c.gathers env e) (c.step env e) := by
  rcases step_files env c e with ⟨hnone, hfiles⟩ | ⟨th, hth, htype, rs, hgathers, hfiles⟩
  · rw [hnone, List.append_nil]
    intro g hg
    rw [hfiles]
    exact h g hg
  · obtain ⟨-, r, -, -, -, hpath, -⟩ := hone.reduce_thread hth htype
    intro g hg
    rw [hgathers, List.getLast?_append, List.getLast?_singleton] at hg
    cases hg
    rw [hfiles, HashMap.lookup_insert_eq, if_pos hpath.symm]

end Written

namespace Cluster

variable [DecidableEq ι]

theorem runJob_written {es : List (Event ι)} (hjob : SingleJob es)
    (hrpc : ∀ tracker, env.listener (env.host tracker) (env.shufflePort tracker) = some tracker)
    (files : HashMap Bytes Bytes) (inputPath outputPath : Bytes) (numMaps numReduces : Int32) :
    let c := runJob env files inputPath outputPath numMaps numReduces es
    Emitted env (files.lookup inputPath) c ∧
      Written env outputPath (gathered env files inputPath outputPath numMaps numReduces es) c := by
  refine @after_invariant _ _ (step env) _ (fun pre c => Emitted env (files.lookup inputPath) c ∧
    Written env outputPath (gathered env files inputPath outputPath numMaps numReduces pre) c) es
    ⟨fun th hth => absurd hth List.not_mem_nil, fun g hg => by cases hg⟩ ?_ es (List.prefix_refl es)
  rintro pre e hpre ⟨hemitted, hwritten⟩
  have hpre' : SingleJob pre := fun e' he' => hjob e' (hpre.subset (by simp [he']))
  obtain ⟨hone, hs, -⟩ := runJob_collected hpre' hrpc files inputPath outputPath numMaps numReduces
  have hm := @runJob_mapPhase _ _ env pre hpre' files inputPath outputPath numMaps numReduces
  refine ⟨hemitted.step hone hs hm (hjob e (hpre.subset (by simp))), ?_⟩
  rw [gathered, trace_snoc]
  exact hwritten.step hone e

end Cluster

end MiniHadoop.Mapred

/-
The output of a job whose reduce tasks overlap. A reduce task runs in a thread of its own (`mapred/task_tracker.h`): when
its results are there, it opens the output path, which empties the file, writes them through a buffer and closes the file
before it reports. All reduce tasks of a job have the same output path, so between these steps another one may empty it.
What the tasks do apart from the output is what they do when each of them writes its output in one step; and the output
keeps all results exactly when no task empties it behind what another has written.
-/
import MiniHadoop.Base.SharedFile
import MiniHadoop.Mapred.ReduceOutput

namespace MiniHadoop.Mapred

open Text Runs SharedFile

variable {ι : Type}

/-! ## Steps -/

/-- A reduce task from its last call of `Reduce` on: the thread that executes it, `results`, and the stream to the output
path of the task. -/
structure Output where
  thread : Nat
  task : Task
  results : List Record
  phase : SharedFile.Phase := .waiting
  deriving DecidableEq, Repr

/-- The bytes of its results that the task has written. -/
def Output.flushed (o : Output) : Bytes := o.phase.flushed (outputText o.results)

/-- The state of all processes, with the outputs of the reduce tasks in the order in which these have come to their
results. -/
structure StreamCluster (ι : Type) where
  cluster : Cluster ι
  outputs : List Output := []

inductive StreamEvent (ι : Type) where
  | task (e : Event ι)
  | output (k : Nat) (t : Turn)
  deriving DecidableEq

def StreamEvent.isSubmit : StreamEvent ι → Bool
  | .task e => e.isSubmit
  | .output .. => false

namespace StreamCluster

/-- A turn of the stream of the output `k`. -/
def turn (s : StreamCluster ι) (k : Nat) (o : Output) (t : Turn) : StreamCluster ι :=
  let file := SharedFile.turn (outputText o.results) t (s.cluster.files.lookup o.task.outputPath, o.phase)
  { cluster := { s.cluster with
      files := match file.1 with
        | some content => s.cluster.files.insert o.task.outputPath content
        | none => s.cluster.files }
    outputs := s.outputs.set k { o with phase := file.2 } }

/-- The stream of the thread, if it has one, is closed. -/
def Closed (s : StreamCluster ι) (j : Nat) : Prop := ∀ o ∈ s.outputs, o.thread = j → o.phase = .closed

instance (s : StreamCluster ι) (j : Nat) : Decidable (s.Closed j) :=
  inferInstanceAs (Decidable (∀ o ∈ s.outputs, o.thread = j → o.phase = .closed))

variable [DecidableEq ι]

/-- `ExecuteReduceTask` up to the results. -/
def reduce (env : Setup ι) (s : StreamCluster ι) (j : Nat) (th : Thread ι) : StreamCluster ι :=
  { cluster := s.cluster.setPhase j th .executed
    outputs := s.outputs ++ [{
      thread := j
      task := th.task
      results := reduced env.reducer (gather (s.cluster.fetch env) th.task.partition th.task.mapOutputs) }] }

/-- A step; one that is not possible changes nothing. -/
def step (env : Setup ι) (s : StreamCluster ι) : StreamEvent ι → StreamCluster ι
  | .task (.execute j) =>
    match s.cluster.threads[j]? with
    | some th =>
      if th.phase = .assigned ∧ th.task.type = .kReduce then s.reduce env j th
      else { s with cluster := s.cluster.step env (.execute j) }
    | none => s
  | .task (.prepare j) =>
    -- `ReportTaskComplete` is called behind `out.close()`
    if s.Closed j then { s with cluster := s.cluster.step env (.prepare j) } else s
  | .task e => { s with cluster := s.cluster.step env e }
  | .output k t =>
    match s.outputs[k]? with
    | some o => s.turn k o t
    | none => s

/-- A job submitted to fresh trackers, and what happened then. -/
def runJob (env : Setup ι) (files : HashMap Bytes Bytes) (inputPath outputPath : Bytes) (numMaps numReduces : Int32)
    (es : List (StreamEvent ι)) : StreamCluster ι :=
  after (step env) { cluster := Cluster.step env { files } (.submit inputPath outputPath numMaps numReduces) } es

/-- The steps of the tasks that an event is, apart from the output. -/
def tasks (s : StreamCluster ι) : StreamEvent ι → List (Event ι)
  | .task (.prepare j) => if s.Closed j then [.prepare j] else []
  | .task e => [e]
  | .output .. => []

/-- The steps of the tasks of a run. -/
def taskRun (env : Setup ι) (files : HashMap Bytes Bytes) (inputPath outputPath : Bytes) (numMaps numReduces : Int32)
    (es : List (StreamEvent ι)) : List (Event ι) :=
  trace (step env) tasks { cluster := Cluster.step env { files } (.submit inputPath outputPath numMaps numReduces) } es

omit [DecidableEq ι] in
/-- A turn changes the phase of an output only. -/
theorem map_turn {α : Type} {f : Output → α} (hf : ∀ (o : Output) (phase : SharedFile.Phase), f { o with phase } = f o)
    {s : StreamCluster ι} {k : Nat} {o : Output} (hk : s.outputs[k]? = some o) (t : Turn) :
    (s.turn k o t).outputs.map f = s.outputs.map f := Counting.map_set_of_eq hk (hf o _)

omit [DecidableEq ι] in
theorem isSubmit_of_mem_tasks {s : StreamCluster ι} {e : StreamEvent ι} {e' : Event ι} (h : e' ∈ s.tasks e) :
    e'.isSubmit = e.isSubmit := by
  cases e with
  | task e =>
    cases e with
    | prepare j =>
      have htasks : s.tasks (.task (.prepare j)) = if s.Closed j then [.prepare j] else [] := rfl
      rw [htasks] at h
      split at h
      · rw [List.mem_singleton.1 h]
        rfl
      · cases h
    | submit | poll | execute | deliver =>
      rw [List.mem_singleton.1 h]
      rfl
  | output k t => cases h

end StreamCluster

/-! ## The tasks do not look at the output -/

namespace Cluster

/-- The state without the files. -/
def bare (c : Cluster ι) : Cluster ι := { c with files := ∅ }

variable {c c' : Cluster ι} {env : Setup ι}

theorem exists_files (h : c.bare = c'.bare) : ∃ files, c' = { c with files } := by
  refine ⟨c'.files, ?_⟩
  obtain ⟨jobTracker, outputs, threads, files, calls⟩ := c
  obtain ⟨jobTracker', outputs', threads', files', calls'⟩ := c'
  cases h
  rfl

variable [DecidableEq ι]

/-- Two states that differ in the files only do the same, if a map task that is executed finds the same input. -/
theorem bare_step (h : c.bare = c'.bare) {e : Event ι}
    (hread : ∀ j th, e = .execute j → c.threads[j]? = some th → th.phase = .assigned → th.task.type = .kMap →
      c.files.lookup th.task.inputPath = c'.files.lookup th.task.inputPath) :
    (c.step env e).bare = (c'.step env e).bare ∧ c.gathers env e = c'.gathers env e := by
  obtain ⟨files, rfl⟩ := exists_files h
  refine ⟨?_, by cases e <;> rfl⟩
  cases e with
  | submit => rfl
  | poll tracker =>
    unfold step
    dsimp only
    split <;> rfl
  | execute j =>
    unfold step
    dsimp only
    split
    · rename_i th hj
      split
      · rename_i hp
        unfold execute
        dsimp only
        cases htype : th.task.type with
        | kMap =>
          dsimp only [setPhase]
          rw [hread j th rfl hj hp htype]
          rfl
        | kReduce => rfl
      · rfl
    · rfl
  | prepare j =>
    unfold step
    dsimp only
    split
    · split <;> rfl
    · rfl
  | deliver j =>
    unfold step
    dsimp only
    split
    · split <;> rfl
    · rfl

/-- A step that comes to no results leaves the files as they are. -/
theorem files_step {e : Event ι} (h : c.gathers env e = []) : (c.step env e).files = c.files := by
  rcases step_files env c e with ⟨-, hfiles⟩ | ⟨th, -, -, rs, hsome, -⟩
  · exact hfiles
  · rw [h] at hsome
    cases hsome

end Cluster

/-! ## Each event is a step of the tasks, or a turn of a stream -/

section Refinement

variable [DecidableEq ι] {env : Setup ι} {s : StreamCluster ι} {e : StreamEvent ι}

namespace StreamCluster

/-- What an event does: nothing, a step of the tasks that comes to no results, the results of a reduce task, or a turn. -/
theorem step_cases (env : Setup ι) (s : StreamCluster ι) (e : StreamEvent ι) :
    (s.step env e = s ∧ s.tasks e = []) ∨
    (∃ e', e = .task e' ∧ s.tasks e = [e'] ∧ s.step env e = { s with cluster := s.cluster.step env e' } ∧
      s.cluster.gathers env e' = []) ∨
    (∃ j th, e = .task (.execute j) ∧ s.tasks e = [.execute j] ∧ s.cluster.threads[j]? = some th ∧
      th.phase = .assigned ∧ th.task.type = .kReduce ∧ s.step env e = s.reduce env j th) ∨
    ∃ k t o, e = .output k t ∧ s.tasks e = [] ∧ s.outputs[k]? = some o ∧ s.step env e = s.turn k o t := by
  cases e with
  | task e' =>
    cases e' with
    | submit | poll | deliver => exact .inr (.inl ⟨_, rfl, rfl, rfl, rfl⟩)
    | execute j =>
      cases hj : s.cluster.threads[j]? with
      | none =>
        refine .inr (.inl ⟨_, rfl, rfl, ?_, ?_⟩)
        · simp only [step, Cluster.step, hj]
        · simp only [Cluster.gathers, hj]
      | some th =>
        by_cases hr : th.phase = .assigned ∧ th.task.type = .kReduce
        · refine .inr (.inr (.inl ⟨j, th, rfl, rfl, hj, hr.1, hr.2, ?_⟩))
          simp only [step, hj, hr, and_self, if_true]
        · refine .inr (.inl ⟨_, rfl, rfl, ?_, ?_⟩)
          · simp only [step, hj, hr, if_false]
          · simp only [Cluster.gathers, hj, hr, if_false]
    | prepare j =>
      by_cases hclosed : s.Closed j
      · exact .inr (.inl ⟨_, rfl, by rw [tasks, if_pos hclosed], by rw [step, if_pos hclosed], rfl⟩)
      · exact .inl ⟨by rw [step, if_neg hclosed], by rw [tasks, if_neg hclosed]⟩
  | output k t =>
    cases hk : s.outputs[k]? with
    | none => exact .inl ⟨by rw [step, hk], rfl⟩
    | some o => exact .inr (.inr (.inr ⟨k, t, o, rfl, rfl, hk, by rw [step, hk]⟩))

end StreamCluster

/-- The state goes with a state `c` of the machine that writes an output in one step, in which the reduce tasks have
gathered `gs`: they differ in the files only, and the outputs are those of the tasks. -/
structure Projects (env : Setup ι) (files : HashMap Bytes Bytes) (outputPath : Bytes) (s : StreamCluster ι)
    (c : Cluster ι) (gs : List (Task × List Record)) : Prop where
  cluster : s.cluster.bare = c.bare
  /-- Before the first results the files are as they were. -/
  untouched : gs = [] → s.cluster.files = files
  outputs : s.outputs.map (fun o => (o.task, o.results)) = gs.map fun g => (g.1, reduced env.reducer g.2)
  paths : ∀ o ∈ s.outputs, o.task.outputPath = outputPath

namespace Projects

variable {files : HashMap Bytes Bytes} {outputPath : Bytes} {c : Cluster ι} {gs : List (Task × List Record)}

omit [DecidableEq ι] in
theorem threads_eq (h : Projects env files outputPath s c gs) : s.cluster.threads = c.threads := by
  obtain ⟨f, rfl⟩ := Cluster.exists_files h.cluster
  rfl

omit [DecidableEq ι] in
/-- An output is that of a reduce task that has gathered. -/
theorem exists_gathered (h : Projects env files outputPath s c gs) {o : Output} (ho : o ∈ s.outputs) :
    ∃ g ∈ gs, g.1 = o.task ∧ reduced env.reducer g.2 = o.results := by
  have hmem := List.mem_map_of_mem (f := fun o : Output => (o.task, o.results)) ho
  rw [h.outputs] at hmem
  obtain ⟨g, hg, heq⟩ := List.mem_map.1 hmem
  exact ⟨g, hg, Prod.ext_iff.1 heq⟩

omit [DecidableEq ι] in
/-- A turn of a stream changes the output file only. -/
theorem turn (h : Projects env files outputPath s c gs) {k : Nat} {o : Output} (hk : s.outputs[k]? = some o) (t : Turn) :
    Projects env files outputPath (s.turn k o t) c gs where
  cluster := h.cluster
  untouched hnil := by
    have hmap := h.outputs
    rw [hnil, List.map_nil, List.map_eq_nil_iff] at hmap
    rw [hmap] at hk
    cases hk
  outputs := (StreamCluster.map_turn (fun _ _ => rfl) hk t).trans h.outputs
  paths o' ho' := by
    rcases List.mem_or_eq_of_mem_set ho' with ho' | rfl
    · exact h.paths o' ho'
    · exact h.paths o (List.mem_of_getElem? hk)

variable {inputPath : Bytes} {numMaps numReduces : Int32}

omit [DecidableEq ι] in
/-- A map task that is executed finds the input as it was: no reduce task has come to its results. -/
theorem read_eq (h : Projects env files outputPath s c gs) (hone : OneJob env inputPath outputPath numMaps numReduces c)
    (hm : MapPhase numMaps inputPath (files.lookup inputPath) c) (hc : Collected env numMaps numReduces gs c) {j : Nat}
    {th : Thread ι} (hj : c.threads[j]? = some th) (hp : th.phase = .assigned) (htype : th.task.type = .kMap) :
    s.cluster.files.lookup th.task.inputPath = c.files.lookup th.task.inputPath := by
  have hth := List.mem_of_getElem? hj
  have hnone : gs = [] := by
    by_contra hne
    have hreported := (hone.maps_reported (hc.barrier hne)).2 th hth htype
    rw [hp] at hreported
    cases hreported
  rw [h.untouched hnone, (hm.threads th hth).path htype, (hm.threads th hth).unread htype hp]

/-- Each event of a single job is the steps of the tasks that it is. -/
theorem step (h : Projects env files outputPath s c gs) (hone : OneJob env inputPath outputPath numMaps numReduces c)
    (hm : MapPhase numMaps inputPath (files.lookup inputPath) c) (hc : Collected env numMaps numReduces gs c)
    (e : StreamEvent ι) :
    Projects env files outputPath (s.step env e) (after (Cluster.step env) c (s.tasks e))
      (gs ++ trace (Cluster.step env) (Cluster.gathers env) c (s.tasks e)) := by
  rcases s.step_cases env e with ⟨hstep, hnone⟩ | ⟨e', rfl, htasks, hstep, hgathers⟩ |
    ⟨j, th, rfl, htasks, hj, hp, htype, hstep⟩ | ⟨k, t, o, rfl, htasks, hk, hstep⟩
  · rw [hstep, hnone, trace, List.append_nil]
    exact h
  · obtain ⟨hbare, hsame⟩ := Cluster.bare_step (e := e') h.cluster fun j th _ hj hp htype =>
      h.read_eq hone hm hc (h.threads_eq ▸ hj) hp htype
    rw [hstep, htasks, trace, trace, ← hsame, hgathers, List.append_nil, List.append_nil]
    exact ⟨hbare, fun hnil => (Cluster.files_step hgathers).trans (h.untouched hnil), h.outputs, h.paths⟩
  · have hj' : c.threads[j]? = some th := h.threads_eq ▸ hj
    have hfetch : c.fetch env = s.cluster.fetch env := by
      obtain ⟨f, rfl⟩ := Cluster.exists_files h.cluster
      rfl
    have hexecute : (c.step env (.execute j)).bare = (s.cluster.setPhase j th .executed).bare := by
      obtain ⟨f, rfl⟩ := Cluster.exists_files h.cluster
      simp only [Cluster.step, hj', hp, if_true, Cluster.execute, htype]
      rfl
    rw [hstep, htasks, trace, trace, List.append_nil, Cluster.gathers_execute hj' hp, if_pos htype]
    refine ⟨hexecute.symm, fun hnil => absurd hnil (by simp), ?_, fun o ho => ?_⟩
    · rw [List.map_append, ← h.outputs, hfetch]
      exact List.map_append
    · rcases List.mem_append.1 ho with ho | ho
      · exact h.paths o ho
      · obtain ⟨-, r, -, -, -, hpath, -⟩ := hone.reduce_thread (List.mem_of_getElem? hj') htype
        rw [List.mem_singleton.1 ho]
        exact hpath
  · rw [hstep, htasks, trace, List.append_nil]
    exact h.turn hk t

end Projects

namespace StreamCluster

/-- Whatever the order of its steps, apart from the output a job does what it does when each reduce task writes its output
in one step: the tasks make a run of that machine, and the results are those of its reduce tasks. -/
theorem runJob_projects {es : List (StreamEvent ι)} (hjob : ∀ e ∈ es, e.isSubmit = false)
    (hrpc : ∀ tracker, env.listener (env.host tracker) (env.shufflePort tracker) = some tracker)
    (files : HashMap Bytes Bytes) (inputPath outputPath : Bytes) (numMaps numReduces : Int32) :
    let ts := taskRun env files inputPath outputPath numMaps numReduces es
    SingleJob ts ∧ Projects env files outputPath (runJob env files inputPath outputPath numMaps numReduces es)
      (Cluster.runJob env files inputPath outputPath numMaps numReduces ts)
      (Cluster.gathered env files inputPath outputPath numMaps numReduces ts) := by
  refine @after_invariant _ _ (step env) _ (fun pre s =>
    SingleJob (taskRun env files inputPath outputPath numMaps numReduces pre) ∧ Projects env files outputPath s
      (Cluster.runJob env files inputPath outputPath numMaps numReduces
        (taskRun env files inputPath outputPath numMaps numReduces pre))
      (Cluster.gathered env files inputPath outputPath numMaps numReduces
        (taskRun env files inputPath outputPath numMaps numReduces pre))) es ?_ ?_ es (List.prefix_refl es)
  · exact ⟨fun e he => absurd he List.not_mem_nil, rfl, fun _ => rfl, rfl, fun o ho => absurd ho List.not_mem_nil⟩
  · rintro pre e hpre ⟨hsingle, h⟩
    obtain ⟨hone, -, hc⟩ := Cluster.runJob_collected hsingle hrpc files inputPath outputPath numMaps numReduces
    have hm := @Cluster.runJob_mapPhase _ _ env _ hsingle files inputPath outputPath numMaps numReduces
    have hnext := h.step hone hm hc e
    rw [taskRun, trace_snoc]
    refine ⟨fun e' he' => ?_, ?_⟩
    · rcases List.mem_append.1 he' with he' | he'
      · exact hsingle e' he'
      · have he := hjob e (hpre.subset (by simp))
        rw [isSubmit_of_mem_tasks he']
        exact he
    · rw [Cluster.runJob, after_append, Cluster.gathered, trace_append]
      exact hnext

end StreamCluster

end Refinement

/-! ## One output after the other -/

namespace StreamCluster

variable [DecidableEq ι] {env : Setup ι}

omit [DecidableEq ι] in
theorem set_last {outputs : List Output} (o o' : Output) :
    (outputs ++ [o])[outputs.length]? = some o ∧ (outputs ++ [o]).set outputs.length o' = outputs ++ [o'] := by
  constructor
  · exact List.getElem?_concat_length
  · rw [List.set_append_right _ _ (Nat.le_refl _), Nat.sub_self, List.set_cons_zero]

/-- The last output is opened, written and closed: the file has its text. -/
theorem write_last (c : Cluster ι) (outputs : List Output) {o : Output} (hwaiting : o.phase = .waiting) :
    ∃ es, after (step env) ⟨c, outputs ++ [o]⟩ es =
      ⟨{ c with files := c.files.insert o.task.outputPath (outputText o.results) },
        outputs ++ [{ o with phase := .closed }]⟩ := by
  have hstep : ∀ (c : Cluster ι) (o' : Output) (t : Turn),
      step env ⟨c, outputs ++ [o']⟩ (.output outputs.length t) = turn ⟨c, outputs ++ [o']⟩ outputs.length o' t := by
    intro c o' t
    rw [step, (set_last o' o').1]
  have hwrite : pwrite [] 0 (outputText o.results) = outputText o.results := pwrite_length [] _
  refine ⟨[.output outputs.length .openFile, .output outputs.length (.write (outputText o.results).length),
    .output outputs.length .close], ?_⟩
  rw [after_cons, after_cons, after_cons, after_nil, hstep, turn, (set_last _ _).2, hwaiting, hstep, turn,
    (set_last _ _).2, hstep, turn, (set_last _ _).2]
  simp only [SharedFile.turn, AList.lookup_insert, Option.map_some, hwrite, AList.insert_insert, List.drop_zero,
    List.take_length, Nat.zero_add, Nat.lt_irrefl, if_false]

/-- A step of the machine that writes an output in one step is one step or four of this one, when no stream is open. -/
theorem exists_step {s : StreamCluster ι} (hclosed : ∀ o ∈ s.outputs, o.phase = .closed) (e : Event ι) :
    ∃ es, (after (step env) s es).cluster = s.cluster.step env e ∧
      ∀ o ∈ (after (step env) s es).outputs, o.phase = .closed := by
  have hone : s.step env (.task e) = { s with cluster := s.cluster.step env e } → ∃ es,
      (after (step env) s es).cluster = s.cluster.step env e ∧
        ∀ o ∈ (after (step env) s es).outputs, o.phase = .closed := by
    intro hstep
    refine ⟨[.task e], ?_⟩
    rw [after_cons, after_nil, hstep]
    exact ⟨rfl, hclosed⟩
  rcases s.step_cases env (.task e) with ⟨hstep, htasks⟩ | ⟨e', he, -, hstep, -⟩ |
    ⟨j, th, he, -, hj, hp, htype, hstep⟩ | ⟨k, t, o, he, -⟩
  · -- a report is not held back
    cases e with
    | prepare j => exact hone (if_pos fun o ho _ => hclosed o ho)
    | submit | poll | execute | deliver => cases htasks
  · cases he
    exact hone hstep
  · cases he
    obtain ⟨turns, hlast⟩ := @write_last _ _ env (s.cluster.setPhase j th .executed) s.outputs
      { thread := j, task := th.task,
        results := reduced env.reducer (gather (s.cluster.fetch env) th.task.partition th.task.mapOutputs) } rfl
    refine ⟨.task (.execute j) :: turns, ?_⟩
    rw [after_cons, hstep, reduce, hlast]
    refine ⟨?_, fun o ho => ?_⟩
    · simp only [Cluster.step, hj, hp, if_true, Cluster.execute, htype]
      rfl
    · rcases List.mem_append.1 ho with ho | ho
      · exact hclosed o ho
      · rw [List.mem_singleton.1 ho]
  · cases he

/-- So every run of that machine is a run of this one, in which each reduce task writes its output while no other does. -/
theorem exists_serial (es : List (Event ι)) (c : Cluster ι) :
    ∃ es', (after (step env) { cluster := c } es').cluster = after (Cluster.step env) c es := by
  suffices h : ∀ (es : List (Event ι)) (s : StreamCluster ι), (∀ o ∈ s.outputs, o.phase = .closed) →
      ∃ es', (after (step env) s es').cluster = after (Cluster.step env) s.cluster es from
    h es { cluster := c } fun o ho => absurd ho List.not_mem_nil
  intro es
  induction es with
  | nil => exact fun s _ => ⟨[], rfl⟩
  | cons e es ih =>
    intro s hclosed
    obtain ⟨first, hfirst, hclosed'⟩ := @exists_step _ _ env _ hclosed e
    obtain ⟨rest, hrest⟩ := ih _ hclosed'
    refine ⟨first ++ rest, ?_⟩
    rw [after_append, hrest, hfirst, after_cons]

end StreamCluster

/-! ## What the reduce tasks of a job have to write -/

namespace StreamCluster

/-- The outputs of a job: no two of one task, all to the same file, and only the first reduce task has any results. -/
structure OutputsOk (outputPath : Bytes) (outputs : List Output) : Prop where
  nodup : (outputs.map (·.task.taskId)).Nodup
  paths : ∀ o ∈ outputs, o.task.outputPath = outputPath
  results : ∀ o ∈ outputs, o.task.taskId ≠ reduceTaskId 0 → o.results = []

namespace OutputsOk

variable {outputPath : Bytes} {outputs : List Output} {o o' : Output}

theorem eq_of_taskId (h : OutputsOk outputPath outputs) (ho : o ∈ outputs) (ho' : o' ∈ outputs)
    (hid : o.task.taskId = o'.task.taskId) : o = o' := List.inj_on_of_nodup_map h.nodup ho ho' hid

/-- There is one place for each task. -/
theorem eq_of_index (h : OutputsOk outputPath outputs) {i k : Nat} (hi : outputs[i]? = some o')
    (hk : outputs[k]? = some o) (hid : o'.task.taskId = o.task.taskId) : i = k := by
  obtain ⟨hlt, -⟩ := List.getElem?_eq_some_iff.1 hi
  refine (List.getElem?_inj (by rw [List.length_map]; exact hlt) h.nodup).1 ?_
  rw [List.getElem?_map, List.getElem?_map, hi, hk, Option.map_some, Option.map_some, hid]

/-- A turn keeps it. -/
theorem turn {s : StreamCluster ι} (h : OutputsOk outputPath s.outputs) {k : Nat} (hk : s.outputs[k]? = some o)
    (t : Turn) : OutputsOk outputPath (s.turn k o t).outputs := by
  have hmem := List.mem_of_getElem? hk
  refine ⟨?_, fun o' ho' => ?_, fun o' ho' hid => ?_⟩
  · rw [StreamCluster.map_turn (fun _ _ => rfl) hk]
    exact h.nodup
  · rcases List.mem_or_eq_of_mem_set ho' with ho' | rfl
    · exact h.paths o' ho'
    · exact h.paths o hmem
  · rcases List.mem_or_eq_of_mem_set ho' with ho' | rfl
    · exact h.results o' ho' hid
    · exact h.results o hmem hid

/-- The results of all are those of the first reduce task. -/
theorem collected (h : OutputsOk outputPath outputs) (ho : o ∈ outputs) (hid : o.task.taskId = reduceTaskId 0) :
    outputs.flatMap (·.results) = o.results := by
  obtain ⟨pre, post, rfl⟩ := List.append_of_mem ho
  have hnodup := h.nodup
  rw [List.map_append, List.map_cons, List.nodup_append, List.nodup_cons] at hnodup
  obtain ⟨-, ⟨hpost, -⟩, hpre⟩ := hnodup
  have hnone : ∀ l : List Output, l ⊆ pre ++ o :: post → (∀ o' ∈ l, o'.task.taskId ≠ o.task.taskId) →
      l.flatMap (·.results) = [] := by
    intro l hsub hne
    refine List.flatMap_eq_nil_iff.2 fun o' ho' => h.results o' (hsub ho') ?_
    rw [← hid]
    exact hne o' ho'
  have hpre' := hnone pre (List.subset_append_left _ _) fun o' ho' =>
    hpre _ (List.mem_map_of_mem ho') _ (List.mem_cons_self ..)
  have hpost' := hnone post (fun o' ho' => by simp [ho']) fun o' ho' heq => hpost (heq ▸ List.mem_map_of_mem ho')
  rw [List.flatMap_append, List.flatMap_cons, hpre', hpost', List.nil_append, List.append_nil]

/-- What another task than the first has written. -/
theorem flushed_eq_nil (h : OutputsOk outputPath outputs) (ho : o ∈ outputs) (hid : o.task.taskId ≠ reduceTaskId 0) :
    o.flushed = [] := by
  rw [Output.flushed, h.results o ho hid, outputText]
  cases o.phase with
  | waiting | closed => rfl
  | opened written => exact List.take_nil

end OutputsOk

/-! ## The output file -/

/-- When the event opens an output, the other reduce tasks have written nothing but zeros. -/
def Spares (s : StreamCluster ι) : StreamEvent ι → Prop
  | .output k .openFile => ∀ o, s.outputs[k]? = some o → o.phase = .waiting →
      ∀ i o', i ≠ k → s.outputs[i]? = some o' → ∀ b ∈ o'.flushed, b = 0
  | _ => True

/-- So does every event that opens none. -/
theorem spares_of_not_opens {s : StreamCluster ι} {e : StreamEvent ι}
    (h : ∀ k o, e = .output k .openFile → s.outputs[k]? = some o → o.phase ≠ .waiting) : s.Spares e := by
  cases e with
  | task e => exact True.intro
  | output k t =>
    cases t with
    | openFile => exact fun o hk hwaiting => absurd hwaiting (h k o rfl hk)
    | write | close => exact True.intro

/-- The outputs of one task have no other to empty. -/
theorem spares_of_one {s : StreamCluster ι} {outputPath : Bytes} (hok : OutputsOk outputPath s.outputs)
    (hall : ∀ o ∈ s.outputs, o.task.taskId = reduceTaskId 0) (e : StreamEvent ι) : s.Spares e := by
  cases e with
  | task e => exact True.intro
  | output k t =>
    cases t with
    | openFile =>
      intro o hk _ i o' hne hi
      refine absurd (hok.eq_of_index hi hk ?_) hne
      rw [hall o (List.mem_of_getElem? hk), hall o' (List.mem_of_getElem? hi)]
    | write | close => exact True.intro

/-- What the output file has of the results of the first reduce task; `clean` says that no task has emptied it behind
them. -/
structure FileOk (outputPath : Bytes) (clean : Prop) (s : StreamCluster ι) : Prop where
  before : (∀ o ∈ s.outputs, o.task.taskId ≠ reduceTaskId 0) → clean
  left : ∀ o ∈ s.outputs, o.task.taskId = reduceTaskId 0 →
    Left (outputText o.results) clean (s.cluster.files.lookup outputPath) o.phase

namespace FileOk

variable {s : StreamCluster ι} {outputPath : Bytes} {clean : Prop}

theorem congr (h : FileOk outputPath clean s) {clean' : Prop} (hclean : clean' ↔ clean) :
    FileOk outputPath clean' s := propext hclean ▸ h

/-- What a turn leaves in the output file. -/
theorem lookup_turn {k : Nat} {o : Output} (hpath : o.task.outputPath = outputPath) (t : Turn) :
    (s.turn k o t).cluster.files.lookup outputPath =
      (SharedFile.turn (outputText o.results) t (s.cluster.files.lookup outputPath, o.phase)).1 := by
  unfold StreamCluster.turn
  dsimp only
  rw [hpath]
  split
  · rename_i content hcontent
    rw [AList.lookup_insert, hcontent]
  · rename_i hnone
    rw [hnone]
    exact turn_eq_none hnone

/-- A turn of the first reduce task. It finds nothing of the others. -/
theorem turn_first (h : FileOk outputPath clean s) (hok : OutputsOk outputPath s.outputs) {k : Nat} {o : Output}
    (hk : s.outputs[k]? = some o) (hid : o.task.taskId = reduceTaskId 0) (t : Turn) :
    FileOk outputPath (clean ∧ s.Spares (.output k t)) (s.turn k o t) := by
  have ho := List.mem_of_getElem? hk
  have hspares : s.Spares (.output k t) := by
    cases t with
    | openFile =>
      intro _ _ _ i o' hne hi
      have hid' : o'.task.taskId ≠ reduceTaskId 0 := fun heq => hne (hok.eq_of_index hi hk (heq.trans hid.symm))
      rw [hok.flushed_eq_nil (List.mem_of_getElem? hi) hid']
      exact fun b hb => absurd hb List.not_mem_nil
    | write | close => exact True.intro
  have hnew : { o with phase := (SharedFile.turn (outputText o.results) t
      (s.cluster.files.lookup o.task.outputPath, o.phase)).2 } ∈ (s.turn k o t).outputs :=
    List.mem_set (List.getElem?_eq_some_iff.1 hk).1 _
  refine FileOk.congr ⟨fun hall => (hall _ hnew hid).elim, fun o' ho' hid' => ?_⟩ (and_iff_left hspares)
  obtain rfl := (hok.turn hk t).eq_of_taskId ho' hnew (hid'.trans hid.symm)
  rw [lookup_turn (hok.paths o ho) t, hok.paths o ho]
  exact (h.left o ho hid).turn t

/-- The first reduce task is not among the outputs that a turn of another one changes. -/
theorem mem_turn_other {k : Nat} {o o' : Output} (hk : s.outputs[k]? = some o) (hid : o.task.taskId ≠ reduceTaskId 0)
    (t : Turn) (hid' : o'.task.taskId = reduceTaskId 0) : o' ∈ (s.turn k o t).outputs ↔ o' ∈ s.outputs :=
  Counting.mem_set_iff_of_not hk (p := fun o' : Output => o'.task.taskId = reduceTaskId 0) hid hid hid'

/-- Another reduce task opens the file: what the first one has written is gone. -/
theorem open_other (h : FileOk outputPath clean s) (hok : OutputsOk outputPath s.outputs) {k : Nat} {o : Output}
    (hk : s.outputs[k]? = some o) (hid : o.task.taskId ≠ reduceTaskId 0) (hwaiting : o.phase = .waiting) :
    FileOk outputPath (clean ∧ s.Spares (.output k .openFile)) (s.turn k o .openFile) := by
  have hlookup := lookup_turn (s := s) (k := k) (hok.paths o (List.mem_of_getElem? hk)) .openFile
  rw [hwaiting] at hlookup
  have hspares : s.Spares (.output k .openFile) ↔
      ∀ o' ∈ s.outputs, o'.task.taskId = reduceTaskId 0 → ∀ b ∈ o'.flushed, b = 0 := by
    constructor
    · intro hall o' ho' hid'
      obtain ⟨i, hi⟩ := List.mem_iff_getElem?.1 ho'
      refine hall o hk hwaiting i o' (fun heq => hid ?_) hi
      rw [heq, hk] at hi
      rwa [Option.some.inj hi]
    · intro hall _ _ _ i o' _ hi
      by_cases hid' : o'.task.taskId = reduceTaskId 0
      · exact hall o' (List.mem_of_getElem? hi) hid'
      · rw [hok.flushed_eq_nil (List.mem_of_getElem? hi) hid']
        exact fun b hb => absurd hb List.not_mem_nil
  have hclean := @and_congr_right clean _ _ fun _ => hspares
  refine FileOk.congr ⟨fun hall => ?_, fun o' ho' hid' => ?_⟩ hclean
  · have hnone : ∀ o' ∈ s.outputs, o'.task.taskId ≠ reduceTaskId 0 :=
      fun o' ho' hid' => hall o' ((mem_turn_other hk hid .openFile hid').2 ho') hid'
    exact ⟨h.before hnone, fun o' ho' hid' => absurd hid' (hnone o' ho')⟩
  · have ho' := (mem_turn_other hk hid .openFile hid').1 ho'
    have hone : (∀ o'' ∈ s.outputs, o''.task.taskId = reduceTaskId 0 → ∀ b ∈ o''.flushed, b = 0) ↔
        ∀ b ∈ o'.flushed, b = 0 := by
      refine ⟨fun hall => hall o' ho' hid', fun hall o'' ho'' hid'' => ?_⟩
      rwa [hok.eq_of_taskId ho'' ho' (hid''.trans hid'.symm)]
    rw [hlookup, hone]
    exact (h.left o' ho' hid').emptied

/-- A turn of another reduce task. Unless it opens the file, it has nothing to write. -/
theorem turn_other (h : FileOk outputPath clean s) (hok : OutputsOk outputPath s.outputs) {k : Nat} {o : Output}
    (hk : s.outputs[k]? = some o) (hid : o.task.taskId ≠ reduceTaskId 0) (t : Turn) :
    FileOk outputPath (clean ∧ s.Spares (.output k t)) (s.turn k o t) := by
  by_cases hopens : t = .openFile ∧ o.phase = .waiting
  · obtain ⟨rfl, hwaiting⟩ := hopens
    exact h.open_other hok hk hid hwaiting
  · have hspares : s.Spares (.output k t) := by
      refine spares_of_not_opens fun k' o' he hk' hwaiting => hopens ?_
      cases he
      rw [hk] at hk'
      cases hk'
      exact ⟨rfl, hwaiting⟩
    have hlookup := lookup_turn (s := s) (k := k) (hok.paths o (List.mem_of_getElem? hk)) t
    rw [hok.results o (List.mem_of_getElem? hk) hid, outputText, turn_nil fun ht hw => hopens ⟨ht, hw⟩] at hlookup
    refine FileOk.congr ⟨fun hall => ?_, fun o' ho' hid' => ?_⟩ (and_iff_left hspares)
    · exact h.before fun o' ho' hid' => hall o' ((mem_turn_other hk hid t hid').2 ho') hid'
    · rw [hlookup]
      exact h.left o' ((mem_turn_other hk hid t hid').1 ho') hid'

end FileOk

variable [DecidableEq ι] {env : Setup ι}

theorem runJob_outputsOk {es : List (StreamEvent ι)} (hjob : ∀ e ∈ es, e.isSubmit = false)
    (hrpc : ∀ tracker, env.listener (env.host tracker) (env.shufflePort tracker) = some tracker)
    (files : HashMap Bytes Bytes) (inputPath outputPath : Bytes) (numMaps numReduces : Int32) :
    OutputsOk outputPath (runJob env files inputPath outputPath numMaps numReduces es).outputs := by
  obtain ⟨hsingle, h⟩ := runJob_projects hjob hrpc files inputPath outputPath numMaps numReduces
  obtain ⟨hone, -, hc⟩ := Cluster.runJob_collected hsingle hrpc files inputPath outputPath numMaps numReduces
  refine ⟨?_, h.paths, fun o ho hid => ?_⟩
  · have hids := congrArg (List.map fun x : Task × List Record => x.1.taskId) h.outputs
    rw [List.map_map, List.map_map] at hids
    exact hids ▸ hc.nodup hone
  · obtain ⟨g, hg, htask, hresults⟩ := h.exists_gathered ho
    have hrecords := hc.records g hg
    rw [if_neg (by rw [hc.partition_eq_zero hg, htask]; exact hid)] at hrecords
    rw [hrecords.eq_nil] at hresults
    exact hresults.symm.trans (reduced_nil env.reducer)

/-- Every event leaves the output file as the openings up to it say. -/
theorem FileOk.step {s : StreamCluster ι} {outputPath : Bytes} {clean : Prop} (h : FileOk outputPath clean s)
    (hok : OutputsOk outputPath s.outputs) (e : StreamEvent ι)
    (hok' : OutputsOk outputPath (s.step env e).outputs) :
    FileOk outputPath (clean ∧ s.Spares e) (s.step env e) := by
  cases e with
  | output k t =>
    cases hk : s.outputs[k]? with
    | none =>
      have hstep : s.step env (.output k t) = s := by rw [StreamCluster.step, hk]
      rw [hstep]
      refine h.congr (and_iff_left (spares_of_not_opens fun k' o' he hk' => ?_))
      cases he
      rw [hk] at hk'
      cases hk'
    | some o =>
      have hstep : s.step env (.output k t) = s.turn k o t := by rw [StreamCluster.step, hk]
      rw [hstep]
      by_cases hid : o.task.taskId = reduceTaskId 0
      · exact h.turn_first hok hk hid t
      · exact h.turn_other hok hk hid t
  | task e =>
    refine FileOk.congr ?_ (and_iff_left True.intro)
    rcases s.step_cases env (.task e) with ⟨hstep, -⟩ | ⟨e', -, -, hstep, hgathers⟩ | ⟨j, th, -, -, -, -, -, hstep⟩ |
      ⟨k, t, o, he, -⟩
    · rw [hstep]
      exact h
    · rw [hstep]
      refine ⟨h.before, fun o ho hid => ?_⟩
      show Left _ _ ((s.cluster.step env e').files.lookup outputPath) _
      rw [Cluster.files_step hgathers]
      exact h.left o ho hid
    · rw [hstep] at hok' ⊢
      refine ⟨fun hall => h.before fun o ho => hall o (List.mem_append_left _ ho), fun o ho hid => ?_⟩
      rcases List.mem_append.1 ho with hold | hnew
      · exact h.left o hold hid
      · -- its stream is not open, and there was no output of this task before
        have hbefore : ∀ o' ∈ s.outputs, o'.task.taskId ≠ reduceTaskId 0 := by
          intro o' ho' hid'
          have hnodup := hok'.nodup
          rw [reduce, List.map_append, List.nodup_append] at hnodup
          exact hnodup.2.2 _ (List.mem_map_of_mem ho') _ (List.mem_map_of_mem hnew) (hid'.trans hid.symm)
        rw [List.mem_singleton.1 hnew]
        exact h.before hbefore
    · cases he

/-- In a run the output file is as the openings so far have left it. -/
theorem runJob_fileOk {es : List (StreamEvent ι)} (hjob : ∀ e ∈ es, e.isSubmit = false)
    (hrpc : ∀ tracker, env.listener (env.host tracker) (env.shufflePort tracker) = some tracker)
    (files : HashMap Bytes Bytes) (inputPath outputPath : Bytes) (numMaps numReduces : Int32) :
    FileOk outputPath (∀ pre e, pre ++ [e] <+: es →
        (runJob env files inputPath outputPath numMaps numReduces pre).Spares e)
      (runJob env files inputPath outputPath numMaps numReduces es) := by
  have hoks : ∀ pre, pre <+: es → OutputsOk outputPath
      (runJob env files inputPath outputPath numMaps numReduces pre).outputs := fun pre hpre =>
    runJob_outputsOk (fun e he => hjob e (hpre.subset he)) hrpc files inputPath outputPath numMaps numReduces
  refine @after_invariant _ _ (step env) _ (fun pre s => FileOk outputPath (∀ pre' e, pre' ++ [e] <+: pre →
    (runJob env files inputPath outputPath numMaps numReduces pre').Spares e) s) es ?_ ?_ es (List.prefix_refl es)
  · exact ⟨fun _ pre e hpre => absurd hpre (by simp), fun o ho => absurd ho List.not_mem_nil⟩
  · intro pre e hpre h
    have hnext := hoks (pre ++ [e]) hpre
    rw [runJob, after_snoc] at hnext
    exact (h.step (hoks pre ((List.prefix_append _ _).trans hpre)) e hnext).congr forall_snoc_iff

/-! ## Whether it is complete -/

/-- The output file holds every pair that a reducer has collected, as often as they were collected. -/
def OutputComplete (outputPath : Bytes) (s : StreamCluster ι) : Prop :=
  ∃ rs, s.cluster.files.lookup outputPath = some (outputText rs) ∧ (s.outputs.flatMap (·.results)).Subperm rs

/-- All reduce tasks of a job of `n` have closed their output. -/
def OutputsClosed (s : StreamCluster ι) (n : Nat) : Prop :=
  ∀ r < n, ∃ o ∈ s.outputs, o.task.taskId = reduceTaskId r ∧ o.phase = .closed

instance (s : StreamCluster ι) (n : Nat) : Decidable (s.OutputsClosed n) :=
  inferInstanceAs (Decidable (∀ r < n, ∃ o ∈ s.outputs, o.task.taskId = reduceTaskId r ∧ o.phase = .closed))

end StreamCluster

/-- A file of as many bytes at most that holds all results has the same bytes. -/
theorem outputText_perm {results rs : List Record} (h : results.Subperm rs)
    (hlen : (outputText rs).length ≤ (outputText results).length) : (outputText rs).Perm (outputText results) := by
  obtain ⟨results', hperm, hsub⟩ := h
  obtain ⟨more, hmore⟩ := hsub.exists_perm_append
  have hall : (outputText rs).Perm (outputText results ++ outputText more) := by
    simp only [outputText_eq]
    rw [← List.flatMap_append]
    exact (hmore.trans (hperm.append_right more)).flatMap_right _
  have hnone : outputText more = [] := by
    have := hall.length_eq
    rw [List.length_append] at this
    exact List.length_eq_zero_iff.1 (by omega)
  rwa [hnone, List.append_nil] at hall

/-- Every line ends, and not with a zero. -/
theorem outputText_not_zeros (rs : List Record) : outputText rs = [] ∨ ∃ b ∈ outputText rs, b ≠ 0 := by
  cases rs with
  | nil => exact .inl rfl
  | cons r rs =>
    have hend : (10 : UInt8) ∈ bytes "\n" := by decide
    exact .inr ⟨10, by simp [outputText, hend], by decide⟩

namespace StreamCluster

variable [DecidableEq ι] {env : Setup ι}

/-- When all reduce tasks of a job have closed the output, in whatever order and however they have overlapped, it holds
every pair that a reducer has collected if and only if none of them has opened it behind a byte of another that is not
zero. -/
theorem output_complete_iff {es : List (StreamEvent ι)} (hjob : ∀ e ∈ es, e.isSubmit = false)
    (hrpc : ∀ tracker, env.listener (env.host tracker) (env.shufflePort tracker) = some tracker)
    (files : HashMap Bytes Bytes) (inputPath outputPath : Bytes) {numMaps numReduces : Int32}
    (hreduces : 1 ≤ numReduces.toInt)
    (hdone : (runJob env files inputPath outputPath numMaps numReduces es).OutputsClosed numReduces.toNatClampNeg) :
    OutputComplete outputPath (runJob env files inputPath outputPath numMaps numReduces es) ↔
      ∀ pre e, pre ++ [e] <+: es → (runJob env files inputPath outputPath numMaps numReduces pre).Spares e := by
  have hok := runJob_outputsOk hjob hrpc files inputPath outputPath numMaps numReduces
  have hfile := runJob_fileOk hjob hrpc files inputPath outputPath numMaps numReduces
  have hpos : 0 < numReduces.toNatClampNeg := by
    unfold Int32.toNatClampNeg
    omega
  obtain ⟨o, ho, hid, hclosed⟩ := hdone 0 hpos
  have hleft := hfile.left o ho hid
  rw [hclosed] at hleft
  obtain ⟨k, hk, hcontent, hclean⟩ := hleft
  rw [OutputComplete, hok.collected ho hid, hcontent, hclean]
  constructor
  · rintro ⟨rs, htorn, hall⟩
    have htorn := Option.some.inj htorn
    refine zeros_of_perm ?_
    rw [htorn]
    refine outputText_perm hall ?_
    rw [← htorn]
    exact length_torn_le hk
  · intro hzeros
    rw [torn_of_zeros hk hzeros (outputText_not_zeros _)]
    exact ⟨o.results, rfl, List.Subperm.refl _⟩

/-- The one reduce task of a job leaves what it leaves when it writes its output in one step. -/
theorem runJob_one_reduce {es : List (StreamEvent ι)} (hjob : ∀ e ∈ es, e.isSubmit = false)
    (hrpc : ∀ tracker, env.listener (env.host tracker) (env.shufflePort tracker) = some tracker)
    (files : HashMap Bytes Bytes) (inputPath outputPath : Bytes) (numMaps : Int32)
    (hdone : (runJob env files inputPath outputPath numMaps 1 es).OutputsClosed 1) :
    (runJob env files inputPath outputPath numMaps 1 es).cluster.files.lookup outputPath =
      (Cluster.runJob env files inputPath outputPath numMaps 1
        (taskRun env files inputPath outputPath numMaps 1 es)).files.lookup outputPath := by
  have hids : ∀ {es : List (StreamEvent ι)}, (∀ e ∈ es, e.isSubmit = false) →
      ∀ g ∈ Cluster.gathered env files inputPath outputPath numMaps 1
        (taskRun env files inputPath outputPath numMaps 1 es), g.1.taskId = reduceTaskId 0 := by
    intro es hjob g hg
    obtain ⟨hsingle, -⟩ := runJob_projects hjob hrpc files inputPath outputPath numMaps 1
    obtain ⟨-, -, hc⟩ := Cluster.runJob_collected hsingle hrpc files inputPath outputPath numMaps 1
    obtain ⟨r, hr, hid, -⟩ := hc.ids g hg
    rw [hid, Nat.lt_one_iff.1 hr]
  have hclean : ∀ pre e, pre ++ [e] <+: es → (runJob env files inputPath outputPath numMaps 1 pre).Spares e := by
    intro pre e hpre
    have hpre' : ∀ e ∈ pre, e.isSubmit = false := fun e' he' => hjob e' (hpre.subset (by simp [he']))
    have hok := runJob_outputsOk hpre' hrpc files inputPath outputPath numMaps 1
    obtain ⟨-, h⟩ := runJob_projects hpre' hrpc files inputPath outputPath numMaps 1
    refine spares_of_one hok (fun o ho => ?_) e
    obtain ⟨g, hg, htask, -⟩ := h.exists_gathered ho
    rw [← htask, hids hpre' g hg]
  obtain ⟨hsingle, h⟩ := runJob_projects hjob hrpc files inputPath outputPath numMaps 1
  obtain ⟨hone, -, hc⟩ := Cluster.runJob_collected hsingle hrpc files inputPath outputPath numMaps 1
  obtain ⟨-, hwritten⟩ := Cluster.runJob_written hsingle hrpc files inputPath outputPath numMaps 1
  -- the stream has lost nothing
  obtain ⟨o, ho, hid, hclosed⟩ := hdone 0 Nat.zero_lt_one
  have hleft := (runJob_fileOk hjob hrpc files inputPath outputPath numMaps 1).left o ho hid
  rw [hclosed] at hleft
  obtain ⟨k, hk, hcontent, hzeros⟩ := hleft
  rw [hcontent, torn_of_zeros hk (hzeros.1 hclean) (outputText_not_zeros _)]
  -- and its task is the last one to gather
  obtain ⟨g, hg, -, hresults⟩ := h.exists_gathered ho
  obtain ⟨last, hlast⟩ := Option.ne_none_iff_exists'.1 (List.getLast?_eq_none_iff.not.2 (List.ne_nil_of_mem hg))
  have hsame : last = g := List.inj_on_of_nodup_map (hc.nodup hone) (List.mem_of_getLast? hlast) hg
    ((hids hjob last (List.mem_of_getLast? hlast)).trans (hids hjob g hg).symm)
  rw [hwritten last hlast, hsame, hresults]

/-- One map task and two reduce tasks; both open the output before the first of them writes its line, and the second
closes it last. -/
def bothOpen : List (StreamEvent Bool) :=
  [.poll true, .execute 0, .prepare 0, .deliver 0, .poll true, .poll false, .execute 1, .execute 2].map .task ++
    [.output 0 .openFile, .output 1 .openFile, .output 0 (.write 4), .output 0 .close, .output 1 .close]

theorem output_complete_bothOpen :
    OutputComplete (bytes "out") (runJob Cluster.countLines Cluster.oneLine (bytes "in") (bytes "out") 1 2 bothOpen) ↔
      ∀ pre e, pre ++ [e] <+: bothOpen →
        (runJob Cluster.countLines Cluster.oneLine (bytes "in") (bytes "out") 1 2 pre).Spares e :=
  output_complete_iff (by decide) (by decide) Cluster.oneLine (bytes "in") (bytes "out") (by decide) (by decide +kernel)

/-- One after the other, to the end of the job. -/
def secondLast : List (StreamEvent Bool) :=
  [.poll true, .execute 0, .prepare 0, .deliver 0, .poll true, .poll false, .execute 1].map .task ++
    [.output 0 .openFile, .output 0 (.write 4), .output 0 .close, .task (.execute 2), .output 1 .openFile,
      .output 1 .close] ++ [.prepare 1, .deliver 1, .prepare 2, .deliver 2, .poll true].map .task

/-- When the second reduce task opens the output, the line that the first has counted is lost. -/
theorem reduce_output_lost : ¬ ∀ (env : Setup Bool) (es : List (StreamEvent Bool)), (∀ e ∈ es, e.isSubmit = false) →
    (∀ tracker, env.listener (env.host tracker) (env.shufflePort tracker) = some tracker) →
    ∀ (files : HashMap Bytes Bytes) (inputPath outputPath : Bytes) (numMaps numReduces : Int32), 1 ≤ numMaps.toInt →
      1 ≤ numReduces.toInt →
      (runJob env files inputPath outputPath numMaps numReduces es).OutputsClosed numReduces.toNatClampNeg →
      (runJob env files inputPath outputPath numMaps numReduces es).cluster.jobTracker.isJobDone = true →
        OutputComplete outputPath (runJob env files inputPath outputPath numMaps numReduces es) := by
  intro h
  obtain ⟨rs, hfile, hall⟩ := h Cluster.countLines secondLast (by decide) (by decide) Cluster.oneLine (bytes "in")
    (bytes "out") 1 2 (by decide) (by decide) (by decide +kernel) (by decide +kernel)
  have hempty : (runJob Cluster.countLines Cluster.oneLine (bytes "in") (bytes "out") 1 2 secondLast).cluster.files.lookup
      (bytes "out") = some [] := by decide +kernel
  have hpair : (bytes "a", (1 : Int64)) ∈ (runJob Cluster.countLines Cluster.oneLine (bytes "in") (bytes "out") 1 2
      secondLast).outputs.flatMap (·.results) := by decide +kernel
  rw [hempty] at hfile
  rw [outputText_eq_nil.1 (Option.some.inj hfile).symm] at hall
  exact absurd (hall.subset hpair) List.not_mem_nil

end StreamCluster

end MiniHadoop.Mapred

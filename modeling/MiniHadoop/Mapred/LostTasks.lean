/-
A job some of whose tasks are lost: the answer to a poll does not reach it, because the report of another task has taken
it off the connection that they share, or a TaskTracker ends before its threads do. The JobTracker does not hear of it and
hands no task out again, so such a job comes to rest without its end, which is exactly when a task is lost before its
report was handled.
-/
import MiniHadoop.Mapred.Termination

namespace MiniHadoop.Mapred

open Text Runs

variable {ι : Type}

/-! ## Steps -/

/-- The thread that takes the step. -/
def Event.thread : Event ι → Option Nat
  | .execute j => some j
  | .prepare j => some j
  | .deliver j => some j
  | .submit .. => none
  | .poll _ => none

/-- The state of all processes, and the threads that take no step any more. -/
structure LossyCluster (ι : Type) where
  cluster : Cluster ι
  lost : List Nat := []

inductive LossyEvent (ι : Type) where
  | task (e : Event ι)
  | lose (thread : Nat)
  deriving DecidableEq

def LossyEvent.isSubmit : LossyEvent ι → Bool
  | .task e => e.isSubmit
  | .lose _ => false

namespace LossyCluster

/-- The event is a step of a thread that is lost. -/
def Blocks (s : LossyCluster ι) (e : Event ι) : Prop := ∃ j ∈ s.lost, e.thread = some j

instance (s : LossyCluster ι) (e : Event ι) : Decidable (s.Blocks e) :=
  inferInstanceAs (Decidable (∃ j ∈ s.lost, e.thread = some j))

variable [DecidableEq ι]

/-- A step; one that is not possible changes nothing. A thread that is lost as soon as it is there is an assignment that
its tracker never gets. -/
def step (env : Setup ι) (s : LossyCluster ι) : LossyEvent ι → LossyCluster ι
  | .task e => if s.Blocks e then s else { s with cluster := s.cluster.step env e }
  | .lose j => if j < s.cluster.threads.length then { s with lost := s.lost ++ [j] } else s

/-- A job submitted to fresh trackers, and what happened then. -/
def runJob (env : Setup ι) (files : HashMap Bytes Bytes) (inputPath outputPath : Bytes) (numMaps numReduces : Int32)
    (es : List (LossyEvent ι)) : LossyCluster ι :=
  after (step env) { cluster := Cluster.step env { files } (.submit inputPath outputPath numMaps numReduces) } es

omit [DecidableEq ι] in
/-- What is lost was reported before. -/
def NoneLost (s : LossyCluster ι) : Prop :=
  ∀ j ∈ s.lost, ∀ th ∈ s.cluster.threads[j]?, th.phase = .reported

omit [DecidableEq ι] in
instance (s : LossyCluster ι) : Decidable s.NoneLost :=
  inferInstanceAs (Decidable (∀ j ∈ s.lost, ∀ th ∈ s.cluster.threads[j]?, th.phase = .reported))

/-- A step of a task or a poll that changes something. -/
def Moves (env : Setup ι) (s : LossyCluster ι) (e : Event ι) (s' : LossyCluster ι) : Prop :=
  e.isSubmit = false ∧ s' = s.step env (.task e) ∧ s' ≠ s

/-- Nothing moves any more: every poll is answered without a task, and no thread that is not lost has a step before it. -/
def AtRest (env : Setup ι) (s : LossyCluster ι) : Prop := ∀ e s', ¬ Moves env s e s'

variable {env : Setup ι} {s s' : LossyCluster ι} {e : Event ι}

/-- A step is one of the cluster without losses, or changes nothing there. -/
theorem step_cluster (env : Setup ι) (s : LossyCluster ι) (e : LossyEvent ι) :
    (s.step env e).cluster = s.cluster ∨ ∃ e', e = .task e' ∧ (s.step env e).cluster = s.cluster.step env e' := by
  cases e with
  | task e' =>
    by_cases hblocks : s.Blocks e'
    · exact .inl (by rw [step, if_pos hblocks])
    · exact .inr ⟨e', rfl, by rw [step, if_neg hblocks]⟩
  | lose j =>
    left
    unfold step
    dsimp only
    split <;> rfl

/-- Every move leaves less to do. -/
theorem Moves.left_lt (h : Moves env s e s') : s'.cluster.left < s.cluster.left := by
  obtain ⟨he, rfl, hne⟩ := h
  by_cases hblocks : s.Blocks e
  · rw [step, if_pos hblocks] at hne
    exact absurd rfl hne
  · rw [step, if_neg hblocks] at hne ⊢
    refine (s.cluster.left_step he).resolve_left fun hsame => hne ?_
    rw [hsame]

end LossyCluster

/-! ## Rest -/

/-- A thread that has reported has no step before it. -/
theorem Cluster.step_reported [DecidableEq ι] (env : Setup ι) (c : Cluster ι) {e : Event ι} {j : Nat}
    (he : e.thread = some j) (hj : ∀ th ∈ c.threads[j]?, th.phase = .reported) : c.step env e = c := by
  cases hget : c.threads[j]? with
  | none =>
    cases e with
    | execute | prepare | deliver =>
      cases he
      simp only [step, hget]
    | submit | poll => cases he
  | some th =>
    have hp := hj th (by rw [hget]; rfl)
    cases e with
    | execute | prepare | deliver =>
      cases he
      simp [step, hget, hp]
    | submit | poll => cases he

section SingleJob

variable [DecidableEq ι] {env : Setup ι} {s s' : LossyCluster ι} {inputPath outputPath : Bytes}
  {numMaps numReduces : Int32}

namespace LossyCluster

/-- When nothing is lost, rest is that of the cluster without losses. -/
theorem AtRest.cluster (h : s.AtRest env) (hnone : s.NoneLost) : s.cluster.AtRest env := by
  refine Cluster.atRest_iff_step.2 fun e he => ?_
  by_cases hblocks : s.Blocks e
  · obtain ⟨j, hj, hthread⟩ := hblocks
    exact s.cluster.step_reported env hthread (hnone j hj)
  · have hstep : s.step env (.task e) = s := by
      by_contra hne
      exact h e _ ⟨he, rfl, hne⟩
    rw [step, if_neg hblocks] at hstep
    exact congrArg LossyCluster.cluster hstep

theorem step_ending (h : Ending env inputPath outputPath numMaps numReduces s.cluster) {e : LossyEvent ι}
    (he : e.isSubmit = false) : Ending env inputPath outputPath numMaps numReduces (s.step env e).cluster := by
  rcases s.step_cluster env e with hsame | ⟨e', rfl, hstep⟩
  · rw [hsame]
    exact h
  · rw [hstep]
    exact h.step he

theorem runJob_ending {es : List (LossyEvent ι)} (hjob : ∀ e ∈ es, e.isSubmit = false) (files : HashMap Bytes Bytes)
    (inputPath outputPath : Bytes) (numMaps numReduces : Int32) :
    Ending env inputPath outputPath numMaps numReduces
      (runJob env files inputPath outputPath numMaps numReduces es).cluster :=
  @after_keeps _ _ (step env) _ (fun s => Ending env inputPath outputPath numMaps numReduces s.cluster) es
    ⟨OneJob.submitted files inputPath outputPath numMaps numReduces, fun hdone => by cases hdone⟩
    fun _ e he h => step_ending h (hjob e he)

/-- What is left is never more than at the start. -/
theorem runJob_left {es : List (LossyEvent ι)} (hjob : ∀ e ∈ es, e.isSubmit = false) (files : HashMap Bytes Bytes)
    (inputPath outputPath : Bytes) (numMaps numReduces : Int32) :
    (runJob env files inputPath outputPath numMaps numReduces es).cluster.left ≤
      4 * (numMaps.toNatClampNeg + numReduces.toNatClampNeg) + 1 := by
  refine @after_keeps _ _ (step env) _
    (fun s => s.cluster.left ≤ 4 * (numMaps.toNatClampNeg + numReduces.toNatClampNeg) + 1) es ?_ fun s e he hle => ?_
  · exact @Mapred.runJob_left _ _ env [] (fun e he => absurd he List.not_mem_nil) files inputPath outputPath numMaps
      numReduces
  · rcases s.step_cluster env e with hsame | ⟨e', rfl, hstep⟩
    · rw [hsame]
      exact hle
    · rw [hstep]
      rcases s.cluster.left_step (hjob _ he) with hsame | hlt
      · rw [hsame]
        exact hle
      · exact hlt.le.trans hle

/-- Whatever tasks are lost on the way, from any state of a job at most `4 (m + r) + 1` more steps change anything, in
whatever order they are taken; when nothing moves any more, the job is done exactly if no task was lost before its report;
and it is never done with such a task. -/
theorem job_done_iff_none_lost [Nonempty ι] {es : List (LossyEvent ι)} {own : List (Event ι)}
    (hjob : ∀ e ∈ es, e.isSubmit = false) (files : HashMap Bytes Bytes)
    (h : Run (Moves env) (runJob env files inputPath outputPath numMaps numReduces es) own s') :
    own.length ≤ 4 * (numMaps.toNatClampNeg + numReduces.toNatClampNeg) + 1 ∧
      (s'.AtRest env → (s'.cluster.jobTracker.isJobDone = true ↔ s'.NoneLost)) ∧
      (s'.cluster.jobTracker.isJobDone = true → s'.NoneLost) := by
  have hlen : own.length + s'.cluster.left ≤
      (runJob env files inputPath outputPath numMaps numReduces es).cluster.left :=
    @Run.length_le _ _ _ (fun s : LossyCluster ι => s.cluster.left) (fun _ _ _ => Moves.left_lt) _ _ _ h
  have hle := @runJob_left _ _ env _ hjob files inputPath outputPath numMaps numReduces
  have hending : Ending env inputPath outputPath numMaps numReduces s'.cluster := by
    refine @Run.invariant _ _ _ (fun _ s => Ending env inputPath outputPath numMaps numReduces s.cluster) _ _ _ h
      (runJob_ending hjob files inputPath outputPath numMaps numReduces) ?_
    rintro - s e s' hs ⟨he, rfl, -⟩
    exact step_ending hs he
  have hnone : s'.cluster.jobTracker.isJobDone = true → s'.NoneLost := fun hdone j _ th hth =>
    hending.reported hdone th (List.mem_of_getElem? hth)
  exact ⟨by omega, fun hrest => ⟨hnone, fun hkept => hending.atRest_iff.1 (hrest.cluster hkept)⟩, hnone⟩

/-- The first of two map tasks is lost at once. -/
def firstLost : LossyCluster Bool :=
  runJob Cluster.countLines Cluster.oneLine (bytes "in") (bytes "out") 2 1 [.task (.poll true), .lose 0]

/-- The second one is executed; the job is not done, and will not be. -/
theorem job_done_iff_none_lost_firstLost : ∃ s, Run (Moves Cluster.countLines) firstLost [.poll false, .execute 1] s ∧
    s.cluster.jobTracker.isJobDone ≠ true := by
  have hmove : ∀ (s : LossyCluster Bool) (e : Event Bool), e.isSubmit = false →
      (s.step Cluster.countLines (.task e)).cluster.threads ≠ s.cluster.threads →
        Moves Cluster.countLines s e (s.step Cluster.countLines (.task e)) :=
    fun _ _ he hne => ⟨he, rfl, fun heq => hne (congrArg (·.cluster.threads) heq)⟩
  have hpoll := hmove firstLost (.poll false) rfl (by decide +kernel)
  have hexecute := hmove (firstLost.step Cluster.countLines (.task (.poll false))) (.execute 1) rfl (by decide +kernel)
  have hrun := (Run.nil.snoc hpoll).snoc hexecute
  obtain ⟨-, -, hnone⟩ := @job_done_iff_none_lost _ _ Cluster.countLines _ (bytes "in") (bytes "out") 2 1 _ _ _ (by decide)
    Cluster.oneLine hrun
  exact ⟨_, hrun, fun hdone => absurd (hnone hdone) (by decide +kernel)⟩

end LossyCluster

end SingleJob

end MiniHadoop.Mapred

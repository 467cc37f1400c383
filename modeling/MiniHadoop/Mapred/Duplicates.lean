/-
Reports that arrive more than once (`mapred/dist_job_tracker.h`). `TaskCompleted` does not look whether a task has been
reported before: it counts messages. What a message leaves behind that is handled any number of times, and what the next
poll makes of it.
-/
import MiniHadoop.Mapred.Scheduling

namespace MiniHadoop.Mapred

open Text

namespace DistJobTracker

/-- The states of a JobTracker whose handlers are called in any order, with any arguments. -/
inductive Reachable : DistJobTracker → Prop
  | fresh : Reachable {}
  | submitJob {s : DistJobTracker} (inputPath outputPath : Bytes) (numMaps numReduces : Int32) :
      Reachable s → Reachable (s.submitJob inputPath outputPath numMaps numReduces)
  | pollForTask {s : DistJobTracker} : Reachable s → Reachable s.pollForTask.1
  | taskCompleted {s : DistJobTracker} (c : Completion) : Reachable s → Reachable (s.taskCompleted c)

/-- The counters and the locations are the same. -/
structure SameProgress (s s' : DistJobTracker) : Prop where
  maps : s'.mapsCompleted = s.mapsCompleted
  reduces : s'.reducesCompleted = s.reducesCompleted
  locations : s'.mapOutputLocations = s.mapOutputLocations

/-- The message is handled `n` times. -/
def repeated (s : DistJobTracker) (c : Completion) (n : Nat) : DistJobTracker := (fun s => s.taskCompleted c)^[n] s

/-- Every copy of a message counts, and enters its locations again. -/
theorem repeated_eq (s : DistJobTracker) (c : Completion) (n : Nat) : s.repeated c n =
    { s with
      mapsCompleted := s.mapsCompleted + if c.type = .kMap then n else 0
      reducesCompleted := s.reducesCompleted + if c.type = .kReduce then n else 0
      mapOutputLocations := s.mapOutputLocations ++ (List.replicate n c.locations).flatten } := by
  induction n with
  | zero => cases c <;> simp [repeated]
  | succ n ih =>
    rw [repeated, Function.iterate_succ_apply', ← repeated, ih, List.replicate_succ', List.flatten_append,
      List.flatten_singleton, ← List.append_assoc]
    cases c with
    | map taskId numParts host port => rfl
    | reduce taskId =>
      rw [show (Completion.reduce taskId).locations = [] from rfl, List.append_nil]
      rfl

/-- Handled a different number of times, a message leaves a different state. -/
theorem sameProgress_repeated_iff (s : DistJobTracker) (c : Completion) (m n : Nat) :
    SameProgress (s.repeated c m) (s.repeated c n) ↔ m = n := by
  constructor
  · rintro ⟨hmaps, hreduces, -⟩
    rw [repeated_eq, repeated_eq] at hmaps hreduces
    cases c with
    | map => exact (Nat.add_left_cancel hmaps).symm
    | reduce => exact (Nat.add_left_cancel hreduces).symm
  · rintro rfl
    exact ⟨rfl, rfl, rfl⟩

/-- When all map tasks have been handed out, copies of one report are enough to start a reduce task: it is given the
locations of that report once for each copy, whatever has become of the other tasks. -/
theorem pollForTask_repeated {s : DistJobTracker} {c : Completion} {n : Nat} (hc : c.type = .kMap)
    (hmaps : s.pendingMaps = []) (hreduces : s.pendingReduces = [])
    (hleft : s.pendingReducesCreated < s.numReduces.toInt) (hn : s.numMaps.toInt ≤ s.mapsCompleted + n) :
    (s.repeated c n).pollForTask.2 = some (assignReduce { s.reduceTask s.pendingReducesCreated with
      mapOutputs := s.mapOutputLocations ++ (List.replicate n c.locations).flatten }) := by
  have hrepeated := repeated_eq s c n
  rw [if_pos hc] at hrepeated
  have hbarrier : (s.repeated c n).numMaps.toInt ≤ (s.repeated c n).mapsCompleted ∧
      (s.repeated c n).pendingReducesCreated < (s.repeated c n).numReduces.toInt := by
    rw [hrepeated]
    exact ⟨by exact_mod_cast hn, hleft⟩
  have hmade : (s.repeated c n).createReduce.pendingReduces =
      [(s.repeated c n).reduceTask (s.repeated c n).pendingReducesCreated] := by
    rw [createReduce, if_pos hbarrier, hrepeated]
    show s.pendingReduces ++ _ = _
    rw [hreduces]
    rfl
  have hnone : (s.repeated c n).pendingMaps = [] := by
    rw [hrepeated]
    exact hmaps
  unfold pollForTask
  simp only [hnone, hmade, List.getLast?_nil, List.getLast?_singleton]
  rw [hrepeated]
  rfl

/-- A message that is handled twice never leaves the counters and the locations as if it had been handled once. -/
theorem not_idempotent (s : DistJobTracker) (c : Completion) :
    ¬ SameProgress (s.taskCompleted c) ((s.taskCompleted c).taskCompleted c) := by
  intro h
  have htwice := (sameProgress_repeated_iff s c 1 2).1 h
  omega

/-- The report of the first of two map tasks, sent again, counts as that of the second. -/
theorem duplicate_counts : ¬ ∀ s, Reachable s → s.jobState = .kRunning → ∀ c,
    SameProgress (s.taskCompleted c) ((s.taskCompleted c).taskCompleted c) := by
  intro h
  have hsame := h _ (.submitJob (bytes "/in") (bytes "/out") 2 1 .fresh) rfl (.map (bytes "job_001_m_0") 1 (bytes "h") 1)
  exact absurd hsame.maps (by decide)

end DistJobTracker

end MiniHadoop.Mapred

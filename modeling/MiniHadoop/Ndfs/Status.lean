/-
What the NameNode says about its cluster: the report of the DataNodes, the statistics, and whether files can be written.
After any run of calls the report and the statistics are those of the last message of every DataNode that ever sent one,
alive or not; and writing is allowed by the ticks since safe mode was entered and by the blocks as the last tick counted
them.
-/
import MiniHadoop.Ndfs.Locations

namespace MiniHadoop.Ndfs

open Text Runs

/-! ## The last messages -/

/-- What a registration or a heartbeat says about its DataNode. -/
def Operation.news : Operation → Option DataNodeInfo
  | .registerDataNode now info => some { info with lastUpdate := now }
  | .heartbeat now dnName host port capacity remaining =>
    some { name := dnName, host, port, capacity, remaining, lastUpdate := now }
  | _ => none

/-- The most recent news of a DataNode. -/
def lastNews (ops : List Operation) (name : Bytes) : Option DataNodeInfo :=
  ops.reverse.findSome? fun op => op.news.bind fun dn => if dn.name = name then some dn else none

/-- The DataNodes that were heard of, each with its most recent news. -/
def knownDataNodes (ops : List Operation) : List DataNodeInfo :=
  ((ops.filterMap Operation.news).map DataNodeInfo.name).dedup.filterMap (lastNews ops)

theorem lastNews_snoc (ops : List Operation) (op : Operation) (name : Bytes) :
    lastNews (ops ++ [op]) name =
      (op.news.bind fun dn => if dn.name = name then some dn else none).or (lastNews ops name) := by
  unfold lastNews
  exact findSome?_reverse_snoc _ ops op

theorem name_of_lastNews {ops : List Operation} {name : Bytes} {dn : DataNodeInfo} (h : lastNews ops name = some dn) :
    dn.name = name ∧ name ∈ (ops.filterMap Operation.news).map DataNodeInfo.name := by
  obtain ⟨op, hop, hsome⟩ := List.exists_of_findSome?_eq_some h
  obtain ⟨dn', hnews, hif⟩ := Option.bind_eq_some_iff.1 hsome
  split at hif
  · rename_i hname
    cases hif
    refine ⟨hname, List.mem_map.2 ⟨dn, List.mem_filterMap.2 ⟨op, List.mem_reverse.1 hop, hnews⟩, hname⟩⟩
  · cases hif

/-- The list has exactly the most recent news. -/
theorem mem_knownDataNodes {ops : List Operation} {dn : DataNodeInfo} :
    dn ∈ knownDataNodes ops ↔ lastNews ops dn.name = some dn := by
  unfold knownDataNodes
  rw [List.mem_filterMap]
  constructor
  · rintro ⟨name, -, hlast⟩
    rw [(name_of_lastNews hlast).1]
    exact hlast
  · intro hlast
    exact ⟨dn.name, List.mem_dedup.2 (name_of_lastNews hlast).2, hlast⟩

/-- Each DataNode is in it once. -/
theorem nodup_knownDataNodes (ops : List Operation) : ((knownDataNodes ops).map DataNodeInfo.name).Nodup := by
  have hsub : ((knownDataNodes ops).map DataNodeInfo.name).Sublist
      ((ops.filterMap Operation.news).map DataNodeInfo.name).dedup := by
    unfold knownDataNodes
    generalize ((ops.filterMap Operation.news).map DataNodeInfo.name).dedup = names
    induction names with
    | nil => exact List.Sublist.slnil
    | cons name names ih =>
      rw [List.filterMap_cons]
      cases hlast : lastNews ops name with
      | none => exact ih.cons name
      | some dn =>
        simp only [List.map_cons, (name_of_lastNews hlast).1]
        exact ih.cons_cons name
  exact hsub.nodup (List.nodup_dedup _)

/-- The call is a tick of safe mode. -/
def Operation.isTick : Operation → Bool
  | .updateSafeMode => true
  | _ => false

/-- The call enters safe mode. -/
def Operation.entersSafeMode : Operation → Bool
  | .enterSafeMode => true
  | _ => false

namespace FsNamesystem

variable {s : FsNamesystem}

/-! ## The registry -/

/-- News is entered under the name of its DataNode, in the place of what was there. -/
theorem perform_news (hr : s.RegistryOk) {op : Operation} {dn : DataNodeInfo} (h : op.news = some dn) :
    (s.perform op).datanodes = s.datanodes.insert dn.name dn := by
  cases op with
  | registerDataNode now info =>
    cases h
    rfl
  | heartbeat now dnName host port capacity remaining =>
    cases h
    cases hl : s.datanodes.lookup dnName with
    | none => simp only [perform, heartbeat, hl]
    | some info => simp only [perform, heartbeat, hl, hr _ _ hl]
  | startFile | addBlock | delete | mkdirs | blockReport | blockReceived | enterSafeMode | updateSafeMode | addLease
  | removeLease | checkLeases => cases h

theorem announced_of_news {op : Operation} (h : op.news = none) : op.announced = none := by
  cases op with
  | registerDataNode | heartbeat => cases h
  | startFile | addBlock | delete | mkdirs | blockReport | blockReceived | enterSafeMode | updateSafeMode | addLease
  | removeLease | checkLeases => rfl

/-- After any run the registry holds the last messages. -/
theorem lookup_after (t : INode) (ops : List Operation) (name : Bytes) :
    (after perform { tree := t } ops).datanodes.lookup name = lastNews ops name := by
  induction ops using List.reverseRecOn with
  | nil => rfl
  | append_singleton ops op ih =>
    have hr : (after perform { tree := t } ops).RegistryOk :=
      @after_keeps _ _ perform { tree := t } RegistryOk ops (registryOk_start _) fun _ op _ h => h.perform op
    rw [after_snoc, lastNews_snoc]
    cases hnews : op.news with
    | none => rw [perform_datanodes_same (announced_of_news hnews), ih]; rfl
    | some dn =>
      rw [perform_news hr hnews, HashMap.lookup_insert_eq, ih]
      by_cases hn : name = dn.name
      · subst hn
        simp
      · simp [hn, Ne.symm hn]

/-- A walk over the registry meets the DataNodes that were heard of, in some order. -/
theorem values_perm (t : INode) (ops : List Operation) (order : DataNodeOrder) :
    (order.values (after perform { tree := t } ops).datanodes).Perm (knownDataNodes ops) := by
  have hr : (after perform { tree := t } ops).RegistryOk :=
    @after_keeps _ _ perform { tree := t } RegistryOk ops (registryOk_start _) fun _ op _ h => h.perform op
  refine (List.perm_ext_iff_of_nodup (nodup_values hr order).of_map (nodup_knownDataNodes ops).of_map).2 fun dn => ?_
  rw [HashMap.Enumeration.mem_values, mem_knownDataNodes]
  constructor
  · rintro ⟨name, hl⟩
    rw [lookup_after] at hl
    rw [(name_of_lastNews hl).1]
    exact hl
  · intro hlast
    exact ⟨dn.name, (lookup_after t ops dn.name).trans hlast⟩

theorem sum_perm {l l' : List Int64} (h : l.Perm l') : l.sum = l'.sum := by
  refine h.foldr_eq' (fun x _ y _ z => ?_) 0
  rw [← Int64.add_assoc, ← Int64.add_assoc, Int64.add_comm y x]

/-- After every run of calls on any tree, `GetDataNodeReport` lists each DataNode that has ever registered or sent a heartbeat once,
with the values of its last message, and the statistics are the sums and the number of these; a DataNode that has gone
silent stays among them. -/
theorem statistics_exact (t : INode) (ops : List Operation) (order : DataNodeOrder) :
    ((after perform { tree := t } ops).getDataNodeReport order).Perm (knownDataNodes ops) ∧
      (after perform { tree := t } ops).totalCapacity = ((knownDataNodes ops).map (·.capacity)).sum ∧
      (after perform { tree := t } ops).totalRemaining = ((knownDataNodes ops).map (·.remaining)).sum ∧
      (after perform { tree := t } ops).aliveDataNodes = Int32.ofNat (knownDataNodes ops).length := by
  have hwalk := values_perm t ops .insertion
  have hentries : HashMap.Enumeration.insertion.values (after perform { tree := t } ops).datanodes =
      (after perform { tree := t } ops).datanodes.entries.map (·.2) := rfl
  rw [hentries] at hwalk
  refine ⟨values_perm t ops order, ?_, ?_, ?_⟩
  · have hsum := sum_perm (hwalk.map (·.capacity))
    rw [List.map_map] at hsum
    exact hsum
  · have hsum := sum_perm (hwalk.map (·.remaining))
    rw [List.map_map] at hsum
    exact hsum
  · rw [aliveDataNodes, ← hwalk.length_eq, List.length_map]

/-! ## Ticks -/

/-- How many ticks there have been since safe mode was entered, at the start or by a call. -/
def ticks (ops : List Operation) : Nat :=
  ops.foldl (fun n op => if op.entersSafeMode then 0 else if op.isTick then n + 1 else n) 0

theorem ticks_snoc (ops : List Operation) (op : Operation) :
    ticks (ops ++ [op]) = if op.entersSafeMode then 0 else if op.isTick then ticks ops + 1 else ticks ops := by
  unfold ticks
  rw [List.foldl_append]
  rfl

/-- At least 99.9% of the blocks in the block map have a location. -/
def EnoughLocated (s : FsNamesystem) : Prop :=
  999 * s.blockToDatanodes.entries.length ≤ 1000 * (s.blockToDatanodes.entries.filter fun e => e.2 ≠ []).length

/-- The counters of safe mode. -/
def counters (s : FsNamesystem) : Nat × Nat × Nat := (s.totalBlocks, s.safeBlocks, s.safeModeCountdown)

theorem counters_checkLeasesFrom (now : Int64) : ∀ (ls : List ((_ : Bytes) × Lease)) (s : FsNamesystem),
    (checkLeasesFrom now s ls).counters = s.counters
  | [], _ => rfl
  | e :: ls, s => by
    rw [checkLeasesFrom]
    split
    · exact counters_checkLeasesFrom now ls _
    · exact counters_checkLeasesFrom now ls s

theorem counters_delete (s : FsNamesystem) (path : Bytes) : (s.delete path).1.counters = s.counters := by
  unfold delete
  cases getNode s.tree path with
  | none => rfl
  | some node =>
    dsimp only
    cases Ndfs.delete s.tree path <;> dsimp only <;> split <;> rfl

/-- Only the calls of safe mode change them. -/
theorem counters_perform (s : FsNamesystem) {op : Operation} (htick : op.isTick = false)
    (henter : op.entersSafeMode = false) : (s.perform op).counters = s.counters := by
  cases op with
  | startFile id order path overwrite =>
    rcases s.locked_or_tries path overwrite with hl | ⟨hs, hf⟩
    · rw [perform, startFile_locked hl]
    · rw [perform, startFile_eq id order hs hf]
      cases createFile (Ndfs.mkdirs (s.clearedTree path) (getParentDir path)).1 path <;> rfl
  | addBlock id order path =>
    by_cases hf : IsFile s.tree (splitPath path)
    · rw [perform, addBlock_file hf]
      rfl
    · rw [perform, addBlock_not_file hf]
  | delete path => exact counters_delete s path
  | blockReport dnName blocks =>
    rw [perform, blockReport]
    cases s.datanodes.lookup dnName <;> rfl
  | blockReceived dnName block delHint =>
    rw [perform, blockReceived]
    cases s.datanodes.lookup dnName <;> rfl
  | checkLeases now order => exact counters_checkLeasesFrom now _ s
  | updateSafeMode => cases htick
  | enterSafeMode => cases henter
  | heartbeat | mkdirs | registerDataNode | addLease | removeLease => rfl

/-- The countdown starts at 30, goes down by one with each tick, and stays at zero. -/
theorem countdown_after (t : INode) (ops : List Operation) :
    (after perform { tree := t } ops).safeModeCountdown = 30 - ticks ops := by
  induction ops using List.reverseRecOn with
  | nil => rfl
  | append_singleton ops op ih =>
    rw [after_snoc, ticks_snoc]
    by_cases henter : op.entersSafeMode = true
    · cases op with
      | enterSafeMode => rfl
      | startFile | addBlock | delete | mkdirs | registerDataNode | heartbeat | blockReport | blockReceived
      | updateSafeMode | addLease | removeLease | checkLeases => cases henter
    by_cases htick : op.isTick = true
    · rw [if_neg henter, if_pos htick]
      cases op with
      | updateSafeMode =>
        show (after perform { tree := t } ops).safeModeCountdown - 1 = _
        rw [ih]
        omega
      | startFile | addBlock | delete | mkdirs | registerDataNode | heartbeat | blockReport | blockReceived
      | enterSafeMode | addLease | removeLease | checkLeases => cases htick
    · rw [if_neg henter, if_neg htick, ← ih]
      exact congrArg (fun c => c.2.2) (counters_perform _ (by simpa using htick) (by simpa using henter))

/-- The counts are those of the block map at the last tick. -/
theorem counts_after (t : INode) (pre : List Operation) : ∀ post : List Operation, (∀ op ∈ post, op.isTick = false) →
    (after perform { tree := t } (pre ++ .updateSafeMode :: post)).totalBlocks =
        (after perform { tree := t } pre).blockToDatanodes.entries.length ∧
      (after perform { tree := t } (pre ++ .updateSafeMode :: post)).safeBlocks =
        ((after perform { tree := t } pre).blockToDatanodes.entries.filter fun e => e.2 ≠ []).length := by
  intro post hpost
  induction post using List.reverseRecOn with
  | nil =>
    rw [after_snoc]
    exact ⟨rfl, rfl⟩
  | append_singleton post op ih =>
    have htick : op.isTick = false := hpost op (by simp)
    have hrest := ih fun op hop => hpost op (List.mem_append_left _ hop)
    have hassoc : pre ++ Operation.updateSafeMode :: (post ++ [op]) = (pre ++ .updateSafeMode :: post) ++ [op] := by
      simp
    rw [hassoc, after_snoc]
    cases op with
    | enterSafeMode => exact hrest
    | updateSafeMode => cases htick
    | startFile | addBlock | delete | mkdirs | registerDataNode | heartbeat | blockReport | blockReceived
    | addLease | removeLease | checkLeases =>
      have hsame := counters_perform (after perform { tree := t } (pre ++ .updateSafeMode :: post)) htick rfl
      exact ⟨(congrArg (·.1) hsame).trans hrest.1, (congrArg (·.2.1) hsame).trans hrest.2⟩

/-- After ticks there is a last one. -/
theorem exists_lastTick {ops : List Operation} (h : 0 < ticks ops) :
    ∃ pre post, ops = pre ++ Operation.updateSafeMode :: post ∧ ∀ op ∈ post, op.isTick = false := by
  induction ops using List.reverseRecOn with
  | nil => cases h
  | append_singleton ops op ih =>
    rw [ticks_snoc] at h
    by_cases htick : op.isTick = true
    · cases op with
      | updateSafeMode => exact ⟨ops, [], rfl, fun op hop => by cases hop⟩
      | startFile | addBlock | delete | mkdirs | registerDataNode | heartbeat | blockReport | blockReceived
      | enterSafeMode | addLease | removeLease | checkLeases => cases htick
    · have hbefore : 0 < ticks ops := by
        by_cases henter : op.entersSafeMode = true
        · rw [if_pos henter] at h
          cases h
        · rw [if_neg henter, if_neg htick] at h
          exact h
      obtain ⟨pre, post, rfl, hpost⟩ := ih hbefore
      refine ⟨pre, post ++ [op], by simp, fun o ho => ?_⟩
      rcases List.mem_append.1 ho with ho | ho
      · exact hpost o ho
      · rw [List.mem_singleton.1 ho]
        simpa using htick

theorem inSafeMode_eq_false_iff : s.inSafeMode = false ↔
    s.datanodes.entries ≠ [] ∧ 999 * s.totalBlocks ≤ 1000 * s.safeBlocks := by
  unfold inSafeMode
  by_cases hnone : s.datanodes.entries = []
  · simp [hnone]
  · by_cases hzero : s.totalBlocks = 0
    · simp [hnone, hzero]
    · simp [hnone, hzero]

/-- After every run of calls, `CanWrite` holds exactly when there were 30 ticks since safe mode was entered, some DataNode
was ever heard of, and at the last tick at least 99.9% of the blocks in the block map had a location; what has happened
to the blocks since then does not count. -/
theorem canWrite_iff (t : INode) (ops : List Operation) :
    (after perform { tree := t } ops).canWrite = true ↔
      30 ≤ ticks ops ∧ knownDataNodes ops ≠ [] ∧ ∃ pre post, ops = pre ++ Operation.updateSafeMode :: post ∧
        (∀ op ∈ post, op.isTick = false) ∧ (after perform { tree := t } pre).EnoughLocated := by
  have hcountdown := countdown_after t ops
  have hknown : (after perform { tree := t } ops).datanodes.entries = [] ↔ knownDataNodes ops = [] := by
    have hlen := (values_perm t ops .insertion).length_eq
    rw [HashMap.Enumeration.length_values] at hlen
    rw [← List.length_eq_zero_iff, ← List.length_eq_zero_iff, hlen]
  have hcan : (after perform { tree := t } ops).canWrite = true ↔ 30 ≤ ticks ops ∧ knownDataNodes ops ≠ [] ∧
      999 * (after perform { tree := t } ops).totalBlocks ≤ 1000 * (after perform { tree := t } ops).safeBlocks := by
    rw [canWrite, Bool.and_eq_true, decide_eq_true_eq, Bool.not_eq_true', inSafeMode_eq_false_iff, hcountdown, ne_eq,
      hknown]
    refine and_congr_left fun _ => ?_
    omega
  rw [hcan]
  refine and_congr_right fun hticks => and_congr_right fun _ => ?_
  constructor
  · intro henough
    obtain ⟨pre, post, rfl, hpost⟩ := @exists_lastTick ops (by omega)
    obtain ⟨htotal, hsafe⟩ := counts_after t pre post hpost
    rw [htotal, hsafe] at henough
    exact ⟨pre, post, rfl, hpost, henough⟩
  · rintro ⟨pre, post, rfl, hpost, henough⟩
    obtain ⟨htotal, hsafe⟩ := counts_after t pre post hpost
    rw [htotal, hsafe]
    exact henough

end FsNamesystem

end MiniHadoop.Ndfs

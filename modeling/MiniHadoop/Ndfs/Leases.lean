/-
Leases over whole runs (`ndfs/fs_namesystem.h`). A lease is kept under a path and nothing looks at it when the node there
goes or a new one is made, so it may outlive the file it was granted for. Which nodes a call makes, what has become of a
grant since, and when an expired lease removes only nodes that were there when it was granted.
-/
import MiniHadoop.Ndfs.StartFile

namespace MiniHadoop.Ndfs

open Text Forest Runs

/-- The clock, where a call reads it. -/
def Operation.time : Operation → Option Int64
  | .registerDataNode now _ => some now
  | .heartbeat now _ _ _ _ _ => some now
  | .addLease now _ _ => some now
  | .checkLeases now _ => some now
  | _ => none

/-- The clock never goes back during the calls. -/
def NonDecreasing (ops : List Operation) : Prop := (ops.filterMap Operation.time).Pairwise (· ≤ ·)

instance (ops : List Operation) : Decidable (NonDecreasing ops) := inferInstanceAs (Decidable (List.Pairwise _ _))

namespace FsNamesystem

variable {s : FsNamesystem}

/-! ## Grants -/

/-- The call leaves a new node at `c`: there was none, or it was taken out. -/
def Creates (s : FsNamesystem) (op : Operation) (c : List Bytes) : Prop :=
  (entryAt (s.perform op).tree c).isSome ∧ (entryAt s.tree c = none ∨ s.Removes op c)

/-- A lease under `p` was granted for the node at `c` until `expiry`, and since then the node has not been made again and
the lease has not been given up. -/
inductive Granted (t : INode) (c : List Bytes) (p : Bytes) : List Operation → Int64 → Prop
  | made {ops : List Operation} {now : Int64} {holder : Bytes} : splitPath p = c →
      (entryAt (after perform { tree := t } ops).tree c).isSome →
      Granted t c p (ops ++ [.addLease now holder p]) (now + kLeaseTimeout)
  | stays {ops : List Operation} {op : Operation} {expiry : Int64} : Granted t c p ops expiry →
      ¬ (after perform { tree := t } ops).Creates op c → op ≠ .removeLease p → Granted t c p (ops ++ [op]) expiry

/-- Whenever the leases are checked, a node that goes had a grant that has expired. -/
def RemovesOnlyGranted (t : INode) (ops : List Operation) : Prop :=
  ∀ pre now order, pre ++ [.checkLeases now order] <+: ops → ∀ c,
    (entryAt (after perform { tree := t } pre).tree c).isSome →
      entryAt ((after perform { tree := t } pre).checkLeases now order).tree c = none →
        ∃ p expiry, Granted t c p pre expiry ∧ expiry < now

/-! ## The condition -/

/-- Where a call makes a new node: `StartFile` at its path and where a directory above it is missing, `Mkdirs` where one
is missing; neither when a file is in the way. -/
def MayCreate (s : FsNamesystem) : Operation → List Bytes → Prop
  | .startFile _ _ path overwrite, c =>
    s.inSafeMode = false ∧ (overwrite = true ∨ entryAt s.tree (splitPath path) = none) ∧
      (∀ d, d <+: splitPath path → d ≠ splitPath path → ¬ IsFile s.tree d) ∧ c <+: splitPath path ∧
      (c = splitPath path ∨ entryAt s.tree c = none)
  | .mkdirs path, c => NoFileOn s.tree (splitPath path) ∧ c <+: splitPath path ∧ entryAt s.tree c = none
  | _, _ => False

/-- The call makes no node under whose path there is a lease on record; and when it checks the leases, all that is at or
below the path of an expired one has an expired lease of its own. -/
structure RespectsLeases (s : FsNamesystem) (op : Operation) : Prop where
  unleased : ∀ c, s.MayCreate op c → ∀ e ∈ s.leases.entries, splitPath e.2.path ≠ c
  expired : ∀ now order, op = .checkLeases now order → ∀ c, s.Removes op c → (entryAt s.tree c).isSome →
    ∃ e ∈ s.leases.entries, e.2.expiry < now ∧ splitPath e.2.path = c

/-! ## What a call creates -/

section Creates

variable {id : Int64} {order : DataNodeOrder} {path : Bytes} {overwrite : Bool} {c : List Bytes}

/-- Where the tree stays as it was and nothing is taken out there is no new node. -/
theorem not_creates_of_same {op : Operation} (hsame : entryAt (s.perform op).tree c = entryAt s.tree c)
    (hrem : s.Removes op c → entryAt s.tree c = none) : ¬ s.Creates op c := by
  rintro ⟨hsome, hnew⟩
  have hnone : entryAt s.tree c = none := by
    rcases hnew with hnone | hr
    · exact hnone
    · exact hrem hr
  rw [hsame, hnone] at hsome
  cases hsome

/-- With a file above its path `StartFile` leaves the tree as it was. -/
theorem startFile_below_file (ht : TreeOk s.tree) {d : List Bytes} (hd : d <+: splitPath path)
    (hne : d ≠ splitPath path) (hf : IsFile s.tree d) :
    (s.startFile id order path overwrite).1.tree = s.tree := by
  rcases s.locked_or_tries path overwrite with hl | ⟨hs, htry⟩
  · rw [startFile_locked hl]
  have hna : ¬ s.Accepts path overwrite := by
    intro ha
    obtain ⟨name, hn⟩ := ha.proper.splitPath
    rw [hn] at hd hne
    exact ha.parents d ((List.prefix_concat_iff.1 hd).resolve_left hne) hf
  rw [(startFile_tried ht hs htry hna id order).1]
  exact (refused_tree_iff ht hs htry hna).2 (.blocked hd hne hf)

/-- Away from its path and the directories above it, `StartFile` only removes what is below the path. -/
theorem entryAt_startFile_off (ht : TreeOk s.tree) (hs : s.inSafeMode = false)
    (htry : overwrite = true ∨ entryAt s.tree (splitPath path) = none) (hpre : ¬ c <+: splitPath path) :
    entryAt (s.startFile id order path overwrite).1.tree c =
      if splitPath path ≠ [] ∧ splitPath path <+: c then none else entryAt s.tree c := by
  by_cases ha : s.Accepts path overwrite
  · obtain ⟨t, -, heq, hent⟩ := startFile_accepted ht ha id order
    have hat : c ≠ splitPath path := fun h => hpre (h ▸ List.prefix_refl c)
    have habove : ¬ (c <+: splitPath (getParentDir path) ∧ entryAt s.tree c = none) :=
      fun hc => hpre (hc.1.trans ha.proper.parent_isPrefix)
    rw [heq]
    show entryAt t c = _
    rw [hent, if_neg hat, if_neg habove]
    simp only [ne_eq, ha.proper.splitPath_ne_nil, not_false_eq_true, true_and]
  · rw [(startFile_tried ht hs htry ha id order).1]
    by_cases hroot : splitPath path = []
    · rw [refused_root_tree hroot, if_neg fun h => h.1 hroot]
    · have hparent : splitPath (getParentDir path) <+: splitPath path := by
        by_cases hp : ProperPath path
        · exact hp.parent_isPrefix
        · rw [← (splitPath_of_not_proper hp).resolve_left hroot]
      rw [Ndfs.mkdirs, entryAt_mkdirsFrom_other (clearedTree_ok ht) fun hc => hpre (hc.trans hparent),
        entryAt_clearedTree ht hroot]
      simp only [ne_eq, hroot, not_false_eq_true, true_and]

/-- `StartFile` makes new nodes only at its path and where a directory above it is missing. -/
theorem creates_startFile (ht : TreeOk s.tree) (h : s.Creates (.startFile id order path overwrite) c) :
    s.MayCreate (.startFile id order path overwrite) c := by
  rcases s.locked_or_tries path overwrite with hl | ⟨hs, htry⟩
  · refine absurd h (not_creates_of_same (by rw [perform, startFile_locked hl]) ?_)
    rintro ⟨hs, hover, -⟩
    rcases hl with hsafe | ⟨how, -⟩
    · rw [hs] at hsafe; cases hsafe
    · rw [hover] at how; cases how
  by_cases hfile : ∀ d, d <+: splitPath path → d ≠ splitPath path → ¬ IsFile s.tree d
  · obtain ⟨hsome, hnew⟩ := h
    have hpre : c <+: splitPath path := by
      by_contra hpre
      rw [perform, entryAt_startFile_off ht hs htry hpre] at hsome
      split at hsome
      · cases hsome
      · rename_i hkeep
        rw [hnew.resolve_right fun hr => hkeep hr.2.2] at hsome; cases hsome
    refine ⟨hs, htry, hfile, hpre, ?_⟩
    rcases hnew with hnone | ⟨-, -, -, hbelow⟩
    · exact .inr hnone
    · exact .inl (hpre.eq_of_length_le hbelow.length_le)
  · push Not at hfile
    obtain ⟨d, hd, hne, hf⟩ := hfile
    refine absurd h (not_creates_of_same (by rw [perform, startFile_below_file ht hd hne hf]) ?_)
    rintro ⟨-, -, -, hp⟩
    refine entryAt_below_file ht.nodes hf (hd.trans hp) ?_
    rintro rfl
    exact hne (hd.eq_of_length_le hp.length_le)

/-- A call makes new nodes only where it may. -/
theorem Creates.mayCreate (ht : TreeOk s.tree) {op : Operation} (h : s.Creates op c) : s.MayCreate op c := by
  cases op with
  | startFile id order path overwrite => exact creates_startFile ht h
  | mkdirs path =>
    obtain ⟨hsome, hnew⟩ := h
    have hnone : entryAt s.tree c = none := hnew.resolve_right fun hr => hr
    change (entryAt (mkdirsFrom s.tree (splitPath path)).1 c).isSome at hsome
    refine ⟨?_, ?_, hnone⟩
    · by_contra hno
      rw [mkdirsFrom_false (Bool.eq_false_iff.2 fun hm => hno ((mkdirsFrom_true ht.rootType).1 hm)), hnone] at hsome
      cases hsome
    · by_contra hpre
      rw [entryAt_mkdirsFrom_other ht hpre, hnone] at hsome
      cases hsome
  | addBlock id order path =>
    obtain ⟨hsome, hnew⟩ := h
    have hnone : entryAt s.tree c = none := hnew.resolve_right fun hr => hr
    rw [perform] at hsome
    exfalso
    by_cases hf : IsFile s.tree (splitPath path)
    · rw [addBlock_file hf, entryAt_pushBlockAt] at hsome
      split at hsome
      · rename_i hc
        rw [← hc, hnone] at hsome; cases hsome
      · rw [hnone] at hsome; cases hsome
    · rw [addBlock_not_file hf, hnone] at hsome
      cases hsome
  | delete path =>
    obtain ⟨hsome, hnew⟩ := h
    rw [perform, (delete_tree ht path).2] at hsome
    split at hsome
    · cases hsome
    · rename_i hkeep
      rw [hnew.resolve_right hkeep] at hsome; cases hsome
  | checkLeases now order =>
    obtain ⟨hsome, hnew⟩ := h
    rcases checkLeasesFrom_entryAt now (order.entries s.leases) ht c with ⟨hnone, -⟩ | ⟨hsame, hnot⟩
    · rw [perform, checkLeases, hnone] at hsome; cases hsome
    · have hkeep : ¬ s.Removes (.checkLeases now order) c := by
        rintro ⟨e, he, hexp, hne, hp⟩
        exact hnot e ((order.perm s.leases).mem_iff.2 he) hexp hne hp
      rw [perform, checkLeases, hsame, hnew.resolve_right hkeep] at hsome; cases hsome
  | blockReport dnName blocks =>
    exact absurd h (not_creates_of_same (by rw [perform, blockReport_tree]) False.elim)
  | blockReceived dnName block delHint =>
    exact absurd h (not_creates_of_same (by rw [perform, blockReceived_tree]) False.elim)
  | registerDataNode | heartbeat | enterSafeMode | updateSafeMode | addLease | removeLease =>
    exact absurd h (not_creates_of_same rfl False.elim)

end Creates

/-! ## The leases on record -/

theorem checkLeasesFrom_leases (now : Int64) {p : Bytes} {l : Lease} :
    ∀ (es : List ((_ : Bytes) × Lease)) (s : FsNamesystem), (checkLeasesFrom now s es).leases.lookup p = some l →
      s.leases.lookup p = some l
  | [], _, h => h
  | e :: es, s, h => by
    rw [checkLeasesFrom] at h
    split at h
    · have herase := checkLeasesFrom_leases now es _ h
      change (s.leases.erase e.1).lookup p = some l at herase
      by_cases hp : p = e.1
      · rw [hp, AList.lookup_erase] at herase; cases herase
      · rwa [AList.lookup_erase_ne hp] at herase
    · exact checkLeasesFrom_leases now es s h

/-- A lease on record after a call was granted by it, or was on record before and not given up. -/
theorem perform_leases {op : Operation} {p : Bytes} {l : Lease} (h : (s.perform op).leases.lookup p = some l) :
    (∃ now holder, op = .addLease now holder p ∧ l = ⟨holder, p, now + kLeaseTimeout⟩) ∨
      (s.leases.lookup p = some l ∧ op ≠ .removeLease p) := by
  cases op with
  | addLease now holder path =>
    rw [perform, addLease, HashMap.lookup_insert_eq] at h
    split at h
    · rename_i hp
      cases h
      exact .inl ⟨now, holder, by rw [hp], by rw [hp]⟩
    · exact .inr ⟨h, by rintro ⟨⟩⟩
  | removeLease path =>
    rw [perform, removeLease] at h
    by_cases hp : p = path
    · rw [hp, AList.lookup_erase] at h; cases h
    · rw [AList.lookup_erase_ne hp] at h
      exact .inr ⟨h, fun heq => hp (Operation.removeLease.inj heq).symm⟩
  | startFile id order path overwrite =>
    refine .inr ⟨?_, by rintro ⟨⟩⟩
    rcases s.locked_or_tries path overwrite with hl | ⟨hs, htry⟩
    · rwa [perform, startFile_locked hl] at h
    · rw [perform, startFile_eq id order hs htry] at h
      cases hc : createFile (Ndfs.mkdirs (s.clearedTree path) (getParentDir path)).1 path with
      | none => rw [hc] at h; exact h
      | some t => rw [hc] at h; exact h
  | addBlock id order path =>
    refine .inr ⟨?_, by rintro ⟨⟩⟩
    by_cases hf : IsFile s.tree (splitPath path)
    · rwa [perform, addBlock_file hf] at h
    · rwa [perform, addBlock_not_file hf] at h
  | delete path =>
    refine .inr ⟨?_, by rintro ⟨⟩⟩
    rwa [perform, delete_eq] at h
  | checkLeases now order => exact .inr ⟨checkLeasesFrom_leases now _ s h, by rintro ⟨⟩⟩
  | blockReport dnName blocks =>
    refine .inr ⟨?_, by rintro ⟨⟩⟩
    rw [perform] at h
    unfold blockReport at h
    cases hl : s.datanodes.lookup dnName with
    | none => rwa [hl] at h
    | some dn => rwa [hl] at h
  | blockReceived dnName block delHint =>
    refine .inr ⟨?_, by rintro ⟨⟩⟩
    rw [perform] at h
    unfold blockReceived at h
    cases hl : s.datanodes.lookup dnName with
    | none => rwa [hl] at h
    | some dn => rwa [hl] at h
  | registerDataNode | heartbeat | mkdirs | enterSafeMode | updateSafeMode => exact .inr ⟨h, by rintro ⟨⟩⟩

/-! ## Runs -/

section Runs

variable {t : INode} {ops : List Operation}

/-- A lease that is granted after a call was granted by it, or the call has not made the node. -/
theorem Granted.last {c : List Bytes} {p : Bytes} {op : Operation} {expiry : Int64}
    (h : Granted t c p (ops ++ [op]) expiry) :
    (∃ now holder, op = .addLease now holder p) ∨ ¬ (after perform { tree := t } ops).Creates op c := by
  generalize hops : ops ++ [op] = all at h
  cases h with
  | made =>
    obtain ⟨-, hlast⟩ := List.append_inj' hops rfl
    exact .inl ⟨_, _, List.singleton_injective hlast⟩
  | stays _ hno _ =>
    obtain ⟨rfl, hlast⟩ := List.append_inj' hops rfl
    rw [List.singleton_injective hlast]
    exact .inr hno

/-- Every lease on record is under its own path, and if there is a node at that path, it was granted for that node. -/
def LeasesGranted (t : INode) (ops : List Operation) (s : FsNamesystem) : Prop :=
  ∀ p l, s.leases.lookup p = some l →
    l.path = p ∧ ((entryAt s.tree (splitPath p)).isSome → Granted t (splitPath p) p ops l.expiry)

/-- A call that makes no node under the path of a lease on record keeps it so. -/
theorem LeasesGranted.snoc {op : Operation} (ht : TreeOk (after perform { tree := t } ops).tree)
    (h : LeasesGranted t ops (after perform { tree := t } ops))
    (hop : (after perform { tree := t } ops).RespectsLeases op) :
    LeasesGranted t (ops ++ [op]) ((after perform { tree := t } ops).perform op) := by
  intro p l hl
  rcases perform_leases hl with ⟨now, holder, rfl, rfl⟩ | ⟨hold, hkeep⟩
  · exact ⟨rfl, fun hsome => .made rfl hsome⟩
  · obtain ⟨hpath, hgrant⟩ := h p l hold
    refine ⟨hpath, fun hsome => ?_⟩
    have hno : ¬ (after perform { tree := t } ops).Creates op (splitPath p) := fun hc =>
      hop.unleased _ (hc.mayCreate ht) ⟨p, l⟩ (AList.mem_lookup_iff.1 hold) (congrArg splitPath hpath)
    have hbefore : (entryAt (after perform { tree := t } ops).tree (splitPath p)).isSome :=
      Option.isSome_iff_ne_none.2 fun hnone => hno ⟨hsome, .inl hnone⟩
    exact .stays (hgrant hbefore) hno hkeep

/-- A check of leases that were all granted for what is there removes only that, unless it takes something along. -/
theorem LeasesGranted.check {s : FsNamesystem} (ht : TreeOk s.tree) (h : LeasesGranted t ops s) {now : Int64}
    {order : HashMap.Enumeration Bytes Lease} (hop : s.RespectsLeases (.checkLeases now order)) {c : List Bytes}
    (hsome : (entryAt s.tree c).isSome) (hgone : entryAt (s.checkLeases now order).tree c = none) :
    ∃ p expiry, Granted t c p ops expiry ∧ expiry < now := by
  rcases checkLeasesFrom_entryAt now (order.entries s.leases) ht c with ⟨-, e, he, hexp⟩ | ⟨hsame, -⟩
  · have hrem : s.Removes (.checkLeases now order) c := ⟨e, (order.perm s.leases).mem_iff.1 he, hexp⟩
    obtain ⟨⟨p, l⟩, hmem, hexpired, rfl⟩ := hop.expired now order rfl c hrem hsome
    obtain ⟨rfl, hgrant⟩ := h p l (AList.mem_lookup_iff.2 hmem)
    exact ⟨l.path, l.expiry, hgrant hsome, hexpired⟩
  · rw [checkLeases, hsame] at hgone
    rw [hgone] at hsome; cases hsome

/-- In a run whose calls respect the leases on record, an expired lease removes only what it was granted for. -/
theorem removesOnlyGranted (hstart : Reachable { tree := t })
    (h : ∀ pre op, pre ++ [op] <+: ops → (after perform { tree := t } pre).RespectsLeases op) :
    RemovesOnlyGranted t ops := by
  have hinv : ∀ pre, pre <+: ops → LeasesGranted t pre (after perform { tree := t } pre) := by
    refine @after_invariant _ _ perform { tree := t } (LeasesGranted t) ops nofun ?_
    exact fun pre op hpre hgranted => hgranted.snoc (hstart.after pre).tree_ok (h pre op hpre)
  intro pre now order hpre c hsome hgone
  exact (hinv pre ((List.prefix_append pre _).trans hpre)).check (hstart.after pre).tree_ok (h pre _ hpre) hsome hgone

/-- A file with a lease that expires. -/
def expiredLease : List Operation :=
  [announce (bytes "a") 1, .startFile 7 .insertion (bytes "/f") false, .addLease 0 (bytes "c") (bytes "/f"),
    .checkLeases 61 .insertion]

theorem removesOnlyGranted_expiredLease : RemovesOnlyGranted emptyTree expiredLease := by
  refine removesOnlyGranted .fresh (@forall_snoc_of_take _
    (fun pre op => (after perform { tree := emptyTree } pre).RespectsLeases op) _ ?_)
  rintro i hi op hop
  match i with
  | 0 =>
    cases hop
    exact ⟨nofun, nofun⟩
  | 1 =>
    cases hop
    exact ⟨fun c _ => nofun, nofun⟩
  | 2 =>
    cases hop
    exact ⟨nofun, nofun⟩
  | 3 =>
    cases hop
    refine ⟨nofun, ?_⟩
    rintro now order heq c ⟨e, he, -, -, hpre⟩ hsome
    obtain ⟨rfl, rfl⟩ := Operation.checkLeases.inj heq
    obtain rfl : e = ⟨bytes "/f", ⟨bytes "c", bytes "/f", 60⟩⟩ := List.mem_singleton.1 he
    refine ⟨_, he, by decide, ?_⟩
    by_contra hne
    have htree : TreeOk (after perform {} (expiredLease.take 3)).tree := tree_ok_after _
    have hfile : IsFile (after perform {} (expiredLease.take 3)).tree (splitPath (bytes "/f")) :=
      ⟨[7], by decide +kernel⟩
    have hnone := entryAt_below_file htree.nodes hfile hpre hne
    rw [hnone] at hsome
    cases hsome
  | i + 4 => cases hop

/-- The run that goes wrong: the file with the lease is deleted and made again. -/
def staleLease : List Operation :=
  [announce (bytes "a") 1, .startFile 7 .insertion (bytes "/f") false, .addLease 0 (bytes "c") (bytes "/f"),
    .delete (bytes "/f"), .startFile 8 .insertion (bytes "/f") false, .checkLeases 61 .insertion]

/-- A lease that has outlived its file removes the next file at the path. -/
theorem stale_lease_removes_file : ¬ ∀ t ops, Reachable { tree := t } → NonDecreasing ops → RemovesOnlyGranted t ops := by
  intro h
  obtain ⟨p, expiry, hgranted, -⟩ := h emptyTree staleLease .fresh (by decide +kernel) (staleLease.take 5) 61 .insertion
    (List.prefix_refl _) [bytes "f"] (by decide +kernel) (by decide +kernel)
  -- the last call before the check has made the file anew
  have hcreates : (after perform { tree := emptyTree } (staleLease.take 4)).Creates
      (.startFile 8 .insertion (bytes "/f") false) [bytes "f"] := ⟨by decide +kernel, .inl (by decide +kernel)⟩
  have hlast : Granted emptyTree [bytes "f"] p
      (staleLease.take 4 ++ [.startFile 8 .insertion (bytes "/f") false]) expiry := hgranted
  rcases hlast.last with ⟨now, holder, heq⟩ | hno
  · cases heq
  · exact hno hcreates

end Runs

end FsNamesystem

end MiniHadoop.Ndfs

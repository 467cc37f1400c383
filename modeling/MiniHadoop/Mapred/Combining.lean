/-
A job with a combiner (`JobTracker::SubmitJob` and `RunJob`). The combiner is made and never called: the values of a
key are summed instead, whatever the combiner would have made of them. So the job writes what it writes without a
combiner exactly as far as the reducer makes the same of the values of the keys and of their sums.
-/
import MiniHadoop.Mapred.JobTracker

namespace MiniHadoop.Mapred

open Text

/-! ## Groups and their records -/

/-- The records of groups. -/
def expand (groups : List (Bytes × List Int64)) : List Record := groups.flatMap fun g => g.2.map fun v => (g.1, v)

/-- The records of groups with ascending keys are grouped as they were. -/
theorem groupRuns_expand : ∀ {groups : List (Bytes × List Int64)}, groups.Pairwise (fun a b => a.1 < b.1) →
    (∀ g ∈ groups, g.2 ≠ []) → groupRuns (expand groups) = groups
  | [], _, _ => rfl
  | (key, values) :: groups, h, hne => by
    obtain ⟨hfirst, hrest⟩ := List.pairwise_cons.1 h
    have ih := groupRuns_expand hrest fun g hg => hne g (List.mem_cons_of_mem _ hg)
    have hgroup : ∀ values : List Int64, values ≠ [] →
        groupRuns (values.map (fun v => (key, v)) ++ expand groups) = (key, values) :: groups := by
      intro values
      induction values with
      | nil => exact absurd rfl
      | cons v values ihv =>
        intro _
        rw [List.map_cons, List.cons_append, groupRuns]
        by_cases hempty : values = []
        · subst hempty
          rw [List.map_nil, List.nil_append, ih]
          cases groups with
          | nil => rfl
          | cons g groups =>
            have hlt : key ≠ g.1 := fun heq => List.lt_irrefl g.1 (heq ▸ hfirst g (List.mem_cons_self ..))
            exact if_neg hlt
        · rw [ihv hempty]
          exact if_pos rfl
    exact hgroup values (hne _ (List.mem_cons_self ..))

/-- Every run of equal keys has a value. -/
theorem groupRuns_ne_nil : ∀ (rs : List Record), ∀ g ∈ groupRuns rs, g.2 ≠ []
  | [], g, hg => absurd hg List.not_mem_nil
  | (key, v) :: rs, g, hg => by
    have ih := groupRuns_ne_nil rs
    rw [groupRuns] at hg
    cases hgroups : groupRuns rs with
    | nil =>
      rw [hgroups] at hg
      rw [List.mem_singleton.1 hg]
      exact List.cons_ne_nil _ _
    | cons first groups =>
      rw [hgroups] at hg ih
      simp only at hg
      split at hg
      · rcases List.mem_cons.1 hg with rfl | hg
        · exact List.cons_ne_nil _ _
        · exact ih g (List.mem_cons_of_mem _ hg)
      · rcases List.mem_cons.1 hg with rfl | hg
        · exact List.cons_ne_nil _ _
        · exact ih g hg

/-- Groups with the sum of the values as the only value. -/
def summed (groups : List (Bytes × List Int64)) : List (Bytes × List Int64) := groups.map fun g => (g.1, [g.2.sum])

/-- The records that the block for a combiner makes of a sorted partition are grouped into sums. -/
theorem groupRuns_combine {part : List Record} (h : KeySorted part) :
    groupRuns (JobTracker.combine part) = summed (groupRuns part) := by
  have hkeys := (grouped_groupRuns h).keys
  have hexpand : JobTracker.combine part = expand (summed (groupRuns part)) := by
    rw [JobTracker.combine, expand, summed, List.flatMap_map]
    exact List.map_eq_flatMap
  rw [hexpand, groupRuns_expand]
  · rw [summed, List.pairwise_map]
    exact (List.pairwise_map.1 hkeys)
  · intro g hg
    obtain ⟨g', -, rfl⟩ := List.mem_map.1 hg
    exact List.cons_ne_nil _ _

/-! ## Jobs -/

namespace JobTracker

/-- `SubmitJob`: of the combiner only that there is one matters to `RunJob`. -/
def submitJob (config : JobConfig) (mapper : Mapper) (reducer : Reducer) (combiner : Option Combiner) : JobTracker :=
  { config, mapper, reducer, combiner := combiner.isSome }

/-- The output file after `RunJob()`. -/
def outputFile (jt : JobTracker) (hash : Bytes → UInt64) (sort : KeySort) (files : HashMap Bytes Bytes) :
    Option Bytes :=
  (jt.runJob hash sort files).lookup jt.config.outputPath

/-- The keys that the mapper emits for the input in the files, each with all its values, in the order of the
partitions and of the sort. -/
def groupsOf (config : JobConfig) (mapper : Mapper) (hash : Bytes → UInt64) (sort : KeySort)
    (files : HashMap Bytes Bytes) : List (Bytes × List Int64) :=
  (List.range config.numReduceTasks).flatMap fun p => groupRuns (sort.sort (partition hash config.numReduceTasks
    (mapper.mapAll mapper.fresh (textRecords (files.lookup config.inputPath))) p))

/-- A reducer, as a function of its arguments, writes the same for the groups and for their sums. -/
def WritesAlike (f : Bytes → List Int64 → List Record) (groups : List (Bytes × List Int64)) : Prop :=
  outputText (sortRecords (groups.flatMap fun g => f g.1 g.2)) =
    outputText (sortRecords ((summed groups).flatMap fun g => f g.1 g.2))

/-- It is enough that it gives the same records, key by key. -/
theorem WritesAlike.of_keys {f : Bytes → List Int64 → List Record} {groups : List (Bytes × List Int64)}
    (h : ∀ g ∈ groups, (f g.1 g.2).Perm (f g.1 [g.2.sum])) : WritesAlike f groups := by
  rw [WritesAlike, summed, List.flatMap_map]
  exact congrArg outputText (sortRecords_eq_of_perm (List.Perm.flatMap_left _ h))

theorem writesAlike_congr {f : Bytes → List Int64 → List Record} {groups groups' : List (Bytes × List Int64)}
    (h : groups.Perm groups') : WritesAlike f groups ↔ WritesAlike f groups' := by
  have hsummed : (summed groups).Perm (summed groups') := h.map _
  rw [WritesAlike, WritesAlike, sortRecords_eq_of_perm (h.flatMap_right _),
    sortRecords_eq_of_perm (hsummed.flatMap_right _)]

/-- A file tells its records, when no key goes over the end of a line: the value follows the last tab of its line. -/
theorem outputText_injective : ∀ {rs rs' : List Record}, (∀ r ∈ rs, lineEnd ∉ r.1) → (∀ r ∈ rs', lineEnd ∉ r.1) →
    outputText rs = outputText rs' → rs = rs'
  | [], [], _, _, _ => rfl
  | [], (key, value) :: rs', _, _, heq => by simp [outputText, bytes] at heq
  | (key, value) :: rs, [], _, _, heq => by simp [outputText, bytes] at heq
  | (key, value) :: rs, (key', value') :: rs', h, h', heq => by
    obtain ⟨hkey, hrs⟩ := List.forall_mem_cons.1 h
    obtain ⟨hkey', hrs'⟩ := List.forall_mem_cons.1 h'
    have hline : ∀ (key : Bytes) (value : Int64) (rest : List Record),
        outputText ((key, value) :: rest) = (key ++ 9 :: toStr value) ++ lineEnd :: outputText rest := by
      intro key value rest
      rw [outputText, show bytes "\n" = [lineEnd] from rfl, show bytes "\t" = [9] from rfl]
      simp
    have hnone : ∀ (key : Bytes) (value : Int64), lineEnd ∉ key → lineEnd ∉ key ++ 9 :: toStr value := by
      intro key value hkey hmem
      rcases List.mem_append.1 hmem with hmem | hmem
      · exact hkey hmem
      · rcases List.mem_cons.1 hmem with htab | hmem
        · exact absurd htab (by decide)
        · exact absurd (of_mem_toStr hmem).1 (by decide)
    have htab : ∀ value : Int64, (9 : UInt8) ∉ toStr value := fun value hmem => absurd (of_mem_toStr hmem).1 (by decide)
    rw [hline, hline] at heq
    have hlines := congrArg (getlines lineEnd) heq
    rw [getlines_append (hnone key value hkey), getlines_append (hnone key' value' hkey')] at hlines
    have hfirst : key ++ 9 :: toStr value = key' ++ 9 :: toStr value' := (List.cons.inj hlines).1
    have hplace := congrArg (rfind 9) hfirst
    rw [rfind_append (htab value), rfind_append (htab value')] at hplace
    obtain ⟨rfl, hvalue⟩ := List.append_inj hfirst (Option.some.inj hplace)
    obtain rfl := toStr_injective (List.cons.inj hvalue).2
    have hrest := (List.cons.inj (List.append_cancel_left heq)).2
    rw [outputText_injective hrs hrs' hrest]

section Lines

variable {f : Bytes → List Int64 → List Record} (hlines : ∀ key values, ∀ r ∈ f key values, lineEnd ∉ r.1)

include hlines

/-- A reducer whose keys hold no line ends writes the same exactly when it gives the same records. -/
theorem writesAlike_iff_perm (groups : List (Bytes × List Int64)) : WritesAlike f groups ↔
    (groups.flatMap fun g => f g.1 g.2).Perm ((summed groups).flatMap fun g => f g.1 g.2) := by
  have hnone : ∀ groups : List (Bytes × List Int64), ∀ r ∈ sortRecords (groups.flatMap fun g => f g.1 g.2),
      lineEnd ∉ r.1 := by
    intro groups r hr
    obtain ⟨g, -, hr⟩ := List.mem_flatMap.1 ((List.perm_insertionSort RecordLe _).mem_iff.1 hr)
    exact hlines g.1 g.2 r hr
  constructor
  · intro h
    have hsorted := outputText_injective (hnone groups) (hnone (summed groups)) h
    have hperm := List.perm_insertionSort RecordLe (groups.flatMap fun g => f g.1 g.2)
    exact hperm.symm.trans ((List.Perm.of_eq hsorted).trans (List.perm_insertionSort RecordLe _))
  · intro h
    exact congrArg outputText (sortRecords_eq_of_perm h)

/-- It does so for all groups exactly when it gives for every key the same records for some values as for their sum. -/
theorem writesAlike_all_iff : (∀ groups : List (Bytes × List Int64), (groups.map (·.1)).Nodup →
      (∀ g ∈ groups, g.2 ≠ []) → WritesAlike f groups) ↔
    ∀ key values, values ≠ [] → (f key values).Perm (f key [values.sum]) := by
  constructor
  · intro h key values hne
    have hone := h [(key, values)] (List.nodup_singleton key) fun g hg => by rw [List.mem_singleton.1 hg]; exact hne
    have hperm := (writesAlike_iff_perm hlines _).1 hone
    simpa [summed] using hperm
  · intro h groups _ hne
    exact WritesAlike.of_keys fun g hg => h g.1 g.2 (hne g hg)

end Lines

section Files

variable {config : JobConfig} {mapper : Mapper} {reducer : Reducer} {f : Bytes → List Int64 → List Record}
  {hash : Bytes → UInt64} {sort : KeySort} {files : HashMap Bytes Bytes}

theorem outputFile_eq (jt : JobTracker) : jt.outputFile hash sort files =
    some (jt.output hash sort (textRecords (files.lookup jt.config.inputPath))) := by
  rw [outputFile, runJob, HashMap.lookup_insert_eq, if_pos rfl]

/-- Without a combiner the reducer is called for the groups. -/
theorem calls_without : (submitJob config mapper reducer none).calls hash sort
    (textRecords (files.lookup config.inputPath)) = groupsOf config mapper hash sort files := by
  rw [calls, mapPhase_eq rfl, List.flatMap_map]
  rfl

/-- With a combiner, any combiner, it is called for their sums. -/
theorem calls_with (C : Combiner) : (submitJob config mapper reducer (some C)).calls hash sort
    (textRecords (files.lookup config.inputPath)) = summed (groupsOf config mapper hash sort files) := by
  have hphase : (submitJob config mapper reducer (some C)).mapPhase hash sort
      (textRecords (files.lookup config.inputPath)) =
      ((submitJob config mapper reducer none).mapPhase hash sort
        (textRecords (files.lookup config.inputPath))).map combine := rfl
  rw [calls, hphase, mapPhase_eq rfl, List.map_map, List.flatMap_map, groupsOf, summed, List.map_flatMap]
  exact List.flatMap_congr fun p _ => groupRuns_combine (sort.sorted _)

theorem output_pure (hf : reducer.Pure f) (combiner : Option Combiner) :
    (submitJob config mapper reducer combiner).outputFile hash sort files =
      some (outputText (sortRecords (((submitJob config mapper reducer combiner).calls hash sort
        (textRecords (files.lookup config.inputPath))).flatMap fun g => f g.1 g.2))) := by
  rw [outputFile_eq, output, allResults_eq]
  exact congrArg (fun rs => some (outputText (sortRecords rs))) (Reducer.reduceAll_pure hf _ _)

/-- One job: the combiner leaves the file as it is exactly when the reducer writes the same for the groups and for their
sums. -/
theorem sameFile_iff (hf : reducer.Pure f) (C : Combiner) :
    (submitJob config mapper reducer (some C)).outputFile hash sort files =
      (submitJob config mapper reducer none).outputFile hash sort files ↔
    WritesAlike f (groupsOf config mapper hash sort files) := by
  rw [output_pure hf, output_pure hf, calls_with, calls_without, Option.some.injEq, eq_comm]
  rfl

theorem groupsOf_nodup (hreduces : 1 ≤ config.numReduceTasks) :
    ((groupsOf config mapper hash sort files).map (·.1)).Nodup := by
  have hcalls := (@calls_exact (submitJob config mapper ⟨Unit, (), fun _ _ _ => ((), [])⟩ none) rfl hreduces hash sort
    (textRecords (files.lookup config.inputPath))).1
  rwa [calls_without] at hcalls

theorem groupsOf_ne_nil : ∀ g ∈ groupsOf config mapper hash sort files, g.2 ≠ [] := by
  intro g hg
  obtain ⟨p, -, hg⟩ := List.mem_flatMap.1 hg
  exact groupRuns_ne_nil _ g hg

end Files

/-! ## Every job -/

/-- The order of entries by their keys. -/
def KeyLe {β : Type} (a b : Bytes × β) : Prop := a.1 ≤ b.1

instance {β : Type} : DecidableRel (@KeyLe β) := fun a b => inferInstanceAs (Decidable (a.1 ≤ b.1))

instance {β : Type} : Std.Total (@KeyLe β) := ⟨fun a b => List.le_total a.1 b.1⟩

instance {β : Type} : IsTrans (Bytes × β) KeyLe := ⟨fun _ _ _ => List.le_trans⟩

/-- A sort by insertion, which compares keys only. -/
def keySort : KeySort where
  sort := List.insertionSort KeyLe
  perm := List.perm_insertionSort KeyLe
  sorted := List.pairwise_insertionSort KeyLe

/-- A mapper that emits the same records for every line. -/
def emits (rs : List Record) : Mapper := { State := Unit, fresh := (), map := fun _ _ _ => ((), rs) }

/-- A file of one empty line. -/
def oneLine : HashMap Bytes Bytes := AList.insert (bytes "in") [lineEnd] ∅

def oneReduce : JobConfig := { inputPath := bytes "in", outputPath := bytes "out", numReduceTasks := 1 }

theorem keySorted_expand {groups : List (Bytes × List Int64)} (h : groups.Pairwise fun a b => a.1 < b.1) :
    (expand groups).Pairwise KeyLe := by
  rw [expand, List.pairwise_flatMap]
  refine ⟨fun g _ => List.pairwise_map.2 (List.pairwise_of_forall fun _ _ => List.le_refl g.1), ?_⟩
  refine h.imp fun hlt a ha b hb => ?_
  obtain ⟨_, -, rfl⟩ := List.mem_map.1 ha
  obtain ⟨_, -, rfl⟩ := List.mem_map.1 hb
  exact List.le_of_lt hlt

/-- What a mapper of this kind emits for the one line is grouped as it is, when its keys ascend. -/
theorem groupsOf_emits {groups : List (Bytes × List Int64)} (h : groups.Pairwise fun a b => a.1 < b.1)
    (hne : ∀ g ∈ groups, g.2 ≠ []) :
    groupsOf oneReduce (emits (expand groups)) (fun _ => 0) keySort oneLine = groups := by
  have hrecords : textRecords (oneLine.lookup oneReduce.inputPath) = [(0, [])] := by decide
  have hmapped : (emits (expand groups)).mapAll (emits (expand groups)).fresh [(0, [])] = expand groups :=
    List.append_nil _
  have hpart : partition (fun _ => 0) oneReduce.numReduceTasks (expand groups) 0 = expand groups :=
    List.filter_eq_self.2 fun r _ => decide_eq_true (Nat.mod_one _)
  have hsort : keySort.sort (expand groups) = expand groups := (keySorted_expand h).insertionSort_eq
  rw [groupsOf, hrecords, hmapped]
  show groupRuns (keySort.sort (partition (fun _ => 0) oneReduce.numReduceTasks (expand groups) 0)) ++ [] = groups
  rw [List.append_nil, hpart, hsort, groupRuns_expand h hne]

/-- Any groups come up in a job. -/
theorem exists_job {groups : List (Bytes × List Int64)} (hnodup : (groups.map (·.1)).Nodup)
    (hne : ∀ g ∈ groups, g.2 ≠ []) :
    ∃ rs, (groupsOf oneReduce (emits rs) (fun _ => 0) keySort oneLine).Perm groups := by
  have hperm := List.perm_insertionSort KeyLe groups
  have hascending : (groups.insertionSort KeyLe).Pairwise fun a b => a.1 < b.1 :=
    keys_ascend (List.pairwise_insertionSort KeyLe groups) ((hperm.map (·.1)).nodup_iff.2 hnodup)
  refine ⟨expand (groups.insertionSort KeyLe), ?_⟩
  rw [groupsOf_emits hascending fun g hg => hne g (hperm.mem_iff.1 hg)]
  exact hperm

/-- With the combiner every job of the reducer writes what it writes without one. -/
def Transparent (reducer : Reducer) (C : Combiner) : Prop :=
  ∀ config mapper g hash sort files, mapper.Pure g → 1 ≤ config.numReduceTasks →
    (submitJob config mapper reducer (some C)).outputFile hash sort files =
      (submitJob config mapper reducer none).outputFile hash sort files

theorem transparent_iff {reducer : Reducer} {f : Bytes → List Int64 → List Record} (hf : reducer.Pure f)
    (C : Combiner) : Transparent reducer C ↔
      ∀ groups : List (Bytes × List Int64), (groups.map (·.1)).Nodup → (∀ g ∈ groups, g.2 ≠ []) →
        WritesAlike f groups := by
  constructor
  · intro h groups hnodup hne
    obtain ⟨rs, hperm⟩ := exists_job hnodup hne
    have hsame := h oneReduce (emits rs) (fun _ _ => rs) (fun _ => 0) keySort oneLine (fun _ _ _ => rfl) (le_refl 1)
    exact (writesAlike_congr hperm).1 ((sameFile_iff hf C).1 hsame)
  · intro h config mapper g hash sort files _ hreduces
    exact (sameFile_iff hf C).2 (h _ (groupsOf_nodup hreduces) groupsOf_ne_nil)

/-- A combiner leaves the file of one job as it is exactly when the reducer writes the same for the groups and for their
sums; and that of every job exactly when the reducer does so for all groups, which is when it gives for every key the
same records for some values as for their sum, if its keys hold no line ends. What the combiner would emit plays no
part. -/
theorem combiner_transparent_iff {reducer : Reducer} {f : Bytes → List Int64 → List Record} (hf : reducer.Pure f)
    (C : Combiner) :
    (∀ config mapper hash sort files,
      ((submitJob config mapper reducer (some C)).outputFile hash sort files =
          (submitJob config mapper reducer none).outputFile hash sort files ↔
        WritesAlike f (groupsOf config mapper hash sort files))) ∧
    (Transparent reducer C ↔
      ∀ groups : List (Bytes × List Int64), (groups.map (·.1)).Nodup → (∀ g ∈ groups, g.2 ≠ []) →
        WritesAlike f groups) ∧
    ((∀ key values, ∀ r ∈ f key values, lineEnd ∉ r.1) →
      (Transparent reducer C ↔ ∀ key values, values ≠ [] → (f key values).Perm (f key [values.sum]))) := by
  refine ⟨fun config mapper hash sort files => sameFile_iff hf C, transparent_iff hf C, fun hlines => ?_⟩
  exact (transparent_iff hf C).trans (writesAlike_all_iff hlines)

/-- The largest of some values, under their key. -/
def largest (key : Bytes) (values : List Int64) : List Record :=
  [(key, values.tail.foldl (fun a b => if a < b then b else a) (values.headD 0))]

def largestReducer : Reducer where
  State := Unit
  fresh := ()
  reduce _ key values := ((), largest key values)

def largestCombiner : Combiner where
  State := Unit
  fresh := ()
  combine _ key values := ((), largest key values)

theorem combiner_transparent_iff_largest :
    (∀ config mapper hash sort files,
      ((submitJob config mapper largestReducer (some largestCombiner)).outputFile hash sort files =
          (submitJob config mapper largestReducer none).outputFile hash sort files ↔
        WritesAlike largest (groupsOf config mapper hash sort files))) ∧
    (Transparent largestReducer largestCombiner ↔
      ∀ groups : List (Bytes × List Int64), (groups.map (·.1)).Nodup → (∀ g ∈ groups, g.2 ≠ []) →
        WritesAlike largest groups) ∧
    ((∀ key values, ∀ r ∈ largest key values, lineEnd ∉ r.1) →
      (Transparent largestReducer largestCombiner ↔
        ∀ key values, values ≠ [] → (largest key values).Perm (largest key [values.sum]))) :=
  combiner_transparent_iff (fun _ _ _ => rfl) largestCombiner

/-- The largest of 1 and 1 is 1, also when a combiner is to find it; the job with the combiner writes 2. -/
theorem combiner_not_transparent : ¬ ∀ (mapper : Mapper) (g : Int64 → Bytes → List Record) (reducer : Reducer)
    (C : Combiner) (f c : Bytes → List Int64 → List Record), mapper.Pure g → reducer.Pure f → C.Pure c →
    (∀ key values, values ≠ [] → (∀ r ∈ c key values, r.1 = key) ∧ f key values = f key ((c key values).map (·.2))) →
    ∀ config hash sort files, 1 ≤ config.numReduceTasks →
      (submitJob config mapper reducer (some C)).outputFile hash sort files =
        (submitJob config mapper reducer none).outputFile hash sort files := by
  intro h
  have hlargest : ∀ key values, values ≠ [] → (∀ r ∈ largest key values, r.1 = key) ∧
      largest key values = largest key ((largest key values).map (·.2)) := by
    intro key values _
    refine ⟨fun r hr => ?_, rfl⟩
    rw [List.mem_singleton.1 hr]
  have hsame := h (emits [(bytes "a", 1), (bytes "a", 1)]) _ largestReducer largestCombiner largest largest
    (fun _ _ _ => rfl) (fun _ _ _ => rfl) (fun _ _ _ => rfl) hlargest oneReduce (fun _ => 0) keySort oneLine (le_refl 1)
  exact absurd hsame (by decide)

end JobTracker

end MiniHadoop.Mapred

/-
The word count (`mapred/examples/wordcount.h`) as a job of the JobTracker. The mapper reads the words of each line,
which are those of the text; the reducer, with or without a combiner, sums the ones of each word. So the file has a
line for every word of the text, in the order of the words, with the number of its occurrences.
-/
import MiniHadoop.Base.Words
import MiniHadoop.Mapred.Combining
import MiniHadoop.Mapred.CombiningCollector

namespace MiniHadoop.Mapred

open Text Words Runs

/-! ## The program -/

/-- Each word the mapper takes from a line leaves less of it. -/
theorem token_length {s w rest : Bytes} (h : token s = (w, rest)) (hw : w ≠ []) : rest.length < s.length := by
  rcases words_firstWord h with ⟨hnil, -⟩ | ⟨-, -, hlt⟩
  · exact absurd hnil hw
  · exact hlt

/-- The loop `while (iss >> word) output.Collect(UTF8(word), LongWritable(1))`. -/
def collectWords (iss : Bytes) : List Record :=
  match _h : token iss with
  | ([], _) => []
  | (b :: word, rest) => (b :: word, 1) :: collectWords rest
termination_by iss.length
decreasing_by exact token_length _h (List.cons_ne_nil b word)

/-- The loop `for (const auto& v : values) sum += v.Get()`. -/
def sumOf (values : List Int64) : Int64 := values.foldl (fun sum v => sum + v) 0

/-- `class WordCountMapper`. -/
def wordCountMapper : Mapper where
  State := Unit
  fresh := ()
  map _ _ value := ((), collectWords value)

/-- `class WordCountReducer`. -/
def wordCountReducer : Reducer where
  State := Unit
  fresh := ()
  reduce _ key values := ((), [(key, sumOf values)])

/-- `class WordCountCombiner`. -/
def wordCountCombiner : Combiner where
  State := Unit
  fresh := ()
  combine _ key values := ((), [(key, sumOf values)])

/-! ## The combiner on the map side -/

theorem sumOf_eq (values : List Int64) : sumOf values = values.sum := List.sum_eq_foldl.symm

/-- A collector with the combiner of the word count has the sums of what was collected, after any calls. -/
theorem totals_wordCountCombiner (combiner : Option wordCountCombiner.State) (flushThreshold : Int32)
    (calls : List CombiningCollector.Call) :
    CombiningCollector.Totals calls
      (after CombiningCollector.perform ({ combiner, flushThreshold } : CombiningCollector wordCountCombiner) calls) := by
  have hpure : wordCountCombiner.Pure fun key values => [(key, values.sum)] := by
    intro _ key values
    exact congrArg (fun sum => [(key, sum)]) (sumOf_eq values)
  have hown : Combiner.OwnKeys fun key values => [(key, values.sum)] := by
    intro key values r hr
    rw [List.mem_singleton.1 hr]
  exact CombiningCollector.totals_of_keepsAll hpure hown
    (CombiningCollector.keepsAll_of_sum fun _ _ => rfl) combiner flushThreshold calls

/-! ## Words of lines -/

theorem collectWords_eq (s : Bytes) : collectWords s = (words isSpace s).map fun w => (w, 1) := by
  rw [collectWords]
  split
  · rename_i h
    rcases words_firstWord h with ⟨-, hnone⟩ | ⟨hne, -⟩
    · rw [hnone]; rfl
    · exact absurd rfl hne
  · rename_i b word rest h
    rcases words_firstWord h with ⟨hnil, -⟩ | ⟨-, hwords, hlt⟩
    · cases hnil
    · rw [hwords, List.map_cons, collectWords_eq rest]
termination_by s.length

/-- The words of the lines, one line after the other, are those of the text. -/
theorem words_getlinesFrom {d : UInt8} (hd : isSpace d = true) : ∀ s cur : Bytes,
    (getlinesFrom d cur s).flatMap (words isSpace) = words isSpace (cur ++ s)
  | [], cur => by
    rw [getlinesFrom, List.append_nil]
    split
    · rename_i hcur
      rw [hcur]; rfl
    · rw [List.flatMap_singleton]
  | b :: s, cur => by
    rw [getlinesFrom]
    split
    · rename_i hb
      rw [List.flatMap_cons, words_getlinesFrom hd s, hb, words_append hd]
      rfl
    · rw [words_getlinesFrom hd s, List.append_assoc]
      rfl

theorem words_getlines {d : UInt8} (hd : isSpace d = true) (s : Bytes) :
    (getlines d s).flatMap (words isSpace) = words isSpace s := words_getlinesFrom hd s []

/-- The mapper emits a one for every word of the text. -/
theorem mapAll_text (text : Bytes) :
    wordCountMapper.mapAll wordCountMapper.fresh (textRecords (some text)) =
      (words isSpace text).map fun w => (w, 1) := by
  have hpure : wordCountMapper.Pure fun _ value => (words isSpace value).map fun w => (w, 1) :=
    fun _ _ value => collectWords_eq value
  have hlines : (textRecords (some text)).map (·.2) = getlines lineEnd text := map_recordsFrom _ 0
  rw [Mapper.mapAll_pure hpure, ← words_getlines (show isSpace lineEnd = true from rfl) text, ← hlines,
    List.flatMap_map, List.map_flatMap]

/-! ## Ones -/

theorem valuesOf_ones (key : Bytes) (ws : List Bytes) :
    valuesOf key (ws.map fun w => (w, 1)) = List.replicate (ws.count key) 1 := by
  have hfilter : ((fun r : Record => decide (r.1 = key)) ∘ fun w : Bytes => (w, 1)) = (· == key) := by
    funext w
    exact (beq_eq_decide w key).symm
  rw [valuesOf, List.filter_map, hfilter, List.map_map, List.count_eq_length_filter]
  exact List.map_const' ..

theorem sum_ones : ∀ n : Nat, (List.replicate n (1 : Int64)).sum = Int64.ofNat n
  | 0 => rfl
  | n + 1 => by
    rw [List.replicate_succ, List.sum_cons, sum_ones n, Int64.ofNat_add, Int64.add_comm]
    rfl

/-- A count below the limit of `int64_t` is written with its digits. -/
theorem toStr_ofNat {n : Nat} (h : n < 2 ^ 63) : toStr (Int64.ofNat n) = decimal n := by
  have hint : (Int64.ofNat n).toInt = n := Int64.toInt_ofNat_of_lt h
  rw [toStr, hint, if_neg (by omega), Int.natAbs_natCast]

/-! ## The job -/

namespace JobTracker

/-- The line `word TAB count`. -/
def countLine (e : Bytes × Nat) : Bytes := e.1 ++ bytes "\t" ++ decimal e.2 ++ bytes "\n"

/-- Records of counts, one for each key that is counted, are written as a line for each of the keys in ascending
order. -/
theorem outputText_counts {count : Bytes → Nat} {rs : List Record} (hnodup : (rs.map (·.1)).Nodup)
    (hkeys : ∀ w, w ∈ rs.map (·.1) ↔ 0 < count w) (hvalues : ∀ r ∈ rs, r.2 = Int64.ofNat (count r.1))
    (hlt : ∀ w, count w < 2 ^ 63) :
    ∃ entries : List (Bytes × Nat), entries.Pairwise (fun a b => a.1 < b.1) ∧
      (∀ w n, (w, n) ∈ entries ↔ 0 < n ∧ n = count w) ∧ outputText (sortRecords rs) = entries.flatMap countLine := by
  have hperm : (sortRecords rs).Perm rs := List.perm_insertionSort RecordLe rs
  have hascending := keys_ascend (keySorted_sortRecords rs) ((hperm.map (·.1)).nodup_iff.2 hnodup)
  refine ⟨(sortRecords rs).map fun r => (r.1, count r.1), List.pairwise_map.2 hascending, fun w n => ⟨?_, ?_⟩, ?_⟩
  · intro hentry
    obtain ⟨r, hr, heq⟩ := List.mem_map.1 hentry
    cases heq
    exact ⟨(hkeys r.1).1 (List.mem_map_of_mem (hperm.mem_iff.1 hr)), rfl⟩
  · rintro ⟨hpos, rfl⟩
    obtain ⟨r, hr, rfl⟩ := List.mem_map.1 ((hkeys w).2 hpos)
    exact List.mem_map.2 ⟨r, hperm.mem_iff.2 hr, rfl⟩
  · rw [outputText_eq, List.flatMap_map]
    refine List.flatMap_congr fun r hr => ?_
    rw [hvalues r (hperm.mem_iff.1 hr), toStr_ofNat (hlt r.1), countLine]

section Job

variable {config : JobConfig} {hash : Bytes → UInt64} {sort : KeySort} {files : HashMap Bytes Bytes} {text : Bytes}

/-- With or without a combiner, the sums of the groups are sorted and written. -/
theorem outputFile_wordCount (combiner : Option Combiner) :
    (submitJob config wordCountMapper wordCountReducer combiner).outputFile hash sort files =
      some (outputText (sortRecords
        ((groupsOf config wordCountMapper hash sort files).map fun g => (g.1, g.2.sum)))) := by
  have hpure : wordCountReducer.Pure fun key values => [(key, values.sum)] := by
    intro _ key values
    exact congrArg (fun sum => [(key, sum)]) (sumOf_eq values)
  have hwithout : (submitJob config wordCountMapper wordCountReducer none).outputFile hash sort files =
      some (outputText (sortRecords
        ((groupsOf config wordCountMapper hash sort files).map fun g => (g.1, g.2.sum)))) := by
    rw [output_pure hpure, calls_without, ← List.map_eq_flatMap]
  cases combiner with
  | none => exact hwithout
  | some C =>
    rw [← hwithout]
    refine (sameFile_iff hpure C).2 (WritesAlike.of_keys fun g _ => ?_)
    rw [List.sum_singleton]

/-- The groups are the words of the text, each with its ones. -/
theorem groupsOf_wordCount (hreduces : 1 ≤ config.numReduceTasks) (hfile : files.lookup config.inputPath = some text) :
    (∀ w, w ∈ (groupsOf config wordCountMapper hash sort files).map (·.1) ↔ w ∈ words isSpace text) ∧
      ∀ g ∈ groupsOf config wordCountMapper hash sort files, g.2.sum = Int64.ofNat (occurrences isSpace text g.1) := by
  obtain ⟨-, hmem, hvalues⟩ := @calls_exact (submitJob config wordCountMapper wordCountReducer none) rfl hreduces hash
    sort (textRecords (files.lookup config.inputPath))
  have hmapped : (submitJob config wordCountMapper wordCountReducer none).mapper.mapAll
      (submitJob config wordCountMapper wordCountReducer none).mapper.fresh
      (textRecords (files.lookup config.inputPath)) = (words isSpace text).map fun w => (w, 1) := by
    rw [hfile]
    exact mapAll_text text
  rw [calls_without] at hmem hvalues
  refine ⟨fun w => ?_, fun g hg => ?_⟩
  · rw [hmem w, hmapped, List.map_map]
    simp
  · have hones := hvalues g hg
    rw [hmapped, valuesOf_ones, List.perm_replicate, count_words] at hones
    rw [hones, sum_ones]

/-- The word count, with any combiner or with none, writes a line for every word of the text, that is for every maximal
run of bytes that are no white space, with the number of its occurrences, in the ascending order of the words. -/
theorem wordCount_correct (hreduces : 1 ≤ config.numReduceTasks) (hfile : files.lookup config.inputPath = some text)
    (hcounts : ∀ w, occurrences isSpace text w < 2 ^ 63) (combiner : Option Combiner) :
    ∃ entries : List (Bytes × Nat), entries.Pairwise (fun a b => a.1 < b.1) ∧
      (∀ w n, (w, n) ∈ entries ↔ 0 < n ∧ n = occurrences isSpace text w) ∧
      (submitJob config wordCountMapper wordCountReducer combiner).outputFile hash sort files =
        some (entries.flatMap countLine) := by
  obtain ⟨hmem, hsum⟩ := @groupsOf_wordCount config hash sort files text hreduces hfile
  have hkeys : ((groupsOf config wordCountMapper hash sort files).map fun g => (g.1, g.2.sum)).map (·.1) =
      (groupsOf config wordCountMapper hash sort files).map (·.1) := List.map_map
  rw [outputFile_wordCount]
  obtain ⟨entries, hascending, hentries, htext⟩ := outputText_counts (by rw [hkeys]; exact groupsOf_nodup hreduces)
    (fun w => by rw [hkeys, hmem, ← count_words, List.count_pos_iff])
    (fun r hr => by obtain ⟨g, hg, rfl⟩ := List.mem_map.1 hr; exact hsum g hg) hcounts
  exact ⟨entries, hascending, hentries, congrArg some htext⟩

end Job

/-- A text of two lines, without a newline at its end. -/
def twoLines : HashMap Bytes Bytes := AList.insert (bytes "in") (bytes "b a\n\tb") ∅

theorem wordCount_correct_twoLines :
    ∃ entries : List (Bytes × Nat), entries.Pairwise (fun a b => a.1 < b.1) ∧
      (∀ w n, (w, n) ∈ entries ↔ 0 < n ∧ n = occurrences isSpace (bytes "b a\n\tb") w) ∧
      (submitJob { oneReduce with numReduceTasks := 3 } wordCountMapper wordCountReducer
        (some wordCountCombiner)).outputFile (fun key => UInt64.ofNat key.length) recordSort twoLines =
        some (entries.flatMap countLine) :=
  wordCount_correct (by decide) (by decide)
    (fun w => Nat.lt_of_le_of_lt (occurrences_le _ w) (by decide)) (some wordCountCombiner)

end JobTracker

end MiniHadoop.Mapred

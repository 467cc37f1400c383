/-
The record writers of the two text outputs: `TextRecordWriter` (`mapred/api/input_format.h`) writes a local file that it
has emptied, `NdfsRecordWriter` (`mapred/api/ndfs_io.h`) keeps what it is given and sends it to NDFS when it is closed.
What the readers of the two inputs make of it is what was written, as long as keys and values are single lines; but an
NDFS file that is already there survives an output without records.
-/
import MiniHadoop.Io.Buffer
import MiniHadoop.Mapred.RecordReaders
import MiniHadoop.Mapred.WordCount
import MiniHadoop.Ndfs.FileMap

namespace MiniHadoop.Mapred

open Text Wire Runs Ndfs

/-! ## The writers -/

/-- `class TextRecordWriter`: what is in its file. The constructor truncates the file. -/
structure TextRecordWriter where
  file : Bytes := []

/-- `Write(key, value)`. -/
def TextRecordWriter.write (w : TextRecordWriter) (record : Bytes × Bytes) : TextRecordWriter :=
  { file := w.file ++ (record.1 ++ bytes "\t" ++ record.2 ++ bytes "\n") }

/-- `class NdfsRecordWriter`. -/
structure NdfsRecordWriter where
  path : Bytes
  buffer : Buffer := ⟨[], lt_maxSize (by decide)⟩

namespace NdfsRecordWriter

/-- `Write(key, value)`: throws when the buffer would be too long. -/
def write (w : NdfsRecordWriter) (record : Record) : Except Throw NdfsRecordWriter :=
  let line := record.1 ++ bytes "\t" ++ toStr record.2 ++ bytes "\n"
  match readVector (w.buffer.1 ++ line).length (w.buffer.1 ++ line) with
  | none => .error .lengthError
  | some buffer => .ok { w with buffer }

/-- `Close()`; what `WriteFile` returns is not looked at. -/
def close (w : NdfsRecordWriter) (c : Ndfs.Cluster) (blockSize : Int64) (env : Nat → ChunkEnv) : Option Ndfs.Cluster :=
  (c.writeFile blockSize w.path w.buffer true env).map (·.1)

end NdfsRecordWriter

/-- All records are written. -/
def writeAll (path : Bytes) (rs : List Record) : Except Throw NdfsRecordWriter :=
  rs.foldlM NdfsRecordWriter.write { path }

/-! ## What is written -/

/-- The line of a record, without its end. -/
def textLine (record : Bytes × Bytes) : Bytes := record.1 ++ bytes "\t" ++ record.2

/-- The line of a record of a job. -/
def recordLine (record : Record) : Bytes := textLine (record.1, toStr record.2)

theorem file_foldl_write (w : TextRecordWriter) (records : List (Bytes × Bytes)) :
    (records.foldl TextRecordWriter.write w).file =
      w.file ++ (records.map textLine).flatMap (· ++ [lineEnd]) := by
  induction records generalizing w with
  | nil => simp
  | cons record records ih =>
    rw [List.foldl_cons, ih, List.map_cons, List.flatMap_cons, ← List.append_assoc]
    rfl

theorem outputText_lines (rs : List Record) : outputText rs = (rs.map recordLine).flatMap (· ++ [lineEnd]) := by
  rw [outputText_eq, List.flatMap_map]
  rfl

theorem eq_of_readVector {x : Bytes} {b : Buffer} (h : readVector x.length x = some b) : b.1 = x := by
  unfold readVector at h
  split at h
  · cases h
    exact List.take_length
  · cases h

/-- `Write` adds the line of the record. -/
theorem buffer_write {w w' : NdfsRecordWriter} {record : Record} (h : w.write record = .ok w') :
    w'.path = w.path ∧ w'.buffer.1 = w.buffer.1 ++ (record.1 ++ bytes "\t" ++ toStr record.2 ++ bytes "\n") := by
  unfold NdfsRecordWriter.write at h
  dsimp only at h
  split at h
  · cases h
  · rename_i buffer hbuffer
    cases h
    exact ⟨rfl, eq_of_readVector hbuffer⟩

theorem buffer_foldlM {rs : List Record} {w w' : NdfsRecordWriter}
    (h : rs.foldlM NdfsRecordWriter.write w = .ok w') :
    w'.path = w.path ∧ w'.buffer.1 = w.buffer.1 ++ outputText rs := by
  induction rs generalizing w with
  | nil =>
    cases h
    exact ⟨rfl, (List.append_nil _).symm⟩
  | cons record rs ih =>
    rw [List.foldlM_cons] at h
    cases hwrite : w.write record with
    | error e =>
      rw [hwrite] at h
      cases h
    | ok w₁ =>
      rw [hwrite] at h
      obtain ⟨hpath, hbuffer⟩ := buffer_write hwrite
      obtain ⟨hpath', hbuffer'⟩ := ih h
      refine ⟨hpath'.trans hpath, ?_⟩
      rw [hbuffer', hbuffer, List.append_assoc, outputText]

/-- Nothing is thrown while the records fit into a vector. -/
theorem exists_foldlM {rs : List Record} {w : NdfsRecordWriter} (h : (w.buffer.1 ++ outputText rs).length < maxSize) :
    ∃ w', rs.foldlM NdfsRecordWriter.write w = .ok w' := by
  induction rs generalizing w with
  | nil => exact ⟨w, rfl⟩
  | cons record rs ih =>
    rw [outputText, ← List.append_assoc] at h
    have hline : (w.buffer.1 ++ (record.1 ++ bytes "\t" ++ toStr record.2 ++ bytes "\n")).length < maxSize := by
      rw [List.length_append] at h
      omega
    have hvector := readVector_append ⟨_, hline⟩ []
    rw [List.append_nil] at hvector
    have hwrite : w.write record = .ok { w with buffer := ⟨_, hline⟩ } := by
      unfold NdfsRecordWriter.write
      dsimp only
      rw [hvector]
    obtain ⟨w', hw'⟩ := @ih { w with buffer := ⟨_, hline⟩ } h
    exact ⟨w', by rw [List.foldlM_cons, hwrite]; exact hw'⟩

/-- What the writer of a job keeps is what the engines write into their output files. -/
theorem buffer_writeAll {path : Bytes} {rs : List Record} {w : NdfsRecordWriter} (h : writeAll path rs = .ok w) :
    w.path = path ∧ w.buffer.1 = outputText rs :=
  buffer_foldlM h

theorem mem_textLine {record : Bytes × Bytes} :
    lineEnd ∉ textLine record ↔ lineEnd ∉ record.1 ∧ lineEnd ∉ record.2 := by
  have htab : lineEnd ∉ bytes "\t" := by decide
  rw [textLine, List.mem_append, List.mem_append]
  tauto

theorem mem_recordLine {record : Record} : lineEnd ∉ recordLine record ↔ lineEnd ∉ record.1 := by
  rw [recordLine, mem_textLine]
  exact and_iff_left fun hmem => absurd (of_mem_toStr hmem) (by decide)

/-! ## What is read back -/

theorem map_numbered (lines : List Bytes) (i : Nat) : (numbered i lines).map (·.2) = lines := by
  induction lines generalizing i with
  | nil => rfl
  | cons line lines ih => rw [numbered, List.map_cons, ih]

theorem numbered_eq_iff {lines lines' : List Bytes} {i : Nat} : numbered i lines = numbered i lines' ↔ lines = lines' := by
  refine ⟨fun heq => ?_, fun heq => by rw [heq]⟩
  rw [← map_numbered lines i, heq, map_numbered]

theorem recordsFrom_eq_iff {lines lines' : List Bytes} {p : Int64} :
    recordsFrom p lines = recordsFrom p lines' ↔ lines = lines' := by
  refine ⟨fun heq => ?_, fun heq => by rw [heq]⟩
  rw [← map_recordsFrom lines p, heq, map_recordsFrom]

theorem Drained.eq_iff {ρ : Type} {next : ρ → Option (Int64 × Bytes) × ρ} {r : ρ}
    {records records' : List (Int64 × Bytes)} (h : Drained next r records) :
    Drained next r records' ↔ records = records' := by
  refine ⟨fun h' => h.unique h', fun heq => ?_⟩
  rw [← heq]
  exact h

/-- A local output is read back, a record for each that was written, exactly when its keys and values are single lines. -/
theorem text_output_read_iff {records : List (Bytes × Bytes)} {content : StdString}
    (hfile : content.1 = (records.foldl TextRecordWriter.write {}).file) :
    Drained TextRecordReader.next (.construct (some content.1)) (recordsFrom 0 (records.map textLine)) ↔
      ∀ record ∈ records, lineEnd ∉ record.1 ∧ lineEnd ∉ record.2 := by
  have hlines : content.1 = (records.map textLine).flatMap (· ++ [lineEnd]) := by
    rw [hfile, file_foldl_write, List.nil_append]
  have htext : textRecords (some content.1) = recordsFrom 0 (getlines lineEnd content.1) := rfl
  rw [(drained_textRecords content).eq_iff, htext, recordsFrom_eq_iff, hlines, getlines_flatMap_iff, List.forall_mem_map]
  exact forall₂_congr fun _ _ => mem_textLine

/-- An empty key, and a value of two words. -/
theorem text_output_read_twoRecords :
    Drained TextRecordReader.next (.construct (some (bytes "\tb c\na\t\n")))
        (recordsFrom 0 [bytes "\tb c", bytes "a\t"]) ↔
      ∀ record ∈ [(([] : Bytes), bytes "b c"), (bytes "a", [])], lineEnd ∉ record.1 ∧ lineEnd ∉ record.2 :=
  @text_output_read_iff [([], bytes "b c"), (bytes "a", [])] ⟨bytes "\tb c\na\t\n", lt_maxSize (by decide)⟩ (by decide)

section Ndfs

variable {blockSize : Int64} {c₀ c : Ndfs.Cluster} {m : FileMap} {path : Bytes} {rs : List Record}
  {env : Nat → ChunkEnv}

/-- What any path reads as in a cluster that holds a map. -/
theorem read_of_holds (h : Holds c m) (path : Bytes) : c.read path = (.OK, (m (splitPath path)).getD []) := by
  by_cases hfile : IsFile c.ns.tree (splitPath path)
  · obtain ⟨bl, hbl⟩ := hfile
    obtain ⟨d, hd, hcontent⟩ := h.data _ bl hbl
    rw [(read_file hbl d).2 hcontent, hd]
    rfl
  · have hnone : m (splitPath path) = none := by
      by_contra hne
      exact hfile (h.files _ (Option.isSome_iff_ne_none.2 hne))
    rw [read_not_file hfile, hnone]
    rfl

theorem drained_holds (h : Holds c m) (path : Bytes) : Drained NdfsLineRecordReader.next
    (.construct c .answered (fun _ _ => .complete) path)
    (numbered 0 (getlines lineEnd ((m (splitPath path)).getD []))) :=
  drained_numbered (read_of_holds h path)

/-- What a job writes through its output format into NDFS, after any history of healthy calls, is read back by its input
format, a line for each record, exactly when the keys are single lines and there is a record or was no data at the path:
an output without records leaves what was there. -/
theorem ndfs_output_read_iff {calls : List Ndfs.Call} {w : NdfsRecordWriter} (hb : 0 < blockSize) (h₀ : c₀.Empty)
    (hcalls : Run (CallStep blockSize) c₀ calls c) (hwrite : writeAll path rs = .ok w)
    (hhealthy : rs ≠ [] → HealthyWrite blockSize c path w.buffer env) :
    ∃ c', w.close c blockSize env = some c' ∧
      (Drained NdfsLineRecordReader.next (.construct c' .answered (fun _ _ => .complete) path)
          (numbered 0 (rs.map recordLine)) ↔
        (∀ r ∈ rs, lineEnd ∉ r.1) ∧ (rs ≠ [] ∨ (FileMap.after calls (splitPath path)).getD [] = [])) := by
  have hholds : Holds c (FileMap.after calls) := hcalls.simulation (Holds.call hb) h₀.holds
  obtain ⟨hpath, hbuffer⟩ := buffer_writeAll hwrite
  cases rs with
  | nil =>
    have hempty : c.writeFile blockSize w.path w.buffer true env = some (c, .OK) := writeFile_empty hbuffer
    refine ⟨c, by rw [NdfsRecordWriter.close, hempty]; rfl, ?_⟩
    rw [(drained_holds hholds path).eq_iff, List.map_nil, numbered_eq_iff, getlines_eq_nil]
    simp
  | cons r rs =>
    obtain ⟨c', hrun, hholds', -⟩ := hholds.write hb (hhealthy (List.cons_ne_nil r rs))
    refine ⟨c', by rw [NdfsRecordWriter.close, hpath, hrun]; rfl, ?_⟩
    have hdata : (((FileMap.after calls).write (splitPath path) w.buffer.1) (splitPath path)).getD [] =
        ((r :: rs).map recordLine).flatMap (· ++ [lineEnd]) := by
      rw [FileMap.write, Function.update_self, Option.getD_some, hbuffer, outputText_lines]
    rw [(drained_holds hholds' path).eq_iff, hdata, numbered_eq_iff, getlines_flatMap_iff, List.forall_mem_map]
    have hlines : (∀ r' ∈ r :: rs, lineEnd ∉ recordLine r') ↔ ∀ r' ∈ r :: rs, lineEnd ∉ r'.1 :=
      forall₂_congr fun _ _ => mem_recordLine
    rw [hlines]
    exact (and_iff_left (.inl (List.cons_ne_nil r rs))).symm

end Ndfs

/-- A record in two blocks. -/
theorem ndfs_output_read_oneRecord : ∃ w c', writeAll (bytes "/d/f") [(bytes "a", 1)] = .ok w ∧
    w.close (freshCluster [localNode 9000]) 2 healthyTurn = some c' ∧
    Drained NdfsLineRecordReader.next (.construct c' .answered (fun _ _ => .complete) (bytes "/d/f"))
      (numbered 0 [bytes "a\t1"]) := by
  have h₀ := freshCluster_empty (localNode 9000)
  have hproper : ProperPath (bytes "/d/f") :=
    @properPath_joinPath [bytes "d", bytes "f"] (by decide) (by simp only [Component]; decide)
  obtain ⟨w, hwrite⟩ : ∃ w, writeAll (bytes "/d/f") [(bytes "a", 1)] = .ok w := exists_foldlM (lt_maxSize (by decide))
  obtain ⟨-, hbuffer⟩ := buffer_writeAll hwrite
  have hcount : blockCount 2 w.buffer = 2 := by
    unfold blockCount
    rw [hbuffer]
    decide
  have hhealthy : [(bytes "a", (1 : Int64))] ≠ [] →
      HealthyWrite 2 (freshCluster [localNode 9000]) (bytes "/d/f") w.buffer healthyTurn := fun _ =>
    ⟨h₀.admissible hproper, by rw [hbuffer]; decide, fun i _ => healthyTurn_healthy i, freshIds_two _ (by rw [hcount])⟩
  obtain ⟨c', hclose, hread⟩ := ndfs_output_read_iff (by decide) h₀ .nil hwrite hhealthy
  exact ⟨w, c', hwrite, hclose, hread.2 ⟨by decide, .inl (by decide)⟩⟩

end MiniHadoop.Mapred

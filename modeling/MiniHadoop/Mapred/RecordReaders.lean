/-
The record readers of the two text inputs: `TextRecordReader` (`mapred/api/input_format.h`) reads the lines of a
local file one after the other and counts bytes, `NdfsLineRecordReader` (`mapred/api/ndfs_io.h`) has split a file of
the NDFS into lines and counts those. Both return the lines, and with the same keys as long as every line
but the last one is empty.
-/
import MiniHadoop.Mapred.Api
import MiniHadoop.Ndfs.WriteOutcome

namespace MiniHadoop.Mapred

open Text Wire Ndfs

/-! ## The readers -/

/-- `class TextRecordReader`, with what its stream has still to read. -/
structure TextRecordReader where
  rest : Bytes
  pos : Int64 := 0
  currentLine : Bytes := []

namespace TextRecordReader

/-- The constructor for the path of a file; `none` is one that cannot be opened. -/
def construct (content : Option Bytes) : TextRecordReader := { rest := content.getD [] }

/-- `Next(key, value)`: the record, or none when it returns false. A position that has wrapped is neither zero nor
positive, and then no line is read. -/
def next (r : TextRecordReader) : Option (Int64 × Bytes) × TextRecordReader :=
  if r.pos = 0 ∨ 0 < r.pos then
    match getline lineEnd r.rest with
    | none => (none, r)
    | some (line, rest) =>
      (some (r.pos, line), { rest, pos := r.pos + Int64.ofNat line.length + 1, currentLine := line })
  else
    (some (r.pos, r.currentLine), { r with pos := r.pos + Int64.ofNat r.currentLine.length + 1 })

end TextRecordReader

/-- `class NdfsLineRecordReader`. -/
structure NdfsLineRecordReader where
  lines : List Bytes
  pos : Nat := 0

namespace NdfsLineRecordReader

/-- The constructor: `ReadFile` of the path, and the lines of what was read if it returned OK. -/
def construct (c : Ndfs.Cluster) (rpc : RpcOutcome) (attempt : Nat → Nat → ReadOutcome) (path : Bytes) :
    NdfsLineRecordReader :=
  let read := c.readFile rpc attempt path []
  { lines := if read.1.code = .kOk then getlines lineEnd read.2 else [] }

/-- `Next(key, value)`. -/
def next (r : NdfsLineRecordReader) : Option (Int64 × Bytes) × NdfsLineRecordReader :=
  match r.lines[r.pos]? with
  | none => (none, r)
  | some line => (some (Int64.ofNat r.pos, line), { r with pos := r.pos + 1 })

end NdfsLineRecordReader

/-! ## Reading to the end -/

section Drained

variable {ρ : Type} {next : ρ → Option (Int64 × Bytes) × ρ}

/-- The loop `while (reader->Next(key, value))` ends, with these records. -/
inductive Drained (next : ρ → Option (Int64 × Bytes) × ρ) : ρ → List (Int64 × Bytes) → Prop
  | stop {r r' : ρ} : next r = (none, r') → Drained next r []
  | more {r r' : ρ} {record : Int64 × Bytes} {records : List (Int64 × Bytes)} :
      next r = (some record, r') → Drained next r' records → Drained next r (record :: records)

/-- A reader gives one list of records. -/
theorem Drained.unique {r : ρ} {records records' : List (Int64 × Bytes)} (h : Drained next r records) :
    Drained next r records' → records = records' := by
  induction h generalizing records' with
  | stop hnext =>
    intro h'
    cases h' with
    | stop _ => rfl
    | more hnext' _ => cases hnext.symm.trans hnext'
  | more hnext _ ih =>
    intro h'
    cases h' with
    | stop hnext' => cases hnext.symm.trans hnext'
    | more hnext' hrest =>
      cases hnext.symm.trans hnext'
      rw [ih hrest]

end Drained

/-- Lines under their numbers. -/
def numbered : Nat → List Bytes → List (Int64 × Bytes)
  | _, [] => []
  | i, line :: rest => (Int64.ofNat i, line) :: numbered (i + 1) rest

theorem drained_ndfs (lines : List Bytes) : ∀ (rest : List Bytes) (i : Nat), lines.drop i = rest →
    Drained NdfsLineRecordReader.next ⟨lines, i⟩ (numbered i rest)
  | [], i, h => by
    have hnone : lines[i]? = none := List.getElem?_eq_none (List.drop_eq_nil_iff.1 h)
    exact .stop (by rw [NdfsLineRecordReader.next, hnone])
  | line :: rest, i, h => by
    have hsome : lines[i]? = some line := by rw [← List.head?_drop, h]; rfl
    have hrest : lines.drop (i + 1) = rest := by rw [← List.tail_drop, h]; rfl
    exact .more (by rw [NdfsLineRecordReader.next, hsome]) (drained_ndfs lines rest (i + 1) hrest)

theorem toInt_ofNat {n : Nat} (h : n < 2 ^ 63) : (Int64.ofNat n).toInt = n := Int64.toInt_ofNat_of_lt h

/-- A position that has not wrapped. -/
theorem pos_ok {n : Nat} (h : n < 2 ^ 63) : Int64.ofNat n = 0 ∨ 0 < Int64.ofNat n := by
  rcases Nat.eq_zero_or_pos n with rfl | hpos
  · exact .inl rfl
  · refine .inr (Int64.lt_iff_toInt_lt.2 ?_)
    rw [toInt_ofNat h]
    exact Int.natCast_pos.2 hpos

theorem ofNat_step (n m : Nat) : Int64.ofNat n + Int64.ofNat m + 1 = Int64.ofNat (n + m + 1) := by
  rw [Int64.ofNat_add, Int64.ofNat_add]
  rfl

/-- A line and what is left are no longer than the text, and one byte shorter if something is left. -/
theorem length_getline {s line rest : Bytes} (h : getline lineEnd s = some (line, rest)) :
    s ≠ [] ∧ line.length + rest.length ≤ s.length ∧ (rest ≠ [] → line.length + 1 + rest.length = s.length) ∧
      rest.length < s.length := by
  rcases (getline_some h).2 with rfl | ⟨rfl, hne, rfl⟩
  · refine ⟨by simp, ?_, ?_, ?_⟩ <;> simp only [List.length_append, List.length_cons] <;> omega
  · exact ⟨hne, by simp, by simp, List.length_pos_iff.2 hne⟩

/-- The text reader returns all lines with the offsets counted from its position. -/
theorem drained_text (n : Nat) : ∀ (s currentLine : Bytes) (p : Nat), s.length = n →
    p + n + (if s = [] then 0 else 1) < 2 ^ 63 →
    Drained TextRecordReader.next ⟨s, Int64.ofNat p, currentLine⟩
      (recordsFrom (Int64.ofNat p) (getlines lineEnd s)) := by
  induction n using Nat.strong_induction_on with
  | _ n ih =>
    intro s currentLine p hn hp
    have hpos := pos_ok (show p < 2 ^ 63 by omega)
    cases hline : getline lineEnd s with
    | none =>
      obtain rfl := getline_eq_none.1 hline
      exact .stop (by rw [TextRecordReader.next, if_pos hpos]; rfl)
    | some out =>
      obtain ⟨line, rest⟩ := out
      obtain ⟨hne, hle, hrest, hless⟩ := length_getline hline
      rw [if_neg hne] at hp
      rw [getlines_getline hline, recordsFrom, ofNat_step]
      have hnext : TextRecordReader.next ⟨s, Int64.ofNat p, currentLine⟩ =
          (some (Int64.ofNat p, line), ⟨rest, Int64.ofNat (p + line.length + 1), line⟩) := by
        simp only [TextRecordReader.next, if_pos hpos, hline, ofNat_step]
      refine .more hnext (ih rest.length (by omega) rest line _ rfl ?_)
      split
      · rename_i hempty
        rw [hempty, List.length_nil]
        omega
      · rename_i hrest'
        have := hrest hrest'
        omega

/-! ## Keys -/

/-- Line `i` of a text starts at byte `n`: behind as many line ends, and right behind the last of them. -/
def LineStart (s : Bytes) (i n : Nat) : Prop :=
  n ≤ s.length ∧ (s.take n).count lineEnd = i ∧ (s.take n = [] ∨ (s.take n).getLast? = some lineEnd)

theorem lineStart_zero (s : Bytes) : LineStart s 0 0 := ⟨Nat.zero_le _, rfl, .inl rfl⟩

/-- The lines behind the first one. -/
theorem lineStart_succ {line rest : Bytes} {i n : Nat} (hline : lineEnd ∉ line) (h : LineStart rest i n) :
    LineStart (line ++ lineEnd :: rest) (i + 1) (line.length + 1 + n) := by
  obtain ⟨hle, hcount, hlast⟩ := h
  have htake : (line ++ lineEnd :: rest).take (line.length + 1 + n) = line ++ lineEnd :: rest.take n := by
    rw [Nat.add_assoc, List.take_length_add_append, Nat.add_comm 1, List.take_succ_cons]
  refine ⟨?_, ?_, .inr ?_⟩
  · rw [List.length_append, List.length_cons]
    omega
  · rw [htake, List.count_append, List.count_cons_self, List.count_eq_zero_of_not_mem hline, hcount]
    omega
  · rw [htake, List.getLast?_append, List.getLast?_cons]
    rcases hlast with hempty | hlast
    · rw [hempty]; rfl
    · rw [hlast]; rfl

/-- The keys of a text reader are the offsets of the lines. -/
theorem lineStart_recordsFrom (i : Nat) : ∀ (s : Bytes) (p : Nat) (record : Int64 × Bytes), p + s.length < 2 ^ 63 →
    (recordsFrom (Int64.ofNat p) (getlines lineEnd s))[i]? = some record →
    ∃ n, LineStart s i n ∧ record.1.toInt = p + n := by
  induction i with
  | zero =>
    intro s p record hp h
    refine ⟨0, lineStart_zero s, ?_⟩
    cases hlines : getlines lineEnd s with
    | nil => rw [hlines] at h; cases h
    | cons line lines =>
      rw [hlines, recordsFrom] at h
      cases h
      rw [toInt_ofNat (by omega), Nat.cast_zero, add_zero]
  | succ i ih =>
    intro s p record hp h
    cases hline : getline lineEnd s with
    | none =>
      obtain rfl := getline_eq_none.1 hline
      cases h
    | some out =>
      obtain ⟨line, rest⟩ := out
      rw [getlines_getline hline, recordsFrom, List.getElem?_cons_succ, ofNat_step] at h
      obtain ⟨hmem, rfl | ⟨rfl, -, rfl⟩⟩ := getline_some hline
      · rw [List.length_append, List.length_cons] at hp
        obtain ⟨n, hn, hkey⟩ := ih rest _ record (by omega) h
        exact ⟨_, lineStart_succ hmem hn, by rw [hkey]; push_cast; omega⟩
      · cases h

/-- The offsets are the numbers exactly when all lines but the last one are empty. -/
theorem recordsFrom_eq_numbered_iff : ∀ (lines : List Bytes) (p : Nat), p + (lines.map (·.length + 1)).sum ≤ 2 ^ 63 →
    (recordsFrom (Int64.ofNat p) lines = numbered p lines ↔ ∀ line ∈ lines.dropLast, line = [])
  | [], _, _ => iff_of_true rfl (by simp)
  | [line], _, _ => iff_of_true rfl (by simp)
  | line :: line' :: rest, p, hp => by
    rw [List.map_cons, List.sum_cons] at hp
    rw [recordsFrom, numbered, List.cons.injEq, ofNat_step, List.dropLast_cons_cons, List.forall_mem_cons,
      eq_self, true_and]
    by_cases hline : line = []
    · have ih := recordsFrom_eq_numbered_iff (line' :: rest) (p + 1) (by omega)
      rw [hline, List.length_nil, Nat.add_zero, ih, eq_self, true_and]
    · refine iff_of_false (fun heq => hline ?_) fun h => hline h.1
      rw [recordsFrom, numbered, List.cons.injEq, Prod.mk.injEq] at heq
      rw [List.map_cons, List.sum_cons] at hp
      have hkey := congrArg Int64.toInt heq.1.1
      rw [toInt_ofNat (by omega), toInt_ofNat (by omega)] at hkey
      exact List.length_eq_zero_iff.1 (by omega)

/-- The lines of a text, with a line end each, are longer than the text by one byte at most. -/
theorem sum_getlines_le (n : Nat) : ∀ s : Bytes, s.length = n →
    ((getlines lineEnd s).map (·.length + 1)).sum ≤ n + (if s = [] then 0 else 1) := by
  induction n using Nat.strong_induction_on with
  | _ n ih =>
    intro s hn
    cases hline : getline lineEnd s with
    | none =>
      obtain rfl := getline_eq_none.1 hline
      exact Nat.zero_le _
    | some out =>
      obtain ⟨line, rest⟩ := out
      obtain ⟨hne, hle, hrest, hless⟩ := length_getline hline
      have ih := ih rest.length (by omega) rest rfl
      rw [getlines_getline hline, List.map_cons, List.sum_cons, if_neg hne]
      by_cases hempty : rest = []
      · rw [if_pos hempty] at ih
        omega
      · rw [if_neg hempty] at ih
        have := hrest hempty
        omega

/-! ## The two readers -/

/-- A text that a `std::string` holds; its size is less than the largest number of 64 bits with a sign. -/
abbrev StdString := { s : Bytes // s.length + 1 < maxSize }

/-- The readers agree on a file: both end, with the same records, and the key of each is the offset of its line. -/
def Agree (text : TextRecordReader) (ndfs : NdfsLineRecordReader) (content : Bytes) : Prop :=
  ∃ records, Drained TextRecordReader.next text records ∧ Drained NdfsLineRecordReader.next ndfs records ∧
    ∀ (i : Nat) (record : Int64 × Bytes), records[i]? = some record → ∃ n, LineStart content i n ∧ record.1.toInt = n

/-- A local file is read as the records that the engines give to their mappers. -/
theorem drained_textRecords (content : StdString) :
    Drained TextRecordReader.next (.construct (some content.1)) (textRecords (some content.1)) := by
  have hsize := lt_of_lt_maxSize content.2
  refine drained_text _ content.1 [] 0 rfl ?_
  split <;> omega

theorem drained_numbered {c : Ndfs.Cluster} {rpc : RpcOutcome} {attempt : Nat → Nat → ReadOutcome}
    {path content : Bytes} (h : c.readFile rpc attempt path [] = (.OK, content)) :
    Drained NdfsLineRecordReader.next (.construct c rpc attempt path) (numbered 0 (getlines lineEnd content)) := by
  have hconstruct : NdfsLineRecordReader.construct c rpc attempt path = ⟨getlines lineEnd content, 0⟩ := by
    rw [NdfsLineRecordReader.construct, h]
    rfl
  rw [hconstruct]
  exact drained_ndfs _ _ 0 rfl

/-- The readers of a local file and of an NDFS file with the same content agree exactly when all lines but the last one
are empty. -/
theorem readers_agree_iff {c : Ndfs.Cluster} {rpc : RpcOutcome} {attempt : Nat → Nat → ReadOutcome} {path : Bytes}
    {content : StdString} (h : c.readFile rpc attempt path [] = (.OK, content.1)) :
    Agree (.construct (some content.1)) (.construct c rpc attempt path) content.1 ↔
      ∀ line ∈ (getlines lineEnd content.1).dropLast, line = [] := by
  have hsize := lt_of_lt_maxSize content.2
  have htext := drained_textRecords content
  have hndfs := drained_numbered h
  have hsum := sum_getlines_le _ content.1 rfl
  rw [← recordsFrom_eq_numbered_iff (getlines lineEnd content.1) 0 (by split at hsum <;> omega)]
  constructor
  · rintro ⟨records, htext', hndfs', -⟩
    exact (htext.unique htext').trans (hndfs.unique hndfs').symm
  · intro heq
    refine ⟨_, htext, ?_, fun i record hrecord => ?_⟩
    · have hrecords : textRecords (some content.1) = numbered 0 (getlines lineEnd content.1) := heq
      rw [hrecords]
      exact hndfs
    · obtain ⟨n, hn, hkey⟩ := lineStart_recordsFrom i content.1 0 record (by omega) hrecord
      exact ⟨n, hn, by rw [hkey, Nat.cast_zero, zero_add]⟩

/-- A cluster with one file, of one block, with this content. -/
def oneFile (content : Buffer) : Ndfs.Cluster where
  ns := { tree := .mk .kDirectory [] [] [.mk .kFile (bytes "f") [5] []]
          blockToDatanodes := AList.insert 5 [localNode 9000] ∅ }
  stores _ := (({ dataDir := bytes "/data" } : BlockStorage).storeBlock 5 content .written).1

/-- An empty line, and one without an end. -/
def emptyFirst : StdString := ⟨[10, 97, 98], lt_maxSize (by decide)⟩

theorem readers_agree_emptyFirst :
    Agree (.construct (some emptyFirst.1))
        (.construct (oneFile ⟨emptyFirst.1, lt_maxSize (by decide)⟩) .answered (fun _ _ => .complete) (bytes "/f"))
        emptyFirst.1 ↔
      ∀ line ∈ (getlines lineEnd emptyFirst.1).dropLast, line = [] :=
  readers_agree_iff (by decide +kernel)

/-- Of two lines the second one starts at byte 2, and its number is 1. -/
theorem readers_disagree : ¬ ∀ (c : Ndfs.Cluster) (rpc : RpcOutcome) (attempt : Nat → Nat → ReadOutcome) (path : Bytes)
    (content : StdString), c.readFile rpc attempt path [] = (.OK, content.1) →
      Agree (.construct (some content.1)) (.construct c rpc attempt path) content.1 := by
  intro h
  have hread : (oneFile ⟨[97, 10, 98], lt_maxSize (by decide)⟩).readFile .answered (fun _ _ => .complete)
      (bytes "/f") [] = (.OK, [97, 10, 98]) := by decide +kernel
  obtain ⟨records, htext, hndfs, -⟩ := h _ _ _ _ ⟨[97, 10, 98], lt_maxSize (by decide)⟩ hread
  have heq := ((drained_textRecords _).unique htext).trans ((drained_numbered hread).unique hndfs).symm
  exact absurd heq (by decide)

end MiniHadoop.Mapred

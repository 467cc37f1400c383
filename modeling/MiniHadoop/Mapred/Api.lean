/-
What a MapReduce job is written against (`mapred/api/mapper.h`, `mapred/api/input_format.h`): mappers and
reducers as objects with a state of their own, the records a text file is read as, and the order and the
grouping both engines use. A collector is the list of what was collected.
-/
import MiniHadoop.Base.Decimal
import Mathlib.Data.List.Sort

namespace MiniHadoop.Mapred

open Text

/-- A key and a value of the intermediate and of the output data. -/
abbrev Record := Bytes × Int64

/-! ## Mappers and reducers -/

/-- `class Mapper`: the state of a fresh object, and what `Map` makes of it and collects. -/
structure Mapper where
  State : Type
  fresh : State
  map : State → Int64 → Bytes → State × List Record

/-- `class Reducer`. -/
structure Reducer where
  State : Type
  fresh : State
  reduce : State → Bytes → List Int64 → State × List Record

/-- `class Combiner`. -/
structure Combiner where
  State : Type
  fresh : State
  combine : State → Bytes → List Int64 → State × List Record

/-! What an object gives is a function of the arguments, whatever its state. -/

def Mapper.Pure (m : Mapper) (g : Int64 → Bytes → List Record) : Prop :=
  ∀ (self : m.State) (key : Int64) (value : Bytes), (m.map self key value).2 = g key value

def Reducer.Pure (r : Reducer) (f : Bytes → List Int64 → List Record) : Prop :=
  ∀ (self : r.State) (key : Bytes) (values : List Int64), (r.reduce self key values).2 = f key values

def Combiner.Pure (C : Combiner) (f : Bytes → List Int64 → List Record) : Prop :=
  ∀ (self : C.State) (key : Bytes) (values : List Int64), (C.combine self key values).2 = f key values

/-- The loop `while (reader->Next(lk, lv)) mapper->Map(lk, lv, collector)`. -/
def Mapper.mapAll (m : Mapper) : m.State → List (Int64 × Bytes) → List Record
  | _, [] => []
  | self, (key, value) :: rest =>
    let called := m.map self key value
    called.2 ++ m.mapAll called.1 rest

theorem Mapper.mapAll_pure {m : Mapper} {g : Int64 → Bytes → List Record} (h : m.Pure g) :
    ∀ (self : m.State) (records : List (Int64 × Bytes)), m.mapAll self records = records.flatMap fun r => g r.1 r.2
  | _, [] => rfl
  | self, (key, value) :: rest => by
    rw [Mapper.mapAll, List.flatMap_cons, h self key value, mapAll_pure h]

/-- The calls of `Reduce`, one for each group. -/
def Reducer.reduceAll (r : Reducer) : r.State → List (Bytes × List Int64) → List Record
  | _, [] => []
  | self, (key, values) :: rest =>
    let called := r.reduce self key values
    called.2 ++ r.reduceAll called.1 rest

/-! ## Text input -/

/-- The delimiter of `std::getline(file, line)`. -/
def lineEnd : UInt8 := 10

/-- The records `TextRecordReader::Next` returns for the lines still to come, from the offset `pos`. -/
def recordsFrom : Int64 → List Bytes → List (Int64 × Bytes)
  | _, [] => []
  | pos, line :: rest => (pos, line) :: recordsFrom (pos + Int64.ofNat line.length + 1) rest

/-- All records a `TextRecordReader` on a file returns; `none` is a file that cannot be opened. -/
def textRecords (content : Option Bytes) : List (Int64 × Bytes) :=
  recordsFrom 0 (getlines lineEnd (content.getD []))

/-- There is one record for each line. -/
theorem map_recordsFrom : ∀ (lines : List Bytes) (pos : Int64), (recordsFrom pos lines).map (·.2) = lines
  | [], _ => rfl
  | line :: lines, pos => by rw [recordsFrom, List.map_cons, map_recordsFrom lines]

theorem textRecords_eq_nil {content : Option Bytes} : textRecords content = [] ↔ content.getD [] = [] := by
  rw [← getlines_eq_nil (d := lineEnd), ← map_recordsFrom (getlines lineEnd (content.getD [])) 0, List.map_eq_nil_iff]
  rfl

example : textRecords (some (bytes "ab\n\nc")) = [(0, bytes "ab"), (3, []), (4, bytes "c")] := by decide

/-! ## Sorting and grouping -/

/-- The order of `std::pair<std::string, int64_t>`. -/
def RecordLe (a b : Record) : Prop := a.1 < b.1 ∨ (a.1 = b.1 ∧ a.2 ≤ b.2)

instance : DecidableRel RecordLe := fun a b => inferInstanceAs (Decidable (a.1 < b.1 ∨ (a.1 = b.1 ∧ a.2 ≤ b.2)))

/-- `std::sort` of records. Records that are equal in the order are the same, so every sorting algorithm
returns this list. -/
def sortRecords (rs : List Record) : List Record := rs.insertionSort RecordLe

instance : Std.Total RecordLe where
  total a b := by
    by_cases hlt : a.1 < b.1
    · exact .inl (.inl hlt)
    · by_cases hgt : b.1 < a.1
      · exact .inr (.inl hgt)
      · have heq : a.1 = b.1 := List.le_antisymm hgt hlt
        rcases Int64.le_total a.2 b.2 with hle | hle
        · exact .inl (.inr ⟨heq, hle⟩)
        · exact .inr (.inr ⟨heq.symm, hle⟩)

instance : IsTrans Record RecordLe where
  trans a b d hab hbd := by
    rcases hab with hab | ⟨hab, hle⟩ <;> rcases hbd with hbd | ⟨hbd, hle'⟩
    · exact .inl (List.lt_trans hab hbd)
    · exact .inl (hbd ▸ hab)
    · exact .inl (hab ▸ hbd)
    · exact .inr ⟨hab.trans hbd, Int64.le_trans hle hle'⟩

instance : Std.Antisymm RecordLe where
  antisymm a b hab hba := by
    rcases hab with hab | ⟨hab, hle⟩ <;> rcases hba with hba | ⟨hba, hle'⟩
    · exact absurd (List.lt_trans hab hba) (List.lt_irrefl _)
    · exact absurd (hba ▸ hab) (List.lt_irrefl _)
    · exact absurd (hab ▸ hba) (List.lt_irrefl _)
    · exact Prod.ext hab (Int64.le_antisymm hle hle')

/-- The order in which records arrive does not matter once they are sorted. -/
theorem sortRecords_eq_of_perm {rs rs' : List Record} (h : rs.Perm rs') : sortRecords rs = sortRecords rs' := by
  have hperm := (List.perm_insertionSort RecordLe rs).trans (h.trans (List.perm_insertionSort RecordLe rs').symm)
  exact hperm.eq_of_pairwise' (List.pairwise_insertionSort _ _) (List.pairwise_insertionSort _ _)

/-- The loop that collects the values of each run of equal keys. -/
def groupRuns : List Record → List (Bytes × List Int64)
  | [] => []
  | (key, value) :: rest =>
    match groupRuns rest with
    | [] => [(key, [value])]
    | (next, values) :: groups =>
      if key = next then (key, value :: values) :: groups else (key, [value]) :: (next, values) :: groups

/-- The lines `out << k << "\t" << v << "\n"` of an output file. -/
def outputText : List Record → Bytes
  | [] => []
  | (key, value) :: rest => key ++ bytes "\t" ++ toStr value ++ bytes "\n" ++ outputText rest

theorem outputText_eq : ∀ rs : List Record,
    outputText rs = rs.flatMap fun r => r.1 ++ bytes "\t" ++ toStr r.2 ++ bytes "\n"
  | [] => rfl
  | (key, value) :: rs => by rw [outputText, List.flatMap_cons, outputText_eq rs]

end MiniHadoop.Mapred

/-
The collector that combines on the map side (`CombiningCollector` in `mapred/api/mapper.h`): a map from keys to
sums, and a flush that replaces every sum by what a combiner makes of it. The flush assigns the records the combiner
emits instead of adding them, so of several records for one key the last one stays.
-/
import MiniHadoop.Base.OrderedMap
import MiniHadoop.Base.Runs
import MiniHadoop.Mapred.Grouping

namespace MiniHadoop.Mapred

open Text Runs

instance : IsStrictTotalOrder Bytes (· < ·) where
  trichotomous _ _ hnot hnot' := List.le_antisymm hnot' hnot
  irrefl _ := List.lt_irrefl _
  trans _ _ _ := List.lt_trans

namespace Combiner

/-- The combiner emits records only under the key it is given. -/
def OwnKeys (f : Bytes → List Int64 → List Record) : Prop := ∀ key values, ∀ r ∈ f key values, r.1 = key

/-- The values it emits sum to the sum of those it is given. -/
def KeepsSums (f : Bytes → List Int64 → List Record) : Prop :=
  ∀ key values, ((f key values).map (·.2)).sum = values.sum

end Combiner

/-- `struct CombiningCollector`, with the object its combiner leads to, or none. -/
structure CombiningCollector (C : Combiner) where
  buffer : OrderedMap Bytes Int64 := .empty
  combiner : Option C.State
  flushThreshold : Int32 := 10000

namespace CombiningCollector

variable {C : Combiner}

/-- `buffer[key]`. -/
def value (buffer : OrderedMap Bytes Int64) (key : Bytes) : Int64 := (buffer.find key).getD 0

/-- The loop over the buffer: the combiner called for every entry, and what the sink has collected. -/
def combineAll : C.State → List Record → C.State × List Record
  | self, [] => (self, [])
  | self, (key, value) :: rest =>
    let called := C.combine self key [value]
    let more := combineAll called.1 rest
    (more.1, called.2 ++ more.2)

/-- `Flush()`. -/
def flush (s : CombiningCollector C) : CombiningCollector C :=
  match s.combiner with
  | none => s
  | some self =>
    if s.buffer.entries = [] then s
    else
      let combined := combineAll self s.buffer.entries
      { s with buffer := OrderedMap.empty.assignAll combined.2, combiner := some combined.1 }

/-- `buffer[key.ToString()] += value.Get()`. -/
def add (s : CombiningCollector C) (key : Bytes) (v : Int64) : CombiningCollector C :=
  { s with buffer := s.buffer.assign key (value s.buffer key + v) }

/-- `Collect(key, value)`. -/
def collect (s : CombiningCollector C) (key : Bytes) (v : Int64) : CombiningCollector C :=
  let s := s.add key v
  if s.flushThreshold ≤ Int32.ofNat s.buffer.size ∧ s.combiner.isSome then s.flush else s

/-! ## Calls -/

inductive Call where
  | collect (key : Bytes) (value : Int64)
  | flush
  deriving DecidableEq, Repr

def perform (s : CombiningCollector C) : Call → CombiningCollector C
  | .collect key v => s.collect key v
  | .flush => s.flush

/-- The records that were collected. -/
def collected (calls : List Call) : List Record :=
  calls.filterMap fun
    | .collect key v => some (key, v)
    | .flush => none

/-- The sum of all values collected for a key. -/
def total (key : Bytes) (calls : List Call) : Int64 := (valuesOf key (collected calls)).sum

/-- The collector in a call, before a flush. -/
def added (s : CombiningCollector C) : Call → CombiningCollector C
  | .collect key v => s.add key v
  | .flush => s

/-- The call makes the combiner work on the buffer. -/
def due (s : CombiningCollector C) : Call → Bool
  | .collect key v => s.flushThreshold ≤ Int32.ofNat (s.add key v).buffer.size ∧ s.combiner.isSome
  | .flush => s.combiner.isSome

theorem perform_eq (s : CombiningCollector C) (c : Call) :
    s.perform c = if s.due c then (s.added c).flush else s.added c := by
  cases c with
  | collect key v =>
    rw [perform, collect, due, added]
    simp only [decide_eq_true_eq]
    rfl
  | flush =>
    rw [perform, due, added]
    cases hc : s.combiner with
    | none => rw [flush, hc]; rfl
    | some self => rfl

theorem combiner_added (s : CombiningCollector C) (c : Call) : (s.added c).combiner = s.combiner := by
  cases c <;> rfl

/-! ## A flush -/

/-- The value that an assignment of the records one after the other leaves. -/
def lastValue (rs : List Record) : Int64 := (rs.getLast?.map (·.2)).getD 0

/-- Where the values sum to a value, the last one is it exactly when those before it sum to zero. -/
theorem lastValue_eq_iff {rs : List Record} {v : Int64} (h : (rs.map (·.2)).sum = v) :
    lastValue rs = v ↔ (rs.dropLast.map (·.2)).sum = 0 := by
  subst h
  rcases List.eq_nil_or_concat rs with rfl | ⟨front, last, rfl⟩
  · exact iff_of_true rfl rfl
  · rw [lastValue, List.concat_eq_append, List.getLast?_concat, List.dropLast_concat, List.map_append, List.sum_append]
    show last.2 = (front.map (·.2)).sum + [last.2].sum ↔ _
    rw [List.sum_singleton]
    constructor
    · intro heq
      have hcancel : (front.map (·.2)).sum + last.2 = 0 + last.2 := by rw [← heq, Int64.zero_add]
      exact (Int64.add_left_inj last.2).1 hcancel
    · intro hzero
      rw [hzero, Int64.zero_add]

section Pure

variable {f : Bytes → List Int64 → List Record}

theorem combineAll_eq (hpure : C.Pure f) : ∀ (self : C.State) (entries : List Record),
    (combineAll self entries).2 = entries.flatMap fun e => f e.1 [e.2]
  | _, [] => rfl
  | self, (key, v) :: rest => by rw [combineAll, List.flatMap_cons, combineAll_eq hpure, hpure]

/-- After a flush there is at every key the last value the combiner emits for it. -/
theorem value_flush (hpure : C.Pure f) (hown : Combiner.OwnKeys f) {s : CombiningCollector C}
    (hcombiner : s.combiner.isSome) (key : Bytes) :
    value s.flush.buffer key = ((s.buffer.find key).map fun v => lastValue (f key [v])).getD 0 := by
  obtain ⟨self, hself⟩ := Option.isSome_iff_exists.1 hcombiner
  rw [flush, hself]
  simp only
  split
  · rename_i hempty
    have hnone : s.buffer.find key = none := by rw [OrderedMap.find, hempty]; rfl
    rw [value, hnone]; rfl
  · show value (OrderedMap.empty.assignAll _) key = _
    rw [value, OrderedMap.find_assignAll, combineAll_eq hpure, OrderedMap.find_empty, Option.or_none,
      OrderedMap.filter_flatMap_key key s.buffer.keys_nodup fun e _ r hr => hown e.1 [e.2] r hr, OrderedMap.find]
    cases hfind : s.buffer.entries.find? fun e => e.1 = key with
    | none => rfl
    | some e =>
      have hkey : e.1 = key := by simpa using List.find?_some hfind
      rw [← hkey]
      rfl

/-- A flush keeps all sums exactly when the combiner ends with the whole sum for every key. -/
theorem flush_keeps_iff (hpure : C.Pure f) (hown : Combiner.OwnKeys f) {s : CombiningCollector C}
    (hcombiner : s.combiner.isSome) :
    (∀ key, value s.flush.buffer key = value s.buffer key) ↔
      ∀ e ∈ s.buffer.entries, lastValue (f e.1 [e.2]) = e.2 := by
  constructor
  · rintro h ⟨key, v⟩ he
    have hkey := h key
    rw [value_flush hpure hown hcombiner, value, OrderedMap.mem_entries_iff.1 he] at hkey
    exact hkey
  · intro h key
    rw [value_flush hpure hown hcombiner, value]
    cases hfind : s.buffer.find key with
    | none => rfl
    | some v => exact h (key, v) (OrderedMap.mem_entries_iff.2 hfind)

/-! ## Sums over a run -/

/-- The call flushes only where the combiner ends with the whole sum for every key. -/
def KeepsAll (f : Bytes → List Int64 → List Record) (s : CombiningCollector C) (c : Call) : Prop :=
  s.due c → ∀ e ∈ (s.added c).buffer.entries, lastValue (f e.1 [e.2]) = e.2

/-- A combiner that keeps sums does so where what it emits before the last record of a key sums to zero. -/
theorem keepsAll_iff_dropLast (hsums : Combiner.KeepsSums f) (s : CombiningCollector C) (c : Call) :
    KeepsAll f s c ↔
      (s.due c → ∀ e ∈ (s.added c).buffer.entries, ((f e.1 [e.2]).dropLast.map (·.2)).sum = 0) := by
  have hlast : ∀ e : Record, lastValue (f e.1 [e.2]) = e.2 ↔ ((f e.1 [e.2]).dropLast.map (·.2)).sum = 0 := by
    intro e
    exact lastValue_eq_iff (by rw [hsums, List.sum_singleton])
  simp only [KeepsAll, hlast]

/-- In particular where it emits one record, the sum. -/
theorem keepsAll_of_sum (h : ∀ key values, f key values = [(key, values.sum)]) (s : CombiningCollector C) (c : Call) :
    KeepsAll f s c := by
  intro _ e _
  rw [h, List.sum_singleton]
  rfl

/-- The buffer has the sums of what was collected. -/
def Totals (calls : List Call) (s : CombiningCollector C) : Prop := ∀ key, value s.buffer key = total key calls

theorem total_snoc (key : Bytes) (calls : List Call) (c : Call) :
    total key (calls ++ [c]) = total key calls + total key [c] := by
  rw [total, collected, List.filterMap_append, valuesOf, List.filter_append, List.map_append, List.sum_append]
  rfl

/-- Before a flush the sums are right. -/
theorem totals_added {calls : List Call} {s : CombiningCollector C} (h : Totals calls s) (c : Call) :
    Totals (calls ++ [c]) (s.added c) := by
  intro key
  rw [total_snoc, ← h key]
  cases c with
  | collect key' v =>
    show ((s.buffer.assign key' (value s.buffer key' + v)).find key).getD 0 =
      value s.buffer key + (valuesOf key [(key', v)]).sum
    rw [OrderedMap.find_assign]
    by_cases hkey : key = key'
    · subst hkey
      rw [if_pos rfl, Option.getD_some, valuesOf_cons_self]
      simp [valuesOf]
    · rw [if_neg hkey, valuesOf_cons_ne (Ne.symm hkey)]
      simp [valuesOf, value]
  | flush => simp [added, total, collected, valuesOf]

/-- One call keeps the sums right exactly when it does not flush, or flushes without a loss. -/
theorem totals_perform_iff (hpure : C.Pure f) (hown : Combiner.OwnKeys f) {calls : List Call}
    {s : CombiningCollector C} (h : Totals calls s) (c : Call) :
    Totals (calls ++ [c]) (s.perform c) ↔ KeepsAll f s c := by
  have hadded := totals_added h c
  rw [perform_eq]
  cases hdue : s.due c with
  | false => exact iff_of_true (by simpa using hadded) (by rw [KeepsAll, hdue]; rintro ⟨⟩)
  | true =>
    have hcombiner : (s.added c).combiner.isSome := by
      rw [combiner_added]
      cases c with
      | collect key v => exact (of_decide_eq_true hdue).2
      | flush => exact hdue
    rw [if_pos rfl, KeepsAll, forall_prop_of_true hdue, ← flush_keeps_iff hpure hown hcombiner]
    exact forall_congr' fun key => by rw [hadded key]

/-- With a combiner that ends with the whole sum, whatever the buffer, the sums are right after any calls. -/
theorem totals_of_keepsAll (hpure : C.Pure f) (hown : Combiner.OwnKeys f)
    (hkeeps : ∀ (s : CombiningCollector C) (c : Call), KeepsAll f s c) (combiner : Option C.State)
    (flushThreshold : Int32) (calls : List Call) :
    Totals calls (after perform ({ combiner, flushThreshold } : CombiningCollector C) calls) := by
  have hstep : ∀ pre c, pre ++ [c] <+: calls →
      Totals pre (after perform ({ combiner, flushThreshold } : CombiningCollector C) pre) →
      Totals (pre ++ [c]) (perform (after perform ({ combiner, flushThreshold } : CombiningCollector C) pre) c) :=
    fun _ c _ h => (totals_perform_iff hpure hown h c).2 (hkeeps _ c)
  exact after_invariant (fun _ => rfl) hstep calls (List.prefix_refl calls)

/-- After every call the buffer has the sums of all values collected so far, exactly when the combiner, at each
flush and for each key of the buffer, ends with the whole sum. -/
theorem totals_iff (hpure : C.Pure f) (hown : Combiner.OwnKeys f) (combiner : Option C.State) (flushThreshold : Int32)
    (calls : List Call) :
    (∀ pre, pre <+: calls →
      Totals pre (after perform ({ combiner, flushThreshold } : CombiningCollector C) pre)) ↔
    ∀ pre c, pre ++ [c] <+: calls →
      KeepsAll f (after perform ({ combiner, flushThreshold } : CombiningCollector C) pre) c :=
  after_related_iff (fun _ => rfl) fun _ c _ h => totals_perform_iff hpure hown h c

end Pure

/-- The sum, and one more record that adds nothing. -/
def sumThenZero (key : Bytes) (values : List Int64) : List Record := [(key, values.sum), (key, 0)]

/-- A combiner that emits these. -/
def sumAndZero : Combiner where
  State := Unit
  fresh := ()
  combine := fun _ key values => ((), sumThenZero key values)

theorem sumAndZero_pure : sumAndZero.Pure sumThenZero := fun _ _ _ => rfl

theorem sumThenZero_ownKeys : Combiner.OwnKeys sumThenZero := by
  intro key values r hr
  rcases List.mem_cons.1 hr with rfl | hr
  · rfl
  · rw [List.mem_singleton.1 hr]

theorem sumThenZero_keepsSums : Combiner.KeepsSums sumThenZero := by
  intro key values
  show values.sum + ((0 : Int64) + 0) = values.sum
  rw [Int64.add_zero, Int64.add_zero]

/-- Calls with a threshold that two keys reach. -/
def twoKeys : List Call := [.collect (bytes "a") 5, .collect (bytes "b") 1, .collect (bytes "a") 2, .flush]

theorem totals_iff_twoKeys :
    (∀ pre, pre <+: twoKeys →
      Totals pre (after perform (⟨.empty, some (), 2⟩ : CombiningCollector sumAndZero) pre)) ↔
    ∀ pre c, pre ++ [c] <+: twoKeys →
      KeepsAll sumThenZero (after perform (⟨.empty, some (), 2⟩ : CombiningCollector sumAndZero) pre) c :=
  @totals_iff sumAndZero sumThenZero sumAndZero_pure sumThenZero_ownKeys (some ()) 2 twoKeys

/-- A sum that is collected and flushed is gone. -/
theorem totals_lost : ¬ ∀ (C : Combiner) (f : Bytes → List Int64 → List Record), C.Pure f → Combiner.OwnKeys f →
    Combiner.KeepsSums f → ∀ (combiner : Option C.State) (flushThreshold : Int32) (calls pre : List Call),
      pre <+: calls → Totals pre (after perform ({ combiner, flushThreshold } : CombiningCollector C) pre) := by
  intro h
  have htotals := h sumAndZero sumThenZero sumAndZero_pure sumThenZero_ownKeys sumThenZero_keepsSums (some ()) 10000
    [.collect (bytes "a") 5, .flush] _ (List.prefix_refl _) (bytes "a")
  exact absurd htotals (by decide)

end CombiningCollector

end MiniHadoop.Mapred

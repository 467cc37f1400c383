/-
A sequence file of typed keys and values. A program appends objects, and reads them back into objects of the types it
knows. Every record has its own lengths in the file, so a string that is too long for its sixteen bits comes back cut, and
does no harm to the records around it.
-/
import MiniHadoop.Io.SequenceFile

namespace MiniHadoop

open Text Wire Reading InputBuffer

/-! ## Objects -/

namespace Writable

/-- What is read back of an object: of a string as many bytes as its length modulo 65536. -/
def readBack : Writable → Writable
  | .utf8 value => .utf8 (value.take (value.length % 2 ^ 16))
  | v => v

/-- No string in it has 65536 bytes. -/
def Short (v : Writable) : Prop := ∀ value, v = .utf8 value → value.length < 2 ^ 16

theorem readBack_eq_iff (v : Writable) : v.readBack = v ↔ v.Short := by
  cases v with
  | utf8 value =>
    constructor
    · rintro heq _ ⟨⟩
      have hlen := congrArg List.length (Writable.utf8.inj heq)
      rw [List.length_take] at hlen
      omega
    · intro h
      exact congrArg Writable.utf8 (List.take_of_length_le (Nat.mod_eq_of_lt (h value rfl)).ge)
  | _ => exact iff_of_true rfl fun value h => by cases h

/-- A byte string has a length that is written in full. -/
def BytesFit (v : Writable) : Prop := ∀ value, v = .bytesWritable value → value.length < 2 ^ 31

/-- Only the null object is written as nothing. -/
theorem write_eq_nil_iff (v : Writable) : v.write = [] ↔ v = .nullWritable := by
  cases v with
  | nullWritable => exact iff_of_true rfl rfl
  | intWritable value => exact iff_of_false (List.cons_ne_nil _ _) (by simp)
  | longWritable value => exact iff_of_false (List.cons_ne_nil _ _) (by simp)
  | floatWritable bits => exact iff_of_false (List.cons_ne_nil _ _) (by simp)
  | booleanWritable value => exact iff_of_false (List.cons_ne_nil _ _) (by simp)
  | utf8 value => exact iff_of_false (List.cons_ne_nil _ _) (by simp)
  | bytesWritable value => exact iff_of_false (List.cons_ne_nil _ _) (by simp)
  | md5Hash digest => exact iff_of_false (List.cons_ne_nil _ _) (by simp)

/-- `ReadFields` of an object of the type from a vector. No vector is as large as the bound. -/
def readObject (t : WritableType) (data : Bytes) : Except Throw Writable :=
  if h : data.length < maxSize then (readFields t (reset ⟨data, h⟩)).map Prod.fst else .error .lengthError

/-- An object that has been written can be read, and is what `readBack` says. -/
theorem readObject_write {v : Writable} (hbytes : v.BytesFit) (hlen : v.write.length < maxSize) :
    readObject v.type v.write = .ok v.readBack := by
  have hreads : ∃ front back, v.write = front ++ back ∧ Reads rest (readFields v.type) front v.readBack := by
    by_cases hfits : v.Fits
    · have hback : v.readBack = v := by
        refine v.readBack_eq_iff.2 fun value h => ?_
        subst h
        exact hfits
      rw [hback]
      exact ⟨v.write, [], (List.append_nil _).symm, reads_writable hfits⟩
    · cases v with
      | utf8 value =>
        refine ⟨OutputBuffer.writeShort (UInt16.ofNat value.length).toInt16 ++ value.take (value.length % 2 ^ 16),
          value.drop (value.length % 2 ^ 16), ?_, (reads_unsignedShort _).bind ?_⟩
        · rw [List.append_assoc, List.take_append_drop]
          rfl
        · have hlast := (reads_raw (value.take (value.length % 2 ^ 16))).last Writable.utf8
          rw [List.length_take, Nat.min_eq_left (Nat.mod_le _ _)] at hlast
          exact hlast
      | bytesWritable value => exact absurd (hbytes value rfl) hfits
      | _ => exact absurd trivial hfits
  obtain ⟨front, back, hwrite, hreads⟩ := hreads
  obtain ⟨b, hread, -⟩ := hreads (reset ⟨v.write, hlen⟩) back hwrite
  rw [readObject, dif_pos hlen, hread]
  rfl

end Writable

/-! ## Files -/

namespace SequenceFileWriter

/-- `Append(key, value)`. -/
def append (w : SequenceFileWriter) (key value : Writable) : Status × SequenceFileWriter :=
  w.appendRaw key.write value.write

/-- A call of `Append` for each pair. -/
def appendPairs (w : SequenceFileWriter) (pairs : List (Writable × Writable)) : SequenceFileWriter :=
  pairs.foldl (fun w p => (w.append p.1 p.2).2) w

/-- What goes into the file for a pair. -/
def serialized (p : Writable × Writable) : Bytes × Bytes := (p.1.write, p.2.write)

theorem appendPairs_eq (w : SequenceFileWriter) (pairs : List (Writable × Writable)) :
    w.appendPairs pairs = w.appendAll (pairs.map serialized) := by
  rw [appendAll, List.foldl_map]
  rfl

/-- The pairs that are not rejected. -/
def acceptedPairs (pairs : List (Writable × Writable)) : List (Writable × Writable) :=
  pairs.filter fun p => p.1.type ≠ .nullWritable

theorem append_ok_iff (w : SequenceFileWriter) (key value : Writable) :
    (w.append key value).1 = .OK ↔ key.type ≠ .nullWritable := by
  rw [append, appendRaw_ok_iff, Ne, key.write_eq_nil_iff]
  cases key <;> simp [Writable.type]

theorem accepted_serialized (pairs : List (Writable × Writable)) :
    accepted (pairs.map serialized) = (acceptedPairs pairs).map serialized := by
  rw [accepted, List.filter_map, acceptedPairs]
  refine congrArg (List.map serialized) (List.filter_congr fun p _ => ?_)
  refine decide_eq_decide.2 ?_
  show p.1.write ≠ [] ↔ _
  rw [Ne, p.1.write_eq_nil_iff]
  cases p.1 <;> simp [Writable.type]

/-- `Count()` is the number of accepted calls. -/
theorem count_appendAll : ∀ (calls : List (Bytes × Bytes)), (∀ c ∈ calls, c.1 ≠ []) → ∀ w : SequenceFileWriter,
    (w.appendAll calls).count = w.count + UInt64.ofNat calls.length
  | [], _, w => by simp [appendAll]
  | c :: calls, hkeys, w => by
    have hc : c.1 ≠ [] := hkeys c (List.mem_cons_self ..)
    have ih := count_appendAll calls (fun d hd => hkeys d (List.mem_cons_of_mem _ hd)) (w.appendRaw c.1 c.2).2
    rw [appendAll, List.foldl_cons]
    refine ih.trans ?_
    rw [appendRaw, if_neg hc, List.length_cons, UInt64.ofNat_add]
    show w.count + 1 + _ = w.count + (_ + 1)
    rw [UInt64.add_assoc, UInt64.add_comm 1]

end SequenceFileWriter

namespace SequenceFileReader

open SequenceFileWriter (serialized acceptedPairs)

/-- The types of a pair. -/
abbrev PairType := WritableType × WritableType

def pairType (p : Writable × Writable) : PairType := (p.1.type, p.2.type)

/-- A call of `Next`, and `ReadFields` from `Key()` and `Value()` when it returns true. -/
def nextPair (r : SequenceFileReader) (t : PairType) : Except Throw (Option (Writable × Writable) × SequenceFileReader) := do
  let (ok, r) ← r.next
  if ok then
    let key ← Writable.readObject t.1 r.keyBuf
    let value ← Writable.readObject t.2 r.valBuf
    return (some (key, value), r)
  else return (none, r)

/-- One after the other, for these types. -/
def nextPairs : List PairType → SequenceFileReader → Except Throw (List (Option (Writable × Writable)))
  | [], _ => return []
  | t :: ts, r => do
    let (p, r) ← r.nextPair t
    let ps ← nextPairs ts r
    return p :: ps

/-- A pair of which all numbers fit. -/
def PairFits (p : Writable × Writable) : Prop :=
  p.1.BytesFit ∧ p.2.BytesFit ∧ p.1.write.length + p.2.write.length < 2 ^ 31

/-- What is read of a pair. -/
def pairBack (p : Writable × Writable) : Writable × Writable := (p.1.readBack, p.2.readBack)

theorem nextPair_none {r r' : SequenceFileReader} (h : r.next = .ok (false, r')) (t : PairType) :
    r.nextPair t = .ok (none, r') := by
  rw [nextPair, h]
  rfl

theorem nextPair_some {r r' : SequenceFileReader} {p : Writable × Writable} (h : r.next = .ok (true, r'))
    (hp : PairFits p) (hcurrent : r'.current = serialized p) :
    r.nextPair (pairType p) = .ok (some (pairBack p), r') := by
  obtain ⟨hkey, hvalue, hlen⟩ := hp
  have hkeyBuf : r'.keyBuf = p.1.write := congrArg Prod.fst hcurrent
  have hvalBuf : r'.valBuf = p.2.write := congrArg Prod.snd hcurrent
  have hreadKey := Writable.readObject_write hkey (lt_maxSize (by omega))
  have hreadValue := Writable.readObject_write hvalue (lt_maxSize (by omega))
  rw [nextPair, h]
  show (Writable.readObject p.1.type r'.keyBuf >>= fun key =>
    Writable.readObject p.2.type r'.valBuf >>= fun value => pure (some (key, value), r')) = _
  rw [hkeyBuf, hvalBuf, hreadKey, hreadValue]
  rfl

/-- Calls of `Next` that return these records give these pairs. -/
theorem nextPairs_of_nexts : ∀ {expected : List (PairType × Option (Writable × Writable))},
    (∀ x ∈ expected, ∀ p, x.2 = some p → x.1 = pairType p ∧ PairFits p) → ∀ {r : SequenceFileReader},
      nexts expected.length r = .ok (expected.map fun x => x.2.map serialized) →
        nextPairs (expected.map Prod.fst) r = .ok (expected.map fun x => x.2.map pairBack)
  | [], _, _, _ => rfl
  | x :: expected, hfit, r, h => by
    obtain ⟨t, o⟩ := x
    cases hnext : r.next with
    | error e =>
      rw [List.length_cons, nexts, hnext] at h
      cases h
    | ok out =>
      obtain ⟨ok, r'⟩ := out
      cases hrest : nexts expected.length r' with
      | error e =>
        rw [List.length_cons, nexts, hnext] at h
        change (nexts expected.length r' >>= _) = _ at h
        rw [hrest] at h
        cases h
      | ok records =>
        have hall := (nexts_succ hnext hrest).symm.trans h
        rw [List.map_cons, Except.ok.injEq, List.cons.injEq] at hall
        obtain ⟨hhead, htail⟩ := hall
        have ih := nextPairs_of_nexts (fun x hx => hfit x (List.mem_cons_of_mem _ hx)) (hrest.trans (congrArg _ htail))
        have hpair : r.nextPair t = .ok (o.map pairBack, r') := by
          cases o with
          | none =>
            cases ok with
            | false => exact nextPair_none hnext t
            | true => cases hhead
          | some p =>
            cases ok with
            | false => cases hhead
            | true =>
              obtain ⟨rfl, hp⟩ := hfit (t, some p) (List.mem_cons_self ..) p rfl
              exact nextPair_some hnext hp (Option.some.inj hhead)
        rw [List.map_cons, List.map_cons, nextPairs, hpair]
        show (nextPairs (expected.map Prod.fst) r' >>= _) = _
        rw [ih]
        rfl

/-- A list read at places that go beyond its end. -/
theorem map_getElem?_range {α : Type} (l : List α) (m : Nat) :
    (List.range (l.length + m)).map (fun i => l[i]?) = l.map some ++ List.replicate m none := by
  refine List.ext_getElem? fun i => ?_
  rw [List.getElem?_map, List.getElem?_append, List.getElem?_map, List.getElem?_replicate, List.length_map]
  by_cases hi : i < l.length
  · rw [List.getElem?_range (by omega), if_pos hi, Option.map_some, List.getElem?_eq_getElem hi]
    rfl
  · rw [if_neg hi]
    by_cases him : i < l.length + m
    · rw [List.getElem?_range him, if_pos (by omega), Option.map_some, List.getElem?_eq_none (Nat.le_of_not_lt hi)]
    · rw [if_neg (by omega), List.getElem?_eq_none (by rw [List.length_range]; exact Nat.le_of_not_lt him)]
      rfl

/-- The calls after `k` records: pairs of the types asked for, and then nothing. -/
theorem nextPairs_take {pairs : List (Writable × Writable)} (hfits : ∀ p ∈ pairs, PairFits p) {k : Nat}
    (hk : k ≤ pairs.length) {r : SequenceFileReader}
    (h : ∀ m, nexts m r = .ok ((List.range m).map fun i => ((pairs.map serialized).take k)[i]?)) (more : List PairType) :
    nextPairs (pairs.map pairType ++ more) r =
      .ok ((pairs.take k).map (fun p => some (pairBack p)) ++ List.replicate (pairs.length - k + more.length) none) := by
  let expected : List (PairType × Option (Writable × Writable)) :=
    (pairs.take k).map (fun p => (pairType p, some p)) ++
      ((pairs.drop k).map (fun p => (pairType p, none)) ++ more.map fun t => (t, none))
  have htypes : expected.map Prod.fst = pairs.map pairType ++ more := by
    rw [List.map_append, List.map_append, List.map_map, List.map_map, List.map_map, ← List.append_assoc]
    show (pairs.take k).map pairType ++ (pairs.drop k).map pairType ++ more.map id = _
    rw [← List.map_append, List.take_append_drop, List.map_id]
  have hshown : ∀ {β : Type} (f : Writable × Writable → β), expected.map (fun x => x.2.map f) =
      (pairs.take k).map (fun p => some (f p)) ++ List.replicate (pairs.length - k + more.length) none := by
    intro β f
    rw [List.map_append, List.map_append, List.map_map, List.map_map, List.map_map]
    congr 1
    show (pairs.drop k).map (fun _ => none) ++ more.map (fun _ => none) = _
    rw [List.map_const', List.map_const', List.replicate_append_replicate, List.length_drop]
  have hlen : expected.length = ((pairs.map serialized).take k).length + (pairs.length - k + more.length) := by
    rw [← List.length_map Prod.fst, htypes, List.length_append, List.length_map, List.length_take, List.length_map]
    omega
  have hrecords : nexts expected.length r = .ok (expected.map fun x => x.2.map serialized) := by
    rw [h, hlen, map_getElem?_range, hshown, ← List.map_take, List.map_map]
    rfl
  have hall := nextPairs_of_nexts (fun x hx p hp => ?_) hrecords
  · rw [htypes, hshown] at hall
    exact hall
  · rcases List.mem_append.1 hx with hx | hx
    · obtain ⟨q, hq, rfl⟩ := List.mem_map.1 hx
      obtain rfl := Option.some.inj hp
      exact ⟨rfl, hfits q (List.mem_of_mem_take hq)⟩
    · rcases List.mem_append.1 hx with hx | hx
      · obtain ⟨q, -, rfl⟩ := List.mem_map.1 hx
        cases hp
      · obtain ⟨t, -, rfl⟩ := List.mem_map.1 hx
        cases hp

theorem map_pairBack_iff (pairs : List (Writable × Writable)) :
    pairs.map pairBack = pairs ↔ ∀ p ∈ pairs, p.1.Short ∧ p.2.Short := by
  nth_rewrite 2 [← List.map_id pairs]
  rw [List.map_inj_left]
  refine forall₂_congr fun p _ => ?_
  rw [← p.1.readBack_eq_iff, ← p.2.readBack_eq_iff, pairBack, id, Prod.ext_iff]

/-- A typed file, also after it was cut: `Append` rejects the null key and nothing else, and `Count()` counts the others;
the pairs that end before the cut are read, each as `readBack` says of its key and its value, and all later calls find
nothing, whatever types they ask for. So what is read is what was appended exactly when no string in it is too long. -/
theorem nextPairs_openFile (sync : Fin kMD5Len → UInt8) {pairs : List (Writable × Writable)}
    (hfits : ∀ p ∈ pairs, PairFits p) :
    (∀ (w : SequenceFileWriter) (p : Writable × Writable), (w.append p.1 p.2).1 = .OK ↔ p.1.type ≠ .nullWritable) ∧
      ((SequenceFileWriter.openFile sync).appendPairs pairs).count = UInt64.ofNat (acceptedPairs pairs).length ∧
      ∀ n, 20 ≤ n → ∃ r, openFile (((SequenceFileWriter.openFile sync).appendPairs pairs).file.take n) = (.OK, r) ∧
        ∃ k ≤ (acceptedPairs pairs).length,
          (∀ i ≤ (acceptedPairs pairs).length,
            i ≤ k ↔ ((SequenceFileWriter.openFile sync).appendPairs ((acceptedPairs pairs).take i)).file.length ≤ n) ∧
          ∀ more, nextPairs ((acceptedPairs pairs).map pairType ++ more) r =
              .ok (((acceptedPairs pairs).take k).map (fun p => some (pairBack p)) ++
                List.replicate ((acceptedPairs pairs).length - k + more.length) none) ∧
            (((acceptedPairs pairs).take k).map pairBack = (acceptedPairs pairs).take k ↔
              ∀ p ∈ (acceptedPairs pairs).take k, p.1.Short ∧ p.2.Short) := by
  have hmem : ∀ p ∈ acceptedPairs pairs, p.1.write ≠ [] ∧ PairFits p := by
    intro p hp
    obtain ⟨hp, hkey⟩ := List.mem_filter.1 hp
    refine ⟨?_, hfits p hp⟩
    rw [Ne, p.1.write_eq_nil_iff]
    rintro hnull
    rw [hnull] at hkey
    simp [Writable.type] at hkey
  have hkeys : ∀ {ps : List (Writable × Writable)}, (∀ p ∈ ps, p ∈ acceptedPairs pairs) →
      ∀ c ∈ ps.map serialized, c.1 ≠ [] := by
    intro ps hps c hc
    obtain ⟨p, hp, rfl⟩ := List.mem_map.1 hc
    exact (hmem p (hps p hp)).1
  have hsame : (SequenceFileWriter.openFile sync).appendPairs pairs =
      (SequenceFileWriter.openFile sync).appendAll ((acceptedPairs pairs).map serialized) := by
    rw [SequenceFileWriter.appendPairs_eq, SequenceFileWriter.appendAll_accepted, SequenceFileWriter.accepted_serialized]
  have hfile : ∀ {ps : List (Writable × Writable)}, (∀ p ∈ ps, p ∈ acceptedPairs pairs) →
      ((SequenceFileWriter.openFile sync).appendAll (ps.map serialized)).file =
        (SequenceFileWriter.kMagic ++ List.ofFn sync) ++ SequenceFileWriter.blocks sync 0 (ps.map serialized) :=
    fun hps => SequenceFileWriter.appendAll_file (hkeys hps) _
  refine ⟨fun w p => w.append_ok_iff p.1 p.2, ?_, fun n hn => ?_⟩
  · rw [hsame, SequenceFileWriter.count_appendAll _ (hkeys fun p hp => hp), List.length_map]
    exact UInt64.zero_add _
  · rw [hsame, hfile fun p hp => hp]
    obtain ⟨r, hopen, hf, hrest⟩ := openFile_take sync hn
    have hlen : ∀ c ∈ (acceptedPairs pairs).map serialized, c.1.length + c.2.length < 2 ^ 31 := by
      intro c hc
      obtain ⟨p, hp, rfl⟩ := List.mem_map.1 hc
      exact (hmem p hp).2.2.2
    obtain ⟨k, hk, hends, hreads⟩ := nexts_blocks sync hlen hf hrest
    rw [List.length_map] at hk hends
    refine ⟨r, hopen, k, hk, fun i hi => ?_, fun more => ⟨?_, map_pairBack_iff _⟩⟩
    · rw [SequenceFileWriter.appendPairs_eq, hfile fun p hp => List.mem_of_mem_take hp, List.map_take, hends i hi,
        List.length_append, List.length_append, List.length_ofFn, SequenceFileWriter.length_kMagic,
        show kMD5Len = 16 from rfl]
      omega
    · exact nextPairs_take (fun p hp => (hmem p hp).2) hk hreads more

/-- A pair, and one with the null key that is rejected. -/
def wordAndNull : List (Writable × Writable) :=
  [(.utf8 (bytes "word"), .longWritable 7), (.nullWritable, .longWritable 8)]

theorem nextPairs_wordAndNull : ∃ r,
    openFile (((SequenceFileWriter.openFile fun _ => 0).appendPairs wordAndNull).file.take 42) = (.OK, r) ∧
      nextPairs [(.utf8, .longWritable), (.utf8, .longWritable)] r =
        .ok [some (.utf8 (bytes "word"), .longWritable 7), none] := by
  have hfits : ∀ p ∈ wordAndNull, PairFits p := by
    intro p hp
    rcases List.mem_pair.1 hp with rfl | rfl
    · exact ⟨fun _ h => (by cases h), fun _ h => (by cases h), by decide⟩
    · exact ⟨fun _ h => (by cases h), fun _ h => (by cases h), by decide⟩
  obtain ⟨-, -, hcut⟩ := nextPairs_openFile (fun _ => 0) hfits
  obtain ⟨r, hopen, k, hk, hends, hreads⟩ := hcut 42 (by decide)
  obtain rfl : k = 1 := le_antisymm hk ((hends 1 (by decide)).2 (by decide))
  exact ⟨r, hopen, (hreads [(.utf8, .longWritable)]).1⟩

end SequenceFileReader

end MiniHadoop

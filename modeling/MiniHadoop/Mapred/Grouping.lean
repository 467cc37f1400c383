/-
Grouping by key. Runs of equal keys in a list that is sorted by key are all the values of a key, whatever sorting
algorithm brought the records into order; a reducer that only looks at the key and at which values there are then
collects the same for the same records.
-/
import Mathlib.Data.List.Dedup
import Mathlib.Data.Multiset.Basic
import MiniHadoop.Mapred.Api

namespace MiniHadoop.Mapred

open Text

/-- The values of a key. -/
def valuesOf (key : Bytes) (rs : List Record) : List Int64 := (rs.filter fun r => r.1 = key).map (·.2)

theorem valuesOf_perm {key : Bytes} {rs rs' : List Record} (h : rs.Perm rs') :
    (valuesOf key rs).Perm (valuesOf key rs') := (h.filter _).map _

theorem valuesOf_cons_self (key : Bytes) (value : Int64) (rs : List Record) :
    valuesOf key ((key, value) :: rs) = value :: valuesOf key rs := by
  rw [valuesOf, List.filter_cons_of_pos (by simp), List.map_cons, valuesOf]

theorem valuesOf_cons_ne {key key' : Bytes} (h : key' ≠ key) (value : Int64) (rs : List Record) :
    valuesOf key ((key', value) :: rs) = valuesOf key rs := by
  rw [valuesOf, List.filter_cons_of_neg (by simpa using h), valuesOf]

theorem valuesOf_eq_nil {key : Bytes} {rs : List Record} (h : key ∉ rs.map (·.1)) : valuesOf key rs = [] := by
  rw [valuesOf, List.map_eq_nil_iff, List.filter_eq_nil_iff]
  intro r hr heq
  exact h (List.mem_map.2 ⟨r, hr, by simpa using heq⟩)

/-! ## Runs of equal keys -/

/-- The records are in the order of their keys. -/
def KeySorted (rs : List Record) : Prop := rs.Pairwise fun a b => a.1 ≤ b.1

/-- The groups are the keys of the records, in order, each with its values. -/
structure Grouped (rs : List Record) (groups : List (Bytes × List Int64)) : Prop where
  keys : (groups.map (·.1)).Pairwise (· < ·)
  mem : ∀ key, key ∈ groups.map (·.1) ↔ key ∈ rs.map (·.1)
  values : ∀ g ∈ groups, g.2 = valuesOf g.1 rs

theorem Grouped.nodup {rs : List Record} {groups : List (Bytes × List Int64)} (h : Grouped rs groups) :
    (groups.map (·.1)).Nodup := by
  refine h.keys.imp ?_
  rintro a _ hlt rfl
  exact List.lt_irrefl a hlt

/-- A record with the key of the first group. -/
theorem Grouped.cons_same {rs : List Record} {key : Bytes} {values : List Int64} {groups : List (Bytes × List Int64)}
    (h : Grouped rs ((key, values) :: groups)) (value : Int64) :
    Grouped ((key, value) :: rs) ((key, value :: values) :: groups) := by
  have hkeys := h.nodup
  rw [List.map_cons, List.nodup_cons] at hkeys
  refine ⟨h.keys, fun k => ?_, fun g hg => ?_⟩
  · have := h.mem k
    simp only [List.map_cons, List.mem_cons] at this ⊢
    rw [← this]
    tauto
  · rcases List.mem_cons.1 hg with rfl | hg
    · rw [valuesOf_cons_self, ← h.values _ (List.mem_cons_self ..)]
    · have hne : key ≠ g.1 := by
        intro heq
        exact hkeys.1 (List.mem_map.2 ⟨g, hg, heq.symm⟩)
      rw [valuesOf_cons_ne hne]
      exact h.values g (List.mem_cons_of_mem _ hg)

/-- A record with a smaller key. -/
theorem Grouped.cons_new {rs : List Record} {key : Bytes} {groups : List (Bytes × List Int64)} (h : Grouped rs groups)
    (hkey : ∀ g ∈ groups, key < g.1) (value : Int64) : Grouped ((key, value) :: rs) ((key, [value]) :: groups) := by
  have hne : ∀ g ∈ groups, key ≠ g.1 := fun g hg heq => List.lt_irrefl _ (heq ▸ hkey g hg)
  refine ⟨?_, fun k => ?_, fun g hg => ?_⟩
  · rw [List.map_cons, List.pairwise_cons]
    refine ⟨fun k hk => ?_, h.keys⟩
    obtain ⟨g, hg, rfl⟩ := List.mem_map.1 hk
    exact hkey g hg
  · rw [List.map_cons, List.map_cons, List.mem_cons, List.mem_cons, h.mem]
  · rcases List.mem_cons.1 hg with rfl | hg
    · have hnone : key ∉ rs.map (·.1) := by
        rw [← h.mem]
        intro hmem
        obtain ⟨g, hg, heq⟩ := List.mem_map.1 hmem
        exact hne g hg heq.symm
      rw [valuesOf_cons_self, valuesOf_eq_nil hnone]
    · rw [valuesOf_cons_ne (hne g hg)]
      exact h.values g hg

/-- The runs of equal keys in a sorted list are all its groups. -/
theorem grouped_groupRuns : ∀ {rs : List Record}, KeySorted rs → Grouped rs (groupRuns rs)
  | [], _ => ⟨List.Pairwise.nil, fun key => Iff.rfl, fun g hg => nomatch hg⟩
  | (key, value) :: rest, h => by
    have hrest := grouped_groupRuns (List.pairwise_cons.1 h).2
    have hle : ∀ g ∈ groupRuns rest, key ≤ g.1 := by
      intro g hg
      obtain ⟨r, hr, heq⟩ := List.mem_map.1 ((hrest.mem g.1).1 (List.mem_map_of_mem hg))
      rw [← heq]
      exact (List.pairwise_cons.1 h).1 r hr
    rw [groupRuns]
    cases hgroups : groupRuns rest with
    | nil =>
      rw [hgroups] at hrest
      exact hrest.cons_new (fun g hg => nomatch hg) value
    | cons first groups =>
      obtain ⟨next, values⟩ := first
      rw [hgroups] at hrest hle
      by_cases heq : key = next
      · subst heq
        simp only [if_true]
        exact hrest.cons_same value
      · simp only [if_neg heq]
        refine hrest.cons_new (fun g hg => ?_) value
        have hlt : key < next := by
          by_contra hge
          exact heq (List.le_antisymm (hle _ (List.mem_cons_self ..)) hge)
        rcases List.mem_cons.1 hg with rfl | hg
        · exact hlt
        · exact List.lt_trans hlt ((List.pairwise_cons.1 hrest.keys).1 _ (List.mem_map_of_mem hg))

theorem keySorted_sortRecords (rs : List Record) : KeySorted (sortRecords rs) := by
  refine (List.pairwise_insertionSort RecordLe rs).imp fun hle => ?_
  rcases hle with hlt | ⟨heq, -⟩
  · exact List.le_of_lt hlt
  · exact heq ▸ List.le_refl _

/-- Sorted keys of which none comes twice ascend. -/
theorem keys_ascend {β : Type} {l : List (Bytes × β)} (hsorted : l.Pairwise fun a b => a.1 ≤ b.1)
    (hnodup : (l.map (·.1)).Nodup) : l.Pairwise fun a b => a.1 < b.1 := by
  have hdistinct : l.Pairwise fun a b => a.1 ≠ b.1 := List.pairwise_map.1 hnodup
  refine (hsorted.and hdistinct).imp fun {a b} h => ?_
  by_contra hnot
  exact h.2 (List.le_antisymm h.1 hnot)

/-! ## Reducers -/

namespace Reducer

/-- What a reducer collects in a call depends on the key and on the multiset of the values only. -/
def OfMultiset (r : Reducer) (f : Bytes → Multiset Int64 → List Record) : Prop :=
  ∀ (self : r.State) (key : Bytes) (values : List Int64), (r.reduce self key values).2 = f key values

theorem reduceAll_pure {r : Reducer} {f : Bytes → List Int64 → List Record} (h : r.Pure f) :
    ∀ (self : r.State) (groups : List (Bytes × List Int64)),
      r.reduceAll self groups = groups.flatMap fun g => f g.1 g.2
  | _, [] => rfl
  | self, (key, values) :: groups => by
    rw [Reducer.reduceAll, List.flatMap_cons, h self key values, reduceAll_pure h]

theorem reduceAll_eq {r : Reducer} {f : Bytes → Multiset Int64 → List Record} (h : r.OfMultiset f)
    (self : r.State) (groups : List (Bytes × List Int64)) :
    r.reduceAll self groups = groups.flatMap fun g => f g.1 g.2 :=
  @reduceAll_pure r (fun key values => f key values) h self groups

/-- What such a reducer collects from all records, one key after the other. -/
def results (f : Bytes → Multiset Int64 → List Record) (rs : List Record) : List Record :=
  (rs.map (·.1)).dedup.flatMap fun key => f key (valuesOf key rs)

/-- Groups with each key once, and with the values of the key in some order, are reduced to these results, in some
order. -/
theorem reduceAll_perm {r : Reducer} {f : Bytes → Multiset Int64 → List Record} (h : r.OfMultiset f) {rs : List Record}
    {groups : List (Bytes × List Int64)} (hnodup : (groups.map (·.1)).Nodup)
    (hmem : ∀ key, key ∈ groups.map (·.1) ↔ key ∈ rs.map (·.1))
    (hvalues : ∀ g ∈ groups, g.2.Perm (valuesOf g.1 rs)) (self : r.State) :
    (r.reduceAll self groups).Perm (results f rs) := by
  have hkeys : (groups.map (·.1)).Perm (rs.map (·.1)).dedup :=
    (List.perm_ext_iff_of_nodup hnodup (List.nodup_dedup _)).2 fun key => by rw [hmem, List.mem_dedup]
  have hcalls : (groups.flatMap fun g => f g.1 g.2) = (groups.map (·.1)).flatMap fun key => f key (valuesOf key rs) := by
    rw [List.flatMap_map]
    refine List.flatMap_congr fun g hg => ?_
    rw [Multiset.coe_eq_coe.2 (hvalues g hg)]
  rw [reduceAll_eq h, hcalls]
  exact hkeys.flatMap_right _

end Reducer

end MiniHadoop.Mapred

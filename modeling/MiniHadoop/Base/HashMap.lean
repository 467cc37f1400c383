/-
`std::unordered_map`: a finite map without repeated keys, and an iteration order over it. The order a
hash map is walked in is unspecified, so code that walks one takes an `Enumeration`, any function that
lists the entries of a map in some order.
-/
import Mathlib.Data.List.AList

/-- `std::unordered_map<κ, ν>`. -/
abbrev HashMap (κ ν : Type) [DecidableEq κ] := AList fun _ : κ => ν

namespace HashMap

variable {κ ν : Type} [DecidableEq κ]

/-- An order to walk the values of every map in; each entry comes up exactly once. -/
structure Enumeration (κ ν : Type) [DecidableEq κ] where
  entries : HashMap κ ν → List ((_ : κ) × ν)
  perm : ∀ m, (entries m).Perm m.entries

/-- The order in which the entries were inserted, last first. -/
def Enumeration.insertion : Enumeration κ ν := ⟨AList.entries, fun _ => List.Perm.refl _⟩

/-- The values in the order of the walk. -/
def Enumeration.values (e : Enumeration κ ν) (m : HashMap κ ν) : List ν := (e.entries m).map (·.2)

theorem Enumeration.length_values (e : Enumeration κ ν) (m : HashMap κ ν) :
    (e.values m).length = m.entries.length := by
  rw [values, List.length_map, (e.perm m).length_eq]

theorem Enumeration.mem_values {e : Enumeration κ ν} {m : HashMap κ ν} {v : ν} :
    v ∈ e.values m ↔ ∃ k, m.lookup k = some v := by
  rw [values, List.mem_map]
  constructor
  · rintro ⟨⟨k, v'⟩, h, rfl⟩
    exact ⟨k, AList.mem_lookup_iff.2 ((e.perm m).mem_iff.1 h)⟩
  · rintro ⟨k, h⟩
    exact ⟨⟨k, v⟩, (e.perm m).mem_iff.2 (AList.mem_lookup_iff.1 h), rfl⟩

theorem Enumeration.values_eq_nil {e : Enumeration κ ν} {m : HashMap κ ν} : e.values m = [] ↔ m.entries = [] := by
  rw [← List.length_eq_zero_iff, e.length_values, List.length_eq_zero_iff]

/-- Of what a walk collects for the entries of a map, the part for one key. -/
theorem flatMap_key {α : Type} {k : κ} {g : ν → List α} : ∀ {l : List ((_ : κ) × ν)}, l.NodupKeys →
    (l.flatMap fun e => if e.1 = k then g e.2 else []) = (l.dlookup k).elim [] g
  | [], _ => rfl
  | ⟨k', v⟩ :: l, h => by
    obtain ⟨hk', hl⟩ := List.nodupKeys_cons.1 h
    rw [List.flatMap_cons, flatMap_key hl]
    by_cases hk : k' = k
    · subst hk
      rw [if_pos rfl, List.dlookup_cons_eq, List.dlookup_eq_none.2 hk']
      exact List.append_nil _
    · rw [if_neg hk, List.dlookup_cons_ne _ _ (Ne.symm hk), List.nil_append]

theorem Enumeration.flatMap_key {α : Type} (e : Enumeration κ ν) (m : HashMap κ ν) (k : κ) (g : ν → List α) :
    ((e.entries m).flatMap fun x => if x.1 = k then g x.2 else []) = (m.lookup k).elim [] g := by
  have hn : (e.entries m).NodupKeys := (List.perm_nodupKeys (e.perm m)).2 m.nodupKeys
  rw [HashMap.flatMap_key hn, List.perm_dlookup k hn (e.perm m)]
  rfl

/-- `m[k]` of a value type whose default is `d`: the entry is made when it is missing. -/
def slot (m : HashMap κ ν) (k : κ) (d : ν) : ν := (m.lookup k).getD d

theorem lookup_insert_eq (m : HashMap κ ν) (k k' : κ) (v : ν) :
    (m.insert k v).lookup k' = if k' = k then some v else m.lookup k' := by
  by_cases h : k' = k
  · subst h; rw [if_pos rfl, AList.lookup_insert]
  · rw [if_neg h, AList.lookup_insert_ne h]

/-- Two tables that hold the same map; they may list it differently. -/
def Same (m m' : HashMap κ ν) : Prop := ∀ k, m.lookup k = m'.lookup k

theorem Same.perm {m m' : HashMap κ ν} (h : m.Same m') : m.entries.Perm m'.entries :=
  List.lookup_ext m.nodupKeys m'.nodupKeys fun k v => by
    rw [show m.entries.dlookup k = m'.entries.dlookup k from h k]

/-- Looking at an entry through `m[k]` keeps the map exactly when the entry was there. -/
theorem same_insert_slot_iff {m : HashMap κ ν} {k : κ} {d : ν} :
    m.Same (m.insert k (m.slot k d)) ↔ (m.lookup k).isSome := by
  constructor
  · intro h
    rw [h k, AList.lookup_insert]; rfl
  · intro h k'
    obtain ⟨v, hv⟩ := Option.isSome_iff_exists.1 h
    rw [lookup_insert_eq, slot, hv]
    split
    · rename_i hk; rw [hk, hv]; rfl
    · rfl

theorem entries_insert_ne_nil (m : HashMap κ ν) (k : κ) (v : ν) : (m.insert k v).entries ≠ [] := by
  rw [AList.entries_insert]; exact List.cons_ne_nil _ _

end HashMap

/-
`std::map`: the entries in ascending order of their keys, each key once. An assignment puts the entry in its place;
what a list of assignments leaves at a key is the last of them for the key.
-/
import Mathlib.Order.Defs.Unbundled
import Mathlib.Data.List.Nodup

/-- `std::map<κ, ν>`. -/
structure OrderedMap (κ ν : Type) [LT κ] where
  entries : List (κ × ν)
  ascending : entries.Pairwise fun a b => a.1 < b.1

namespace OrderedMap

variable {κ ν : Type} [LT κ]

/-- A map without entries. -/
def empty : OrderedMap κ ν := ⟨[], List.Pairwise.nil⟩

def size (m : OrderedMap κ ν) : Nat := m.entries.length

/-- Each key has one entry. -/
theorem keys_nodup [IsStrictTotalOrder κ (· < ·)] (m : OrderedMap κ ν) : (m.entries.map (·.1)).Nodup := by
  rw [List.Nodup, List.pairwise_map]
  refine m.ascending.imp fun {a b} hlt heq => ?_
  rw [heq] at hlt
  exact irrefl_of (· < ·) _ hlt

variable [DecidableEq κ]

/-- The value at a key. -/
def find (m : OrderedMap κ ν) (key : κ) : Option ν := (m.entries.find? fun e => e.1 = key).map (·.2)

theorem find_empty (key : κ) : (empty : OrderedMap κ ν).find key = none := rfl

/-- The entries are what is found. -/
theorem mem_entries_iff [IsStrictTotalOrder κ (· < ·)] {m : OrderedMap κ ν} {key : κ} {value : ν} :
    (key, value) ∈ m.entries ↔ m.find key = some value := by
  rw [find, Option.map_eq_some_iff]
  constructor
  · intro h
    refine ⟨(key, value), ?_, rfl⟩
    cases hfind : m.entries.find? fun e => e.1 = key with
    | none => simpa using List.find?_eq_none.1 hfind _ h
    | some e =>
      have hkey : e.1 = key := by simpa using List.find?_some hfind
      rw [List.inj_on_of_nodup_map m.keys_nodup (List.mem_of_find?_eq_some hfind) h hkey]
  · rintro ⟨⟨k, v⟩, hfind, rfl⟩
    have hkey : k = key := by simpa using List.find?_some hfind
    rw [← hkey]
    exact List.mem_of_find?_eq_some hfind

omit [LT κ] in
/-- Of what is made of the entries, each under its own key, the part for one key. -/
theorem filter_flatMap_key {α : Type} {g : κ × ν → List (κ × α)} (key : κ) : ∀ {l : List (κ × ν)},
    (l.map (·.1)).Nodup → (∀ e ∈ l, ∀ r ∈ g e, r.1 = e.1) →
    (l.flatMap g).filter (fun r => r.1 = key) = ((l.find? fun e => e.1 = key).map g).getD []
  | [], _, _ => rfl
  | e :: l, hnodup, hown => by
    obtain ⟨hnot, hnodup⟩ := List.nodup_cons.1 hnodup
    have ih := filter_flatMap_key key hnodup fun e' he' => hown e' (List.mem_cons_of_mem _ he')
    rw [List.flatMap_cons, List.filter_append, ih, List.find?_cons]
    by_cases he : e.1 = key
    · have hall : (g e).filter (fun r => r.1 = key) = g e := List.filter_eq_self.2 fun r hr => by
        simp [hown e (List.mem_cons_self ..) r hr, he]
      have hnone : l.find? (fun e => e.1 = key) = none := List.find?_eq_none.2 fun e' he' heq =>
        hnot (List.mem_map.2 ⟨e', he', (of_decide_eq_true heq).trans he.symm⟩)
      simp [hall, hnone, he]
    · have hnil : (g e).filter (fun r => r.1 = key) = [] := List.filter_eq_nil_iff.2 fun r hr => by
        simp [hown e (List.mem_cons_self ..) r hr, he]
      simp [hnil, he]

/-! ## Assignments -/

variable [DecidableLT κ]

/-- The entries with one more, or with another value at its key. -/
def put (key : κ) (value : ν) : List (κ × ν) → List (κ × ν)
  | [] => [(key, value)]
  | e :: rest =>
    if key < e.1 then (key, value) :: e :: rest
    else if e.1 = key then (key, value) :: rest
    else e :: put key value rest

theorem mem_put {key : κ} {value : ν} : ∀ {l : List (κ × ν)} {e : κ × ν}, e ∈ put key value l → e = (key, value) ∨ e ∈ l
  | [], e, h => .inl (List.mem_singleton.1 h)
  | e' :: rest, e, h => by
    rw [put] at h
    split at h
    · exact List.mem_cons.1 h
    · split at h
      · exact (List.mem_cons.1 h).imp_right (List.mem_cons_of_mem _)
      · rcases List.mem_cons.1 h with heq | hmem
        · exact .inr (List.mem_cons.2 (.inl heq))
        · exact (mem_put hmem).imp_right (List.mem_cons_of_mem _)

theorem ascending_put [IsStrictTotalOrder κ (· < ·)] (key : κ) (value : ν) :
    ∀ {l : List (κ × ν)}, l.Pairwise (fun a b => a.1 < b.1) → (put key value l).Pairwise fun a b => a.1 < b.1
  | [], _ => List.pairwise_singleton _ _
  | e :: rest, h => by
    obtain ⟨hfirst, hrest⟩ := List.pairwise_cons.1 h
    rw [put]
    split
    · rename_i hlt
      refine List.pairwise_cons.2 ⟨fun e' he' => ?_, h⟩
      rcases List.mem_cons.1 he' with rfl | he'
      · exact hlt
      · exact trans_of (· < ·) hlt (hfirst e' he')
    · rename_i hnot
      split
      · rename_i heq
        exact List.pairwise_cons.2 ⟨fun e' he' => heq ▸ hfirst e' he', hrest⟩
      · rename_i hne
        refine List.pairwise_cons.2 ⟨fun e' he' => ?_, ascending_put key value hrest⟩
        rcases mem_put he' with rfl | he'
        · exact (trichotomous_of (· < ·) e.1 key).resolve_right fun h => h.elim hne hnot
        · exact hfirst e' he'

/-- `m[key] = value`. -/
def assign [IsStrictTotalOrder κ (· < ·)] (m : OrderedMap κ ν) (key : κ) (value : ν) : OrderedMap κ ν :=
  ⟨put key value m.entries, ascending_put key value m.ascending⟩

theorem find?_put (key : κ) (value : ν) (k : κ) : ∀ l : List (κ × ν),
    (put key value l).find? (fun e => e.1 = k) = if k = key then some (key, value) else l.find? fun e => e.1 = k
  | [] => by
    rw [put, List.find?_cons, List.find?_nil]
    by_cases hk : key = k <;> simp [hk, eq_comm]
  | e :: rest => by
    rw [put]
    split
    · by_cases hk : key = k <;> simp [hk, eq_comm]
    · split
      · rename_i heq
        by_cases hk : key = k
        · simp [hk]
        · simp [hk, heq, eq_comm]
      · rename_i hne
        rw [List.find?_cons, List.find?_cons, find?_put key value k rest]
        by_cases hk : e.1 = k
        · have : k ≠ key := fun h => hne (hk.trans h)
          simp [hk, this]
        · simp [hk]

/-- What is at a key after an assignment. -/
theorem find_assign [IsStrictTotalOrder κ (· < ·)] (m : OrderedMap κ ν) (key : κ) (value : ν) (k : κ) :
    (m.assign key value).find k = if k = key then some value else m.find k := by
  rw [find, assign, find?_put]
  split <;> rfl

/-! ## Assignments in a row -/

variable [IsStrictTotalOrder κ (· < ·)]

/-- `for (const auto& [k, v] : rs) m[k] = v`. -/
def assignAll (m : OrderedMap κ ν) (rs : List (κ × ν)) : OrderedMap κ ν := rs.foldl (fun m r => m.assign r.1 r.2) m

/-- The last assignment to a key stays. -/
theorem find_assignAll (key : κ) : ∀ (rs : List (κ × ν)) (m : OrderedMap κ ν),
    (m.assignAll rs).find key = (((rs.filter fun r => r.1 = key).getLast?).map (·.2)).or (m.find key)
  | [], m => rfl
  | r :: rs, m => by
    show ((m.assign r.1 r.2).assignAll rs).find key = _
    rw [find_assignAll key rs, find_assign]
    by_cases hr : r.1 = key
    · rw [if_pos hr.symm, List.filter_cons_of_pos (by simpa using hr), List.getLast?_cons]
      cases (rs.filter fun r => r.1 = key).getLast? <;> rfl
    · rw [if_neg (Ne.symm hr), List.filter_cons_of_neg (by simpa using hr)]

end OrderedMap

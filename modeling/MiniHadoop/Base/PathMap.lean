/-
Maps from paths to values that remember the order of insertion: entries are added at the end, and the
keys directly below a path come in the order in which they were added.
-/
import Mathlib.Data.List.Infix

/-- A map from paths of keys to values, oldest entry first. -/
structure PathMap (κ ν : Type) where
  entries : List (List κ × ν)
  deriving DecidableEq, Repr

namespace PathMap

variable {κ ν : Type} [DecidableEq κ]

/-- The value at a path. -/
def find (m : PathMap κ ν) (c : List κ) : Option ν := (m.entries.find? fun e => e.1 = c).map (·.2)

/-- The last key of a path directly below `c`. -/
def lastBelow (c path : List κ) : Option κ := if path.dropLast = c then path.getLast? else none

/-- The keys directly below a path, oldest first. -/
def childKeys (m : PathMap κ ν) (c : List κ) : List κ := m.entries.filterMap fun e => lastBelow c e.1

/-- A new entry, behind the others. -/
def insert (m : PathMap κ ν) (c : List κ) (v : ν) : PathMap κ ν := ⟨m.entries ++ [(c, v)]⟩

/-- The map without a path and what is below it. -/
def prune (m : PathMap κ ν) (c : List κ) : PathMap κ ν := ⟨m.entries.filter fun e => ¬ c <+: e.1⟩

/-- The value at a path changed, in its place. -/
def modify (m : PathMap κ ν) (c : List κ) (f : ν → ν) : PathMap κ ν :=
  ⟨m.entries.map fun e => if e.1 = c then (e.1, f e.2) else e⟩

theorem lastBelow_concat (c p : List κ) (k : κ) : lastBelow c (p ++ [k]) = if p = c then some k else none := by
  unfold lastBelow
  rw [List.dropLast_concat, List.getLast?_concat]

theorem lastBelow_eq_some {c path : List κ} {k : κ} : lastBelow c path = some k ↔ path = c ++ [k] := by
  rcases List.eq_nil_or_concat path with rfl | ⟨p, j, rfl⟩
  · simp [lastBelow]
  · rw [List.concat_eq_append, lastBelow_concat]
    constructor
    · intro h
      split at h
      · rename_i hp; cases h; rw [hp]
      · cases h
    · intro h
      obtain ⟨rfl, hj⟩ := List.append_inj' h rfl
      rw [if_pos rfl, (List.cons.inj hj).1]

theorem find_isSome_iff {m : PathMap κ ν} {c : List κ} : (m.find c).isSome ↔ ∃ v, (c, v) ∈ m.entries := by
  unfold find
  rw [Option.isSome_map, List.find?_isSome]
  constructor
  · rintro ⟨⟨d, v⟩, hmem, hd⟩
    exact ⟨v, of_decide_eq_true hd ▸ hmem⟩
  · rintro ⟨v, hmem⟩
    exact ⟨(c, v), hmem, by simp⟩

theorem mem_childKeys {m : PathMap κ ν} {c : List κ} {k : κ} : k ∈ m.childKeys c ↔ (m.find (c ++ [k])).isSome := by
  rw [find_isSome_iff]
  constructor
  · intro h
    obtain ⟨⟨d, v⟩, hmem, hd⟩ := List.mem_filterMap.1 h
    exact ⟨v, lastBelow_eq_some.1 hd ▸ hmem⟩
  · rintro ⟨v, hmem⟩
    exact List.mem_filterMap.2 ⟨(c ++ [k], v), hmem, lastBelow_eq_some.2 rfl⟩

theorem find_insert (m : PathMap κ ν) (d : List κ) (v : ν) (c : List κ) :
    (m.insert d v).find c = (m.find c).or (if d = c then some v else none) := by
  unfold find insert
  rw [List.find?_append]
  cases m.entries.find? fun e => e.1 = c with
  | some e => rfl
  | none => by_cases h : d = c <;> simp [h]

theorem childKeys_insert (m : PathMap κ ν) (p : List κ) (k : κ) (v : ν) (c : List κ) :
    (m.insert (p ++ [k]) v).childKeys c = m.childKeys c ++ if c = p then [k] else [] := by
  unfold childKeys insert
  rw [List.filterMap_append, List.filterMap_cons, lastBelow_concat]
  by_cases h : p = c
  · simp [h]
  · simp [h, Ne.symm h]

theorem find_prune (m : PathMap κ ν) (d c : List κ) :
    (m.prune d).find c = if d <+: c then none else m.find c := by
  unfold find prune
  rw [List.find?_filter]
  split
  · rename_i hd
    rw [List.find?_eq_none.2, Option.map_none]
    rintro ⟨e, v⟩ - h
    simp only [decide_eq_true_eq] at h
    exact h.1 (h.2 ▸ hd)
  · rename_i hd
    congr 2
    funext e
    by_cases he : e.1 = c
    · simp [he, hd]
    · simp [he]

/-- Pruning a path takes it out of the keys below its parent and leaves the keys below other paths. -/
theorem childKeys_prune (m : PathMap κ ν) {p c : List κ} {k : κ} (h : ¬ p ++ [k] <+: c) :
    (m.prune (p ++ [k])).childKeys c = if c = p then (m.childKeys c).filter (· ≠ k) else m.childKeys c := by
  have hkeep : ∀ (e : List κ × ν) (j : κ), lastBelow c e.1 = some j → (p ++ [k] <+: e.1 ↔ c = p ∧ j = k) := by
    intro e j hj
    rw [lastBelow_eq_some.1 hj, List.prefix_concat_iff, or_iff_left h]
    constructor
    · intro heq
      obtain ⟨hp, hk⟩ := List.append_inj' heq rfl
      exact ⟨hp.symm, (List.cons.inj hk).1.symm⟩
    · rintro ⟨rfl, rfl⟩; rfl
  unfold childKeys prune
  simp only
  rw [List.filterMap_filter]
  split
  · rename_i hc
    rw [List.filter_filterMap]
    refine List.filterMap_congr fun e _ => ?_
    cases hj : lastBelow c e.1 with
    | none => simp
    | some j => by_cases hjk : j = k <;> simp [hkeep e j hj, hc, hjk, Option.filter]
  · rename_i hc
    refine List.filterMap_congr fun e _ => ?_
    cases hj : lastBelow c e.1 with
    | none => simp
    | some j => simp [hkeep e j hj, hc]

theorem find_modify (m : PathMap κ ν) (d : List κ) (f : ν → ν) (c : List κ) :
    (m.modify d f).find c = if c = d then (m.find c).map f else m.find c := by
  unfold find modify
  have hkey : ∀ e : List κ × ν, (if e.1 = d then (e.1, f e.2) else e).1 = e.1 := by
    intro e
    split <;> rfl
  simp only [List.find?_map, Function.comp_def, hkey]
  cases hf : m.entries.find? fun e => e.1 = c with
  | none => simp
  | some e =>
    have he : e.1 = c := by simpa using List.find?_some hf
    by_cases hc : c = d
    · simp [he, hc]
    · simp [he, hc]

theorem childKeys_modify (m : PathMap κ ν) (d : List κ) (f : ν → ν) (c : List κ) :
    (m.modify d f).childKeys c = m.childKeys c := by
  unfold childKeys modify
  rw [List.filterMap_map]
  refine List.filterMap_congr fun e _ => ?_
  simp only [Function.comp_apply]
  split <;> rfl

end PathMap

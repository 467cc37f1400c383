/-
A list cut into consecutive pieces of a given size, the last one possibly shorter, and pieces that tile a list.
-/
import Mathlib.Data.List.Basic
import Mathlib.Tactic.Cases

namespace Chunks

variable {α : Type}

/-- How many pieces of size `k` cover `n` elements. -/
def count (k n : Nat) : Nat := (n + k - 1) / k

/-- The pieces of size `k` of a list. -/
def chunks (k : Nat) (l : List α) : List (List α) :=
  (List.range (count k l.length)).map fun i => (l.drop (i * k)).take k

@[simp] theorem length_chunks (k : Nat) (l : List α) : (chunks k l).length = count k l.length := by
  rw [chunks, List.length_map, List.length_range]

theorem count_zero {k : Nat} (hk : 0 < k) : count k 0 = 0 := by
  rw [count, Nat.zero_add]; exact Nat.div_eq_of_lt (by omega)

theorem count_step {k n : Nat} (hk : 0 < k) (hn : 0 < n) : count k n = count k (n - k) + 1 := by
  unfold count
  by_cases h : n ≤ k
  · have h1 : (n + k - 1) / k = 1 := by
      rw [Nat.div_eq_iff hk]; omega
    have h2 : (n - k + k - 1) / k = 0 := Nat.div_eq_of_lt (by omega)
    rw [h1, h2]
  · have e : n + k - 1 = (n - k + k - 1) + k := by omega
    rw [e, Nat.add_div_right _ hk]

theorem chunks_nil {k : Nat} (hk : 0 < k) : chunks k ([] : List α) = [] := by
  rw [← List.length_eq_zero_iff, length_chunks, List.length_nil, count_zero hk]

/-- The first piece, then the pieces of the rest. -/
theorem chunks_cons {k : Nat} (hk : 0 < k) {l : List α} (hl : l ≠ []) :
    chunks k l = l.take k :: chunks k (l.drop k) := by
  have hpos : 0 < l.length := List.length_pos_iff.2 hl
  rw [chunks, count_step hk hpos, List.range_succ_eq_map, List.map_cons, List.map_map, chunks, List.length_drop]
  refine congrArg₂ _ (by simp) (List.map_congr_left fun i _ => ?_)
  rw [Function.comp_apply, List.drop_drop, Nat.succ_mul, Nat.add_comm]

theorem chunks_eq_nil {k : Nat} (hk : 0 < k) {l : List α} : chunks k l = [] ↔ l = [] := by
  refine ⟨fun h => ?_, fun h => by rw [h, chunks_nil hk]⟩
  by_contra hl
  rw [chunks_cons hk hl] at h; cases h

/-- The pieces make up the list. -/
theorem flatten_chunks {k : Nat} (hk : 0 < k) (l : List α) : (chunks k l).flatten = l := by
  by_cases hl : l = []
  · rw [hl, chunks_nil hk]; rfl
  · have hpos : 0 < l.length := List.length_pos_iff.2 hl
    have hlt : (l.drop k).length < l.length := by rw [List.length_drop]; omega
    rw [chunks_cons hk hl, List.flatten_cons, flatten_chunks hk (l.drop k), List.take_append_drop]
termination_by l.length

/-! ## Tilings -/

/-- Non-empty pieces with the places where they begin, each where the one before it ends, that make up a list which
begins at `start`. -/
inductive Tiles : Nat → List (Nat × List α) → List α → Prop
  | nil (start : Nat) : Tiles start [] []
  | cons {start : Nat} {piece rest : List α} {ps : List (Nat × List α)} (hne : piece ≠ [])
      (hrest : Tiles (start + piece.length) ps rest) : Tiles start ((start, piece) :: ps) (piece ++ rest)

/-- The pieces of a tiling cover the list, once. -/
theorem Tiles.flatten {start : Nat} {ps : List (Nat × List α)} {l : List α} (h : Tiles start ps l) :
    (ps.map (·.2)).flatten = l := by
  induction h with
  | nil => rfl
  | cons _ _ ih => rw [List.map_cons, List.flatten_cons, ih]

end Chunks

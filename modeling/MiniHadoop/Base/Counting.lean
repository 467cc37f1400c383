/-
The elements of a list by their places: what holds at every place, and the elements that meet a condition, and how many
they are, when one element is replaced and when a stronger condition counts as many.
-/
import Mathlib.Algebra.GroupWithZero.Nat
import Mathlib.Data.List.Basic

namespace Counting

variable {α β : Type} {l : List α} {k : Nat} {a a' : α}

/-- What holds at every place, counted from `n` on, holds at the first one and at those of the rest. -/
theorem forall_places_cons {P : Nat → α → Prop} {n : Nat} :
    (∀ j b, (a :: l)[j]? = some b → P (n + j) b) ↔ P n a ∧ ∀ j b, l[j]? = some b → P (n + 1 + j) b := by
  have hshift : ∀ j, n + 1 + j = n + (j + 1) := fun j => by omega
  constructor
  · intro h
    refine ⟨h 0 a rfl, fun j b hj => ?_⟩
    rw [hshift]
    exact h (j + 1) b hj
  · rintro ⟨hfirst, hrest⟩ j b hj
    cases j with
    | zero =>
      cases hj
      exact hfirst
    | succ j =>
      rw [← hshift]
      exact hrest j b hj

/-- What is at a place of a list with one more element was there before, or is that element. -/
theorem place_snoc (h : (l ++ [a'])[k]? = some a) : l[k]? = some a ∨ a = a' := by
  rw [List.getElem?_append] at h
  split at h
  · exact .inl h
  · exact .inr (List.mem_singleton.1 (List.mem_of_getElem? h))

/-- What shows the same thing is at the same place of a list that shows nothing twice. -/
theorem place_unique {f : α → Option β} {i j : Nat} {b : α} {x : β} (h : (l.filterMap f).Nodup)
    (hi : l[i]? = some a) (hj : l[j]? = some b) (ha : f a = some x) (hb : f b = some x) : i = j := by
  obtain ⟨hil, rfl⟩ := List.getElem?_eq_some_iff.1 hi
  obtain ⟨hjl, rfl⟩ := List.getElem?_eq_some_iff.1 hj
  have hpairs := List.pairwise_iff_getElem.1 (List.pairwise_filterMap.1 h)
  rcases Nat.lt_trichotomy i j with hlt | heq | hlt
  · exact absurd rfl (hpairs i j hil hjl hlt x ha x hb)
  · exact heq
  · exact absurd rfl (hpairs j i hjl hil hlt x hb x ha)

/-- A list split at one of its places. -/
theorem set_split (h : l[k]? = some a) :
    l = l.take k ++ a :: l.drop (k + 1) ∧ l.set k a' = l.take k ++ a' :: l.drop (k + 1) := by
  obtain ⟨hk, ha⟩ := List.getElem?_eq_some_iff.1 h
  refine ⟨?_, List.set_eq_take_append_cons_drop.trans (if_pos hk)⟩
  rw [← ha, ← List.drop_eq_getElem_cons hk, List.take_append_drop]

/-- Replacing an element changes a count by that element. -/
theorem countP_set_add (h : l[k]? = some a) (p : α → Bool) :
    (l.set k a').countP p + (if p a then 1 else 0) = l.countP p + (if p a' then 1 else 0) := by
  obtain ⟨hl, hset⟩ := @set_split _ l k a a' h
  rw [hset]
  nth_rewrite 3 [hl]
  rw [List.countP_append, List.countP_append, List.countP_cons, List.countP_cons]
  omega

/-- Replacing an element keeps every element that meets a condition, when neither the old one nor the new one does. -/
theorem mem_set_iff_of_not {p : α → Prop} {x : α} (h : l[k]? = some a) (ha : ¬ p a) (ha' : ¬ p a') (hx : p x) :
    x ∈ l.set k a' ↔ x ∈ l := by
  obtain ⟨hl, hset⟩ := @set_split _ l k a a' h
  rw [hset]
  nth_rewrite 3 [hl]
  have hne : x ≠ a := fun heq => ha (heq ▸ hx)
  have hne' : x ≠ a' := fun heq => ha' (heq ▸ hx)
  simp only [List.mem_append, List.mem_cons, hne, hne', false_or]

/-- Replacing an element changes a sum by that element. -/
theorem sum_map_set_add (h : l[k]? = some a) (f : α → Nat) :
    ((l.set k a').map f).sum + f a = (l.map f).sum + f a' := by
  obtain ⟨hl, hset⟩ := @set_split _ l k a a' h
  rw [hset]
  nth_rewrite 3 [hl]
  simp only [List.map_append, List.map_cons, List.sum_append, List.sum_cons]
  omega

/-- What a filter shows of a list does not change when an element is replaced by one that shows the same. -/
theorem map_filter_set {f : α → β} {p : α → Bool} (h : l[k]? = some a) (hp : p a' = p a) (hf : f a' = f a) :
    ((l.set k a').filter p).map f = (l.filter p).map f := by
  obtain ⟨hl, hset⟩ := @set_split _ l k a a' h
  rw [hset]
  nth_rewrite 3 [hl]
  rw [List.filter_append, List.filter_append, List.map_append, List.map_append]
  cases hpa : p a with
  | true =>
    rw [List.filter_cons_of_pos hpa, List.filter_cons_of_pos (hp.trans hpa), List.map_cons, List.map_cons, hf]
  | false =>
    have hnot : ∀ b, p b = false → ¬ p b = true := fun b hb => by simp [hb]
    rw [List.filter_cons_of_neg (hnot a' (hp.trans hpa)), List.filter_cons_of_neg (hnot a hpa)]

theorem map_set_of_eq {f : α → β} (h : l[k]? = some a) (hf : f a' = f a) : (l.set k a').map f = l.map f := by
  have hset := @map_filter_set _ _ l k a a' f (fun _ => true) h rfl hf
  rwa [List.filter_true, List.filter_true] at hset

/-- An element that is replaced by one that meets the condition is new in the filtered list. -/
theorem filter_set_perm {p : α → Bool} (h : l[k]? = some a) (hp : p a = false) (hp' : p a' = true) :
    ((l.set k a').filter p).Perm (l.filter p ++ [a']) := by
  obtain ⟨hl, hset⟩ := @set_split _ l k a a' h
  rw [hset]
  nth_rewrite 3 [hl]
  rw [List.filter_append, List.filter_append, List.filter_cons_of_pos hp', List.filter_cons_of_neg (by simp [hp])]
  exact List.perm_middle.trans (List.perm_append_singleton _ _).symm

/-- Replacing an element outside of the condition by another one outside of it does not change the filtered list. -/
theorem filter_set_of_neg {p : α → Bool} (h : l[k]? = some a) (hp : p a = false) (hp' : p a' = false) :
    (l.set k a').filter p = l.filter p := by
  obtain ⟨hl, hset⟩ := @set_split _ l k a a' h
  rw [hset]
  nth_rewrite 3 [hl]
  rw [List.filter_append, List.filter_append, List.filter_cons_of_neg (by simp [hp']),
    List.filter_cons_of_neg (by simp [hp])]

/-- What a list shows, when one element is replaced: what the old one showed goes, what the new one shows comes. -/
theorem filterMap_set_perm (h : l[k]? = some a) (f : α → Option β) :
    ((f a).toList ++ (l.set k a').filterMap f).Perm ((f a').toList ++ l.filterMap f) := by
  obtain ⟨hl, hset⟩ := @set_split _ l k a a' h
  have hmid : ∀ b, ((l.take k ++ b :: l.drop (k + 1)).filterMap f).Perm
      ((f b).toList ++ ((l.take k).filterMap f ++ (l.drop (k + 1)).filterMap f)) := by
    intro b
    rw [List.filterMap_append, List.filterMap_cons]
    cases f b with
    | none => exact List.Perm.refl _
    | some x => exact List.perm_middle
  rw [hset]
  nth_rewrite 3 [hl]
  refine ((hmid a').append_left _).trans (List.Perm.trans ?_ ((hmid a).append_left _).symm)
  simp only [← List.append_assoc]
  exact (List.perm_append_comm.append_right _).append_right _

/-- Nothing changes in what a list shows when the new element shows what the old one did. -/
theorem filterMap_set {f : α → Option β} (h : l[k]? = some a) (hf : f a' = f a) :
    (l.set k a').filterMap f = l.filterMap f := by
  obtain ⟨hl, hset⟩ := @set_split _ l k a a' h
  rw [hset]
  nth_rewrite 3 [hl]
  rw [List.filterMap_append, List.filterMap_append, List.filterMap_cons, List.filterMap_cons, hf]

/-- What is found in a list is found after a replacement that keeps it. -/
theorem exists_mem_set {P : α → Prop} (h : l[k]? = some a) (hkeep : P a → P a') (hex : ∃ x ∈ l, P x) :
    ∃ x ∈ l.set k a', P x := by
  obtain ⟨hl, hset⟩ := @set_split _ l k a a' h
  obtain ⟨x, hx, hPx⟩ := hex
  rw [hset]
  rw [hl] at hx
  rcases List.mem_append.1 hx with hx | hx
  · exact ⟨x, List.mem_append_left _ hx, hPx⟩
  · rcases List.mem_cons.1 hx with rfl | hx
    · exact ⟨a', by simp, hkeep hPx⟩
    · exact ⟨x, List.mem_append_right _ (List.mem_cons_of_mem _ hx), hPx⟩

theorem countP_and_le (q r : α → Bool) : ∀ l : List α, (l.countP fun a => q a && r a) ≤ l.countP q := fun l =>
  List.countP_mono_left fun a _ h => by
    simp only [Bool.and_eq_true] at h
    exact h.1

/-- When the elements that meet both conditions are as many as those that meet the first, it implies the second. -/
theorem all_of_countP_le {q r : α → Bool} (h : l.countP q ≤ l.countP fun a => q a && r a) :
    ∀ a ∈ l, q a = true → r a = true := by
  intro a ha hq
  by_contra hr
  obtain ⟨l₁, l₂, rfl⟩ := List.append_of_mem ha
  have h₁ := countP_and_le q r l₁
  have h₂ := countP_and_le q r l₂
  rw [List.countP_append, List.countP_append, List.countP_cons_of_pos hq,
    List.countP_cons_of_neg (by simp [hr])] at h
  omega

end Counting

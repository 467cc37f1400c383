/-
Words: the maximal runs of elements that are no separators. A list is scanned into its words; the scan of a part that
ends before a separator is independent of what follows, and a word comes up in the scan as often as it occurs as a
maximal run.
-/
import Mathlib.Data.List.Infix
import Mathlib.Data.List.TakeWhile
import Mathlib.Tactic.Cases

namespace Words

variable {α : Type} {sep : α → Bool}

/-! ## The scan -/

/-- `words` with the elements of the current word read so far. -/
def wordsFrom (sep : α → Bool) : List α → List α → List (List α)
  | cur, [] => if cur.isEmpty then [] else [cur]
  | cur, a :: rest =>
    if sep a then (if cur.isEmpty then wordsFrom sep [] rest else cur :: wordsFrom sep [] rest)
    else wordsFrom sep (cur ++ [a]) rest

/-- The words of a list, in their order. -/
def words (sep : α → Bool) (s : List α) : List (List α) := wordsFrom sep [] s

/-- A separator ends the words before it. -/
theorem wordsFrom_append {b : α} (hb : sep b = true) (y : List α) :
    ∀ x cur : List α, wordsFrom sep cur (x ++ b :: y) = wordsFrom sep cur x ++ words sep y
  | [], cur => by
    rw [List.nil_append, wordsFrom, wordsFrom, if_pos hb]
    cases cur <;> rfl
  | a :: x, cur => by
    rw [List.cons_append, wordsFrom, wordsFrom, wordsFrom_append hb y x, wordsFrom_append hb y x]
    split
    · split <;> rfl
    · rfl

theorem words_append {b : α} (hb : sep b = true) (x y : List α) :
    words sep (x ++ b :: y) = words sep x ++ words sep y := wordsFrom_append hb y x []

theorem words_cons_sep {b : α} (hb : sep b = true) (y : List α) : words sep (b :: y) = words sep y :=
  wordsFrom_append hb y [] []

theorem wordsFrom_word {s : List α} : ∀ {w : List α} (cur : List α), (∀ a ∈ w, sep a = false) →
    wordsFrom sep cur (w ++ s) = wordsFrom sep (cur ++ w) s
  | [], cur, _ => by rw [List.nil_append, List.append_nil]
  | a :: w, cur, h => by
    obtain ⟨ha, hw⟩ := List.forall_mem_cons.1 h
    rw [List.cons_append, wordsFrom, ha, if_neg Bool.false_ne_true, wordsFrom_word (cur ++ [a]) hw, List.append_assoc]
    rfl

/-- A word at the front, up to a separator or to the end. -/
theorem words_word {w s : List α} (hne : w ≠ []) (hw : ∀ a ∈ w, sep a = false) (hs : ∀ b ∈ s.head?, sep b = true) :
    words sep (w ++ s) = w :: words sep s := by
  have hempty : w.isEmpty = false := by rwa [List.isEmpty_eq_false_iff]
  rw [words, wordsFrom_word [] hw, List.nil_append]
  cases s with
  | nil => rw [wordsFrom, hempty]; rfl
  | cons b s =>
    have hb := hs b rfl
    rw [wordsFrom, if_pos hb, hempty, words_cons_sep hb]
    rfl

theorem dropWhile_head (p : α → Bool) (s : List α) : ∀ a ∈ (s.dropWhile p).head?, p a = false := by
  intro a ha
  have hhead := List.head?_dropWhile_not p s
  rw [ha] at hhead
  exact hhead

/-- A list that does not start with a separator starts with a word. -/
theorem takeWhile_word {a : α} (ha : sep a = false) (s : List α) :
    (a :: s).takeWhile (! sep ·) ≠ [] ∧ (∀ b ∈ (a :: s).takeWhile (! sep ·), sep b = false) ∧
      (∀ b ∈ ((a :: s).dropWhile (! sep ·)).head?, sep b = true) ∧
      ((a :: s).dropWhile (! sep ·)).length < (a :: s).length := by
  refine ⟨by simp [ha], fun b hb => ?_, fun b hb => ?_, ?_⟩
  · simpa using List.mem_takeWhile_imp hb
  · simpa using dropWhile_head (! sep ·) (a :: s) b hb
  · rw [List.dropWhile_cons_of_pos (by simp [ha]), List.length_cons]
    exact Nat.lt_succ_of_le (List.length_dropWhile_le ..)

/-! ## One word after the other -/

/-- The first word, behind the separators before it, and what follows it. -/
def firstWord (sep : α → Bool) (s : List α) : List α × List α :=
  ((s.dropWhile sep).takeWhile (! sep ·), (s.dropWhile sep).dropWhile (! sep ·))

theorem words_dropWhile : ∀ s : List α, words sep (s.dropWhile sep) = words sep s
  | [] => rfl
  | a :: s => by
    rw [List.dropWhile_cons]
    split
    · rename_i ha
      rw [words_dropWhile s, words_cons_sep ha]
    · rfl

/-- The words are the first word and those of what follows it; where there is no first word, there is none. -/
theorem words_firstWord {s w rest : List α} (h : firstWord sep s = (w, rest)) :
    (w = [] ∧ words sep s = []) ∨
      (w ≠ [] ∧ words sep s = w :: words sep rest ∧ rest.length < s.length) := by
  obtain ⟨rfl, rfl⟩ := Prod.mk.inj h
  have hhead := dropWhile_head sep s
  have hle : (s.dropWhile sep).length ≤ s.length := List.length_dropWhile_le ..
  rw [← words_dropWhile s]
  generalize s.dropWhile sep = t at hhead hle ⊢
  cases t with
  | nil => exact .inl ⟨rfl, rfl⟩
  | cons a t =>
    have ha : sep a = false := hhead a rfl
    obtain ⟨hne, hw, hend, hlt⟩ := takeWhile_word ha t
    have hwords := words_word hne hw hend
    rw [List.takeWhile_append_dropWhile] at hwords
    exact .inr ⟨hne, hwords, Nat.lt_of_lt_of_le hlt hle⟩

/-! ## Maximal runs -/

/-- `w` is a maximal run of elements that are no separators, and starts at place `i`. -/
def RunAt (sep : α → Bool) (s : List α) (i : Nat) (w : List α) : Prop :=
  w ≠ [] ∧ (∀ a ∈ w, sep a = false) ∧ w <+: s.drop i ∧ (∀ a ∈ (s.take i).getLast?, sep a = true) ∧
    ∀ a ∈ (s.drop (i + w.length)).head?, sep a = true

instance [DecidableEq α] (s : List α) (i : Nat) (w : List α) : Decidable (RunAt sep s i w) :=
  inferInstanceAs (Decidable (_ ∧ _ ∧ _ ∧ _ ∧ _))

/-- How often a word occurs. -/
def occurrences [DecidableEq α] (sep : α → Bool) (s w : List α) : Nat :=
  (List.range s.length).countP fun i => RunAt sep s i w

/-- A run starts with its first element, which is no separator. -/
theorem RunAt.head {s w : List α} {i : Nat} (h : RunAt sep s i w) : ∃ a ∈ (s.drop i).head?, a ∈ w ∧ sep a = false := by
  obtain ⟨hne, hw, ⟨t, hprefix⟩, -, -⟩ := h
  cases w with
  | nil => exact absurd rfl hne
  | cons a w => exact ⟨a, by rw [← hprefix]; rfl, List.mem_cons_self .., hw a (List.mem_cons_self ..)⟩

/-- The runs behind a part that ends in a separator, or that is followed by one, are those of the rest. -/
theorem runAt_append {x s : List α} (h : (∀ a ∈ x.getLast?, sep a = true) ∨ ∀ a ∈ s.head?, sep a = true) (j : Nat)
    (w : List α) : RunAt sep (x ++ s) (x.length + j) w ↔ RunAt sep s j w := by
  have hdrop : (x ++ s).drop (x.length + j) = s.drop j := List.drop_length_add_append j
  have hend : (x ++ s).drop (x.length + j + w.length) = s.drop (j + w.length) := by
    rw [Nat.add_assoc, List.drop_length_add_append]
  have htake : (x ++ s).take (x.length + j) = x ++ s.take j := List.take_length_add_append j
  have hlast : (s.drop j).head? = s.head? ∨ (s.take j) ≠ [] := by
    cases j with
    | zero => exact .inl rfl
    | succ j =>
      cases s with
      | nil => exact .inl rfl
      | cons a s => exact .inr (List.cons_ne_nil _ _)
  constructor
  · rintro ⟨hne, hw, hprefix, hbefore, hafter⟩
    rw [htake, List.getLast?_append] at hbefore
    refine ⟨hne, hw, hdrop ▸ hprefix, fun a ha => hbefore a ?_, hend ▸ hafter⟩
    rw [ha]
    rfl
  · intro hrun
    obtain ⟨hne, hw, hprefix, hbefore, hafter⟩ := id hrun
    refine ⟨hne, hw, hdrop ▸ hprefix, fun a ha => ?_, hend ▸ hafter⟩
    rw [htake, List.getLast?_append] at ha
    cases htail : (s.take j).getLast? with
    | some b =>
      rw [htail] at ha
      exact hbefore a (by rw [htail]; exact ha)
    | none =>
      rw [htail] at ha
      rcases h with h | h
      · exact h a ha
      · obtain ⟨b, hb, -, hsep⟩ := hrun.head
        rcases hlast with hlast | hlast
        · rw [hlast] at hb
          rw [h b hb] at hsep
          cases hsep
        · exact absurd (List.getLast?_eq_none_iff.1 htail) hlast

/-- The run at the start of a list that starts with a word is this word. -/
theorem runAt_zero {w s w' : List α} (hne : w ≠ []) (hw : ∀ a ∈ w, sep a = false) (hs : ∀ b ∈ s.head?, sep b = true) :
    RunAt sep (w ++ s) 0 w' ↔ w' = w := by
  constructor
  · rintro ⟨hne', hw', hprefix, -, hafter⟩
    rw [List.drop_zero] at hprefix
    rw [Nat.zero_add] at hafter
    rcases List.prefix_or_prefix_of_prefix hprefix (List.prefix_append w s) with ⟨t, rfl⟩ | ⟨t, rfl⟩
    · cases t with
      | nil => rw [List.append_nil]
      | cons b t =>
        rw [List.append_assoc, List.drop_left] at hafter
        have hb := hafter b rfl
        rw [hw b (List.mem_append_right _ (List.mem_cons_self ..))] at hb
        cases hb
    · cases t with
      | nil => rw [List.append_nil]
      | cons b t =>
        obtain ⟨u, rfl⟩ := (List.prefix_append_right_inj w).1 hprefix
        have hb := hs b rfl
        rw [hw' b (List.mem_append_right _ (List.mem_cons_self ..))] at hb
        cases hb
  · rintro rfl
    refine ⟨hne, hw, List.prefix_append _ s, fun a ha => ?_, fun a ha => hs a ?_⟩
    · cases ha
    · rwa [Nat.zero_add, List.drop_left] at ha

/-- Inside a word no run starts. -/
theorem not_runAt_inside {w s w' : List α} (hw : ∀ a ∈ w, sep a = false) {i : Nat} (hi : i + 1 < w.length) :
    ¬ RunAt sep (w ++ s) (i + 1) w' := by
  rintro ⟨-, -, -, hbefore, -⟩
  rw [List.take_append_of_le_length (by omega)] at hbefore
  have hlast : (w.take (i + 1)).getLast? = some w[i] := by
    rw [List.getLast?_take]
    simp [show i < w.length by omega]
  have hsep := hbefore _ hlast
  rw [hw _ (List.getElem_mem _)] at hsep
  cases hsep

section Occurrences

variable [DecidableEq α]

theorem occurrences_append {x s : List α} (h : (∀ a ∈ x.getLast?, sep a = true) ∨ ∀ a ∈ s.head?, sep a = true)
    (w : List α) : occurrences sep (x ++ s) w =
      ((List.range x.length).countP fun i => RunAt sep (x ++ s) i w) + occurrences sep s w := by
  rw [occurrences, List.length_append, List.range_add, List.countP_append, List.countP_map, occurrences]
  congr 1
  refine List.countP_congr fun j _ => ?_
  simpa using runAt_append h j w

theorem occurrences_le (s w : List α) : occurrences sep s w ≤ s.length := by
  have hle := List.countP_le_length (p := fun i => decide (RunAt sep s i w)) (l := List.range s.length)
  rwa [List.length_range] at hle

theorem occurrences_cons_sep {a : α} (ha : sep a = true) (s w : List α) :
    occurrences sep (a :: s) w = occurrences sep s w := by
  have hnone : ¬ RunAt sep (a :: s) 0 w := by
    intro hrun
    obtain ⟨b, hb, -, hsep⟩ := hrun.head
    cases hb
    rw [ha] at hsep
    cases hsep
  have happend := @occurrences_append _ sep _ [a] s (.inl fun b hb => by cases hb; exact ha) w
  rw [List.singleton_append] at happend
  rw [happend, List.length_singleton, List.range_one, List.countP_singleton, if_neg (by simpa using hnone),
    Nat.zero_add]

theorem occurrences_word {w s : List α} (hne : w ≠ []) (hw : ∀ a ∈ w, sep a = false)
    (hs : ∀ b ∈ s.head?, sep b = true) (w' : List α) :
    occurrences sep (w ++ s) w' = (if w' = w then 1 else 0) + occurrences sep s w' := by
  have hpos := List.length_pos_iff.2 hne
  obtain ⟨n, hn⟩ : ∃ n, w.length = n + 1 := ⟨w.length - 1, by omega⟩
  rw [occurrences_append (.inr hs), hn, List.range_succ_eq_map, List.countP_cons, List.countP_map]
  have hinside : ((List.range n).countP ((fun i => decide (RunAt sep (w ++ s) i w')) ∘ Nat.succ)) = 0 := by
    refine List.countP_eq_zero.2 fun i hi => ?_
    have hlt : i + 1 < w.length := by rw [hn]; exact Nat.succ_lt_succ (List.mem_range.1 hi)
    simpa using @not_runAt_inside _ sep w s w' hw i hlt
  rw [hinside, Nat.zero_add]
  simp only [runAt_zero hne hw hs, decide_eq_true_eq]

/-- A word comes up in the scan as often as it occurs. -/
theorem count_words (w : List α) : ∀ s : List α, (words sep s).count w = occurrences sep s w
  | [] => rfl
  | a :: s => by
    cases ha : sep a with
    | true => rw [words_cons_sep ha, occurrences_cons_sep ha, count_words w s]
    | false =>
      obtain ⟨hne, hfirst, hrest, hlt⟩ := takeWhile_word ha s
      have ih := count_words w ((a :: s).dropWhile (! sep ·))
      have hwords := words_word hne hfirst hrest
      have hoccurs := occurrences_word hne hfirst hrest w
      rw [List.takeWhile_append_dropWhile] at hwords hoccurs
      rw [hwords, hoccurs, List.count_cons, ih, Nat.add_comm]
      congr 1
      by_cases h : w = (a :: s).takeWhile (! sep ·)
      · rw [if_pos h, if_pos (by rw [← h]; exact beq_self_eq_true w)]
      · rw [if_neg h, if_neg (by simpa using Ne.symm h)]
termination_by s => s.length
decreasing_by
  · exact hlt
  · exact Nat.lt_succ_self _

example : words (· == 0) [2, 1, 0, 0, 2, 1, 0, 2] = [[2, 1], [2, 1], [2]] := by decide

end Occurrences

end Words

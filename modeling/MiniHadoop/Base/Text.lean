/-
Byte strings and the C++ standard text operations on them, by their documented behaviour in the
classic locale: `std::string::rfind` of a byte, the pieces a `std::getline` loop reads, and the
words `operator>>` extracts.
-/
import Mathlib.Data.List.Basic
import Mathlib.Tactic.Cases

namespace Text

/-- A `std::string`: arbitrary bytes. -/
abbrev Bytes := List UInt8

/-- The bytes of an ASCII literal. -/
def bytes (s : String) : Bytes := s.toList.map Char.toUInt8

/-- `std::isspace` in the classic locale: tab, newline, vertical tab, form feed, carriage return
and space. -/
def isSpace (b : UInt8) : Bool := b == 32 || (9 ≤ b && b ≤ 13)

theorem isSpace_of_all {s : Bytes} (h : s.all (! isSpace ·) = true) : ∀ b ∈ s, isSpace b = false := by
  intro b hb
  have := List.all_eq_true.1 h b hb
  simpa using this

/-! ## Last occurrence -/

/-- `s.rfind(c)`: the position of the last `c`. -/
def rfind (c : UInt8) : Bytes → Option Nat
  | [] => none
  | x :: xs =>
    match rfind c xs with
    | some i => some (i + 1)
    | none => if x = c then some 0 else none

theorem rfind_none {c : UInt8} : ∀ {s : Bytes}, c ∉ s → rfind c s = none
  | [], _ => rfl
  | x :: xs, h => by
    simp only [List.mem_cons, not_or] at h
    simp only [rfind, rfind_none h.2, if_neg (Ne.symm h.1)]

theorem rfind_append {c : UInt8} {y : Bytes} (hy : c ∉ y) :
    ∀ x : Bytes, rfind c (x ++ c :: y) = some x.length
  | [] => by simp [rfind, rfind_none hy]
  | a :: x => by simp [rfind, rfind_append hy x]

/-- A string splits at the last occurrence of a byte it contains. -/
theorem exists_last_split {c : UInt8} : ∀ {s : Bytes}, c ∈ s → ∃ x y, s = x ++ c :: y ∧ c ∉ y
  | [], h => by cases h
  | a :: s, h => by
    by_cases hs : c ∈ s
    · obtain ⟨x, y, rfl, hy⟩ := exists_last_split hs
      exact ⟨a :: x, y, rfl, hy⟩
    · rcases List.mem_cons.1 h with rfl | h
      · exact ⟨[], s, rfl, hs⟩
      · exact absurd h hs

/-! ## Lines -/

/-- `getlines` with the characters of the current piece read so far. -/
def getlinesFrom (d : UInt8) : Bytes → Bytes → List Bytes
  | cur, [] => if cur = [] then [] else [cur]
  | cur, b :: rest => if b = d then cur :: getlinesFrom d [] rest else getlinesFrom d (cur ++ [b]) rest

/-- The pieces read by `while (std::getline(in, piece, d))`: the text between delimiters, and a last
piece without delimiter when it is not empty. -/
def getlines (d : UInt8) (s : Bytes) : List Bytes := getlinesFrom d [] s

@[simp] theorem getlines_nil (d : UInt8) : getlines d [] = [] := rfl

theorem getlinesFrom_append {d : UInt8} (y : Bytes) :
    ∀ (x cur : Bytes), d ∉ x → getlinesFrom d cur (x ++ d :: y) = (cur ++ x) :: getlines d y
  | [], cur, _ => by simp [getlinesFrom, getlines]
  | a :: x, cur, h => by
    simp only [List.mem_cons, not_or] at h
    simp only [List.cons_append, getlinesFrom, if_neg (Ne.symm h.1)]
    rw [getlinesFrom_append y x _ h.2]
    simp

theorem getlines_append {d : UInt8} {x : Bytes} (h : d ∉ x) (y : Bytes) :
    getlines d (x ++ d :: y) = x :: getlines d y := by
  unfold getlines
  rw [getlinesFrom_append y x [] h]
  simp [getlines]

theorem getlinesFrom_last {d : UInt8} :
    ∀ (x cur : Bytes), d ∉ x → cur ++ x ≠ [] → getlinesFrom d cur x = [cur ++ x]
  | [], cur, _, hne => by
    simp only [List.append_nil] at hne
    simp [getlinesFrom, hne]
  | a :: x, cur, h, _ => by
    simp only [List.mem_cons, not_or] at h
    simp only [getlinesFrom, if_neg (Ne.symm h.1)]
    rw [getlinesFrom_last x _ h.2 (by simp)]
    simp

theorem getlines_last {d : UInt8} {x : Bytes} (h : d ∉ x) (hne : x ≠ []) : getlines d x = [x] :=
  getlinesFrom_last x [] h hne

theorem getlinesFrom_eq_nil {d : UInt8} : ∀ {s cur : Bytes}, getlinesFrom d cur s = [] ↔ cur = [] ∧ s = []
  | [], cur => by by_cases h : cur = [] <;> simp [getlinesFrom, h]
  | b :: s, cur => by
    rw [getlinesFrom]
    split
    · simp
    · rw [getlinesFrom_eq_nil]; simp

theorem getlines_eq_nil {d : UInt8} {s : Bytes} : getlines d s = [] ↔ s = [] := by
  rw [getlines, getlinesFrom_eq_nil]; simp

theorem not_mem_of_mem_getlinesFrom {d : UInt8} :
    ∀ (s cur : Bytes), d ∉ cur → ∀ p ∈ getlinesFrom d cur s, d ∉ p
  | [], cur, hc, p, hp => by
    simp only [getlinesFrom] at hp
    split at hp
    · cases hp
    · rw [List.mem_singleton.1 hp]; exact hc
  | b :: s, cur, hc, p, hp => by
    simp only [getlinesFrom] at hp
    split at hp
    · rcases List.mem_cons.1 hp with rfl | hp
      · exact hc
      · exact not_mem_of_mem_getlinesFrom s [] (by simp) p hp
    · rename_i hb
      refine not_mem_of_mem_getlinesFrom s (cur ++ [b]) ?_ p hp
      simp only [List.mem_append, List.mem_singleton, not_or]
      exact ⟨hc, Ne.symm hb⟩

/-- No piece contains the delimiter. -/
theorem not_mem_of_mem_getlines {d : UInt8} {s p : Bytes} (h : p ∈ getlines d s) : d ∉ p :=
  not_mem_of_mem_getlinesFrom s [] (by simp) p h

/-- Pieces that each end with the separator are read back exactly when none of them contains it. -/
theorem getlines_flatMap_iff {d : UInt8} {pieces : List Bytes} :
    getlines d (pieces.flatMap (· ++ [d])) = pieces ↔ ∀ x ∈ pieces, d ∉ x := by
  constructor
  · intro heq x hx
    rw [← heq] at hx
    exact not_mem_of_mem_getlines hx
  · intro hnone
    induction pieces with
    | nil => rfl
    | cons x pieces ih =>
      rw [List.forall_mem_cons] at hnone
      obtain ⟨hx, hrest⟩ := hnone
      rw [List.flatMap_cons, List.append_assoc, List.singleton_append, getlines_append hx, ih hrest]

theorem mem_of_mem_getlinesFrom {d : UInt8} :
    ∀ (s cur : Bytes), ∀ p ∈ getlinesFrom d cur s, ∀ b ∈ p, b ∈ cur ∨ b ∈ s
  | [], cur, p, hp, b, hb => by
    simp only [getlinesFrom] at hp
    split at hp
    · cases hp
    · rw [List.mem_singleton.1 hp] at hb
      exact .inl hb
  | c :: s, cur, p, hp, b, hb => by
    rw [getlinesFrom] at hp
    split at hp
    · rcases List.mem_cons.1 hp with rfl | hp
      · exact .inl hb
      · rcases mem_of_mem_getlinesFrom s [] p hp b hb with hb | hb
        · cases hb
        · exact .inr (List.mem_cons_of_mem _ hb)
    · rcases mem_of_mem_getlinesFrom s (cur ++ [c]) p hp b hb with hb | hb
      · rcases List.mem_append.1 hb with hb | hb
        · exact .inl hb
        · exact .inr (List.mem_singleton.1 hb ▸ List.mem_cons_self ..)
      · exact .inr (List.mem_cons_of_mem _ hb)

/-- A piece has bytes of the text only. -/
theorem mem_of_mem_getlines {d : UInt8} {s p : Bytes} (h : p ∈ getlines d s) {b : UInt8} (hb : b ∈ p) : b ∈ s :=
  (mem_of_mem_getlinesFrom s [] p h b hb).resolve_left fun hb => by cases hb

/-- A delimiter after `x` separates its pieces from the rest. -/
theorem getlinesFrom_split {d : UInt8} (y : Bytes) :
    ∀ (x cur : Bytes), getlinesFrom d cur (x ++ d :: y) = getlinesFrom d cur (x ++ [d]) ++ getlines d y
  | [], cur => by simp [getlinesFrom, getlines]
  | a :: x, cur => by
    simp only [List.cons_append, getlinesFrom]
    split
    · rw [getlinesFrom_split y x [], List.cons_append]
    · exact getlinesFrom_split y x _

/-- A delimiter adds no non-empty piece. -/
theorem getlinesFrom_filter_delim {d : UInt8} :
    ∀ (x cur : Bytes), (getlinesFrom d cur (x ++ [d])).filter (· ≠ []) =
      (getlinesFrom d cur x).filter (· ≠ [])
  | [], cur => by
    by_cases h : cur = [] <;> simp [getlinesFrom, h]
  | a :: x, cur => by
    simp only [List.cons_append, getlinesFrom]
    split
    · rw [List.filter_cons, List.filter_cons, getlinesFrom_filter_delim x []]
    · exact getlinesFrom_filter_delim x _

/-- `std::getline(in, line, d)`: the next piece and what is left behind its delimiter, or none where nothing is
left to read. -/
def getline (d : UInt8) : Bytes → Option (Bytes × Bytes)
  | [] => none
  | b :: rest =>
    if b = d then some ([], rest)
    else match getline d rest with
      | none => some ([b], [])
      | some (line, rest) => some (b :: line, rest)

/-- The pieces are those of one `std::getline` after the other. -/
theorem getlinesFrom_getline {d : UInt8} : ∀ (s cur : Bytes), getlinesFrom d cur s =
    match getline d s with
    | none => if cur = [] then [] else [cur]
    | some (line, rest) => (cur ++ line) :: getlines d rest
  | [], cur => rfl
  | b :: s, cur => by
    rw [getlinesFrom, getline]
    by_cases hb : b = d
    · simp only [if_pos hb, List.append_nil]
      rfl
    · rw [if_neg hb, if_neg hb, getlinesFrom_getline s (cur ++ [b])]
      cases getline d s with
      | none => simp
      | some out => simp

theorem getlines_getline {d : UInt8} {s line rest : Bytes} (h : getline d s = some (line, rest)) :
    getlines d s = line :: getlines d rest := by
  rw [getlines, getlinesFrom_getline, h]
  rfl

theorem getline_eq_none {d : UInt8} {s : Bytes} : getline d s = none ↔ s = [] := by
  cases s with
  | nil => exact iff_of_true rfl rfl
  | cons b s =>
    rw [getline]
    split
    · exact iff_of_false (by simp) (by simp)
    · cases getline d s <;> exact iff_of_false (by simp) (by simp)

/-- A piece ends with the text, or before a delimiter. -/
theorem getline_some {d : UInt8} : ∀ {s line rest : Bytes}, getline d s = some (line, rest) →
    d ∉ line ∧ (s = line ++ d :: rest ∨ (s = line ∧ s ≠ [] ∧ rest = []))
  | b :: s, line, rest, h => by
    rw [getline] at h
    by_cases hb : b = d
    · rw [if_pos hb] at h
      cases h
      exact ⟨List.not_mem_nil, .inl (by rw [hb]; rfl)⟩
    · rw [if_neg hb] at h
      cases hs : getline d s with
      | none =>
        rw [hs] at h
        cases h
        have hnil := getline_eq_none.1 hs
        exact ⟨by simpa using Ne.symm hb, .inr ⟨by rw [hnil], by simp, rfl⟩⟩
      | some out =>
        rw [hs] at h
        cases h
        obtain ⟨hmem, hsplit⟩ := getline_some hs
        refine ⟨by simpa using ⟨Ne.symm hb, hmem⟩, ?_⟩
        rcases hsplit with heq | ⟨heq, -, hrest⟩
        · exact .inl (congrArg (b :: ·) heq)
        · exact .inr ⟨congrArg (b :: ·) heq, by simp, hrest⟩

/-! ## Words -/

/-- `in >> word`: leading white space is skipped; the word ends before the next white space. Returns
the word (empty when there is none) and the unread rest. -/
def token (s : Bytes) : Bytes × Bytes :=
  ((s.dropWhile isSpace).takeWhile (! isSpace ·), (s.dropWhile isSpace).dropWhile (! isSpace ·))

/-- A non-empty word without white space, followed by nothing or by white space, is extracted
whole. -/
theorem token_word {w rest : Bytes} (hne : w ≠ []) (hw : ∀ b ∈ w, isSpace b = false)
    (hr : ∀ b ∈ rest.head?, isSpace b = true) : token (w ++ rest) = (w, rest) := by
  have hd : (w ++ rest).dropWhile isSpace = w ++ rest := by
    cases w with
    | nil => exact absurd rfl hne
    | cons a w =>
      have := hw a (List.mem_cons_self ..)
      simp [this]
  have hp : ∀ b ∈ w, (! isSpace b) = true := fun b hb => by simp [hw b hb]
  have hstop : rest.takeWhile (! isSpace ·) = [] ∧ rest.dropWhile (! isSpace ·) = rest := by
    cases rest with
    | nil => simp
    | cons b rest =>
      have := hr b (by simp)
      simp [this]
  simp only [token, hd, List.takeWhile_append_of_pos hp, List.dropWhile_append_of_pos hp, hstop]
  simp

/-- White space before a text does not change the word extracted from it. -/
theorem token_cons_space {b : UInt8} (h : isSpace b = true) (s : Bytes) : token (b :: s) = token s := by
  simp [token, h]

end Text

/-
A file that several output streams write, each at an offset of its own. A stream empties the file when it is opened, and
brings its text to the file in pieces of any size; when another stream empties the file in between, the next piece goes
behind a hole, which reads as zeros.
-/
import Mathlib.Data.List.TakeDrop
import MiniHadoop.Base.Text

namespace SharedFile

open Text

/-- A write of `piece` at `pos`: it replaces what was there. A write of no bytes leaves the file as it is. -/
def pwrite (content : Bytes) (pos : Nat) (piece : Bytes) : Bytes :=
  if piece = [] then content else content.takeD pos 0 ++ piece ++ content.drop (pos + piece.length)

theorem pwrite_nil (content : Bytes) (pos : Nat) : pwrite content pos [] = content := if_pos rfl

theorem pwrite_length (content piece : Bytes) : pwrite content content.length piece = content ++ piece := by
  unfold pwrite
  split
  · rename_i hnil
    rw [hnil, List.append_nil]
  · rw [List.takeD_eq_take 0 (Nat.le_refl _), List.take_length, List.drop_eq_nil_of_le (Nat.le_add_right _ _), List.append_nil]

/-- Behind the end of an empty file. -/
theorem pwrite_empty {piece : Bytes} (h : piece ≠ []) (pos : Nat) :
    pwrite [] pos piece = List.replicate pos 0 ++ piece := by
  rw [pwrite, if_neg h, List.takeD_nil, List.drop_nil, List.append_nil]

/-! ## Streams -/

/-- How far a stream has come: not open, open with its first `written` bytes in the file, or closed. -/
inductive Phase where
  | waiting
  | opened (written : Nat)
  | closed
  deriving DecidableEq, Repr

/-- What a stream does next with its file. -/
inductive Turn where
  | openFile
  | write (n : Nat)
  | close
  deriving DecidableEq, Repr

/-- The bytes of its text that a stream has written. -/
def Phase.flushed (text : Bytes) : Phase → Bytes
  | .waiting => []
  | .opened written => text.take written
  | .closed => text

/-- A turn of a stream with this text. What is left in its buffer is written before it is closed. -/
def turn (text : Bytes) : Turn → Option Bytes × Phase → Option Bytes × Phase
  | .openFile, (_, .waiting) => (some [], .opened 0)
  | .write n, (content, .opened written) =>
    (content.map fun content => pwrite content written ((text.drop written).take n),
      .opened (written + ((text.drop written).take n).length))
  | .close, (content, .opened written) => (content, if written < text.length then .opened written else .closed)
  | _, s => s

/-- A stream without a text changes the file only when it is opened. -/
theorem turn_nil {t : Turn} {phase : Phase} (h : t = .openFile → phase ≠ .waiting) (content : Option Bytes) :
    (turn [] t (content, phase)).1 = content := by
  cases phase with
  | waiting =>
    cases t with
    | openFile => exact absurd rfl (h rfl)
    | write | close => rfl
  | opened written =>
    cases t with
    | write n =>
      simp only [turn, List.drop_nil, List.take_nil, pwrite_nil]
      cases content <;> rfl
    | openFile | close => rfl
  | closed => cases t <;> rfl

/-- No turn removes the file. -/
theorem turn_eq_none {text : Bytes} {t : Turn} {content : Option Bytes} {phase : Phase}
    (h : (turn text t (content, phase)).1 = none) : content = none := by
  cases phase with
  | waiting =>
    cases t with
    | openFile => cases h
    | write | close => exact h
  | opened written =>
    cases t with
    | write n => exact Option.map_eq_none_iff.1 h
    | openFile | close => exact h
  | closed => cases t <;> exact h

/-! ## What one stream writes while others empty the file -/

/-- The file when `written` bytes of the text have been written, and it was emptied after the first `k`. -/
def torn (text : Bytes) (k written : Nat) : Bytes :=
  if k = written then [] else List.replicate k 0 ++ (text.take written).drop k

section Torn

variable {text : Bytes} {k written : Nat}

theorem torn_self (text : Bytes) (k : Nat) : torn text k k = [] := if_pos rfl

theorem torn_length (text : Bytes) (k : Nat) :
    torn text k text.length = if k = text.length then [] else List.replicate k 0 ++ text.drop k := by
  rw [torn, List.take_length]

theorem length_torn_le (hk : k ≤ text.length) : (torn text k text.length).length ≤ text.length := by
  rw [torn_length]
  split
  · exact Nat.zero_le _
  · rw [List.length_append, List.length_replicate, List.length_drop]
    omega

/-- The next piece is written. -/
theorem pwrite_torn (hk : k ≤ written) (hw : written ≤ text.length) (n : Nat) :
    pwrite (torn text k written) written ((text.drop written).take n) =
      torn text k (written + ((text.drop written).take n).length) := by
  have htake : text.take (written + ((text.drop written).take n).length) =
      text.take written ++ (text.drop written).take n := by
    rw [List.take_add, List.length_take, ← List.take_take, List.take_length]
  generalize (text.drop written).take n = piece at htake ⊢
  by_cases hnil : piece = []
  · rw [hnil, pwrite_nil, List.length_nil, Nat.add_zero]
  · have hpos : 0 < piece.length := List.length_pos_iff.2 hnil
    have hdrop : (text.take written ++ piece).drop k = (text.take written).drop k ++ piece :=
      List.drop_append_of_le_length (by rw [List.length_take_of_le hw]; exact hk)
    rw [torn.eq_def text k (written + piece.length), if_neg (by omega), htake, hdrop, ← List.append_assoc]
    rcases Nat.eq_or_lt_of_le hk with rfl | hlt
    · rw [torn_self, pwrite_empty hnil, List.drop_eq_nil_of_le (List.length_take_le _ _), List.append_nil]
    · have hlen : (torn text k written).length = written := by
        rw [torn, if_neg (by omega), List.length_append, List.length_replicate, List.length_drop,
          List.length_take_of_le hw]
        omega
      have hpiece := pwrite_length (torn text k written) piece
      rw [hlen] at hpiece
      rw [hpiece, torn, if_neg (by omega)]

/-- The file has the bytes of the text, in any order, only if all that was lost were zeros. -/
theorem zeros_of_perm (h : (torn text k text.length).Perm text) : ∀ b ∈ text.take k, b = 0 := by
  rw [torn_length] at h
  split at h
  · rw [h.nil_eq.symm, List.take_nil]
    exact fun b hb => absurd hb List.not_mem_nil
  · have hperm : (List.replicate k 0 ++ text.drop k).Perm (text.take k ++ text.drop k) := by
      rwa [List.take_append_drop]
    intro b hb
    exact List.eq_of_mem_replicate (((List.perm_append_right_iff _).1 hperm).mem_iff.2 hb)

/-- Then it is the text, if the text is not one of zeros. -/
theorem torn_of_zeros (hk : k ≤ text.length) (hzeros : ∀ b ∈ text.take k, b = 0)
    (htext : text = [] ∨ ∃ b ∈ text, b ≠ 0) : torn text k text.length = text := by
  rw [torn_length]
  split
  · rename_i hall
    rcases htext with hnil | ⟨b, hb, hne⟩
    · exact hnil.symm
    · rw [hall, List.take_length] at hzeros
      exact absurd (hzeros b hb) hne
  · have hreplicate : text.take k = List.replicate k 0 := by
      rw [List.eq_replicate_iff]
      exact ⟨List.length_take_of_le hk, hzeros⟩
    rw [← hreplicate, List.take_append_drop]

end Torn

/-- What a file has of the text of one stream, when the other streams that empty it have no text; `clean` says that none
of them has emptied it behind a byte that is not zero. -/
def Left (text : Bytes) (clean : Prop) (content : Option Bytes) : Phase → Prop
  | .waiting => clean
  | .opened written => written ≤ text.length ∧
    ∃ k ≤ written, content = some (torn text k written) ∧ (clean ↔ ∀ b ∈ text.take k, b = 0)
  | .closed => ∃ k ≤ text.length, content = some (torn text k text.length) ∧ (clean ↔ ∀ b ∈ text.take k, b = 0)

section Left

variable {text : Bytes} {clean : Prop} {content : Option Bytes} {phase : Phase}

/-- A turn of the stream itself. -/
theorem Left.turn (h : Left text clean content phase) (t : Turn) :
    Left text clean (turn text t (content, phase)).1 (turn text t (content, phase)).2 := by
  cases phase with
  | waiting =>
    cases t with
    | openFile =>
      refine ⟨Nat.zero_le _, 0, Nat.le_refl _, by rw [torn_self]; rfl, iff_of_true h ?_⟩
      exact fun b hb => absurd hb List.not_mem_nil
    | write | close => exact h
  | opened written =>
    obtain ⟨hw, k, hk, hcontent, hclean⟩ := h
    cases t with
    | openFile => exact ⟨hw, k, hk, hcontent, hclean⟩
    | write n =>
      refine ⟨?_, k, Nat.le_trans hk (Nat.le_add_right _ _), ?_, hclean⟩
      · rw [List.length_take, List.length_drop]
        omega
      · simp only [hcontent, SharedFile.turn, Option.map_some, pwrite_torn hk hw]
    | close =>
      unfold SharedFile.turn
      dsimp only
      split
      · exact ⟨hw, k, hk, hcontent, hclean⟩
      · obtain rfl : written = text.length := by omega
        exact ⟨k, hk, hcontent, hclean⟩
  | closed => cases t <;> exact h

/-- Another stream empties the file. -/
theorem Left.emptied (h : Left text clean content phase) :
    Left text (clean ∧ ∀ b ∈ phase.flushed text, b = 0) (some []) phase := by
  have hzeros : ∀ {k w : Nat}, k ≤ w → (clean ↔ ∀ b ∈ text.take k, b = 0) →
      (clean ∧ (∀ b ∈ text.take w, b = 0) ↔ ∀ b ∈ text.take w, b = 0) := by
    intro k w hk hclean
    rw [and_iff_right_of_imp]
    exact fun hall => hclean.2 fun b hb => hall b (List.take_subset_take_left text hk hb)
  cases phase with
  | waiting => exact ⟨h, fun b hb => absurd hb List.not_mem_nil⟩
  | opened written =>
    obtain ⟨hw, k, hk, -, hclean⟩ := h
    exact ⟨hw, written, Nat.le_refl _, by rw [torn_self], hzeros hk hclean⟩
  | closed =>
    obtain ⟨k, hk, -, hclean⟩ := h
    refine ⟨text.length, Nat.le_refl _, by rw [torn_self], ?_⟩
    have := hzeros hk hclean
    rwa [List.take_length] at this ⊢

end Left

end SharedFile

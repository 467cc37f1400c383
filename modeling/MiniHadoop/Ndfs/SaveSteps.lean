/-
`FsImage::Save` step by step: the image is written into a file of its own, which takes the place of the old one at the
end. Whatever step a save ends at, a NameNode that starts finds the tree of the last save that came to its end. Only the
stream is not looked at: when a write has failed, a cut image takes the place of the old one all the same.
-/
import MiniHadoop.Base.Runs
import MiniHadoop.Ndfs.Persistence

namespace MiniHadoop.Ndfs

open Text Runs

/-! ## The two files -/

/-- The stream of a save that is going on: the tree, the text that is still to be written, and whether a write has
failed. -/
structure SaveStream where
  tree : INode
  rest : Bytes
  failed : Bool := false

/-- The files of a NameNode, `path + ".tmp"` and `path`, and the save that is going on. -/
structure ImageFiles where
  tmp : Option Bytes := none
  image : Option Bytes := none
  stream : Option SaveStream := none

/-- A step: `Save` is called and the file is opened, or cannot be; the stream writes some more of its text, or a write
fails; the stream is closed and the file is renamed, or cannot be. At any time the process may end. -/
inductive SaveEvent where
  | start (tree : INode)
  | openFails (tree : INode)
  | flush (n : Nat)
  | writeFails
  | finish
  | renameFails
  | crash

/-- `f.close()`: the new file with what was left of the text, none of which is written when a write has failed. -/
def SaveStream.close (f : SaveStream) (tmp : Option Bytes) : Option Bytes :=
  if f.failed then tmp else tmp.map (· ++ f.rest)

/-- One step; a step that the state does not allow changes nothing. -/
def ImageFiles.apply (s : ImageFiles) (e : SaveEvent) : ImageFiles :=
  match e, s.stream with
  | .start tree, none => { s with tmp := some [], stream := some { tree, rest := save tree } }
  | .flush n, some f =>
    { s with tmp := s.tmp.map (· ++ f.rest.take n), stream := some { f with rest := f.rest.drop n } }
  | .writeFails, some f => { s with stream := some { f with failed := true } }
  | .finish, some f => { tmp := none, image := f.close s.tmp, stream := none }
  | .renameFails, some f => { s with tmp := f.close s.tmp, stream := none }
  | .crash, _ => { s with stream := none }
  | _, _ => s

/-! ## The saves -/

/-- The tree whose save is going on, and the tree of the last save that came to its end. -/
structure Saves where
  current : Option INode := none
  saved : Option INode := none

def Saves.apply (s : Saves) (e : SaveEvent) : Saves :=
  match e, s.current with
  | .start tree, none => { s with current := some tree }
  | .finish, some tree => { current := none, saved := some tree }
  | .renameFails, _ => { s with current := none }
  | .crash, _ => { s with current := none }
  | _, _ => s

/-- What a restart finds. -/
def Saves.tree (s : Saves) : INode := s.saved.getD emptyTree

/-- The save that is going on has written a beginning of the text of its tree. -/
structure Linked (s : ImageFiles) (a : Saves) : Prop where
  current : s.stream.map (·.tree) = a.current
  written : ∀ f, s.stream = some f → ∃ w, s.tmp = some w ∧ w ++ f.rest = save f.tree

/-- No step ends a save some of whose text was not written because a write has failed. -/
def Whole (s : ImageFiles) (e : SaveEvent) : Prop :=
  e = .finish → ∀ f, s.stream = some f → f.failed = true → f.rest = []

section Steps

variable {s : ImageFiles} {a : Saves}

theorem linked_none {s : ImageFiles} {a : Saves} (hs : s.stream = none) (ha : a.current = none) : Linked s a := by
  refine ⟨by rw [hs, ha]; rfl, fun f hf => ?_⟩
  rw [hs] at hf
  cases hf

theorem Linked.step (h : Linked s a) (e : SaveEvent) : Linked (s.apply e) (a.apply e) := by
  obtain ⟨tmp, image, stream⟩ := s
  obtain ⟨current, saved⟩ := a
  obtain ⟨hcurrent, hwritten⟩ := h
  cases stream with
  | none =>
    obtain rfl : none = current := hcurrent
    cases e with
    | start tree =>
      refine ⟨rfl, ?_⟩
      rintro f ⟨⟩
      exact ⟨[], rfl, rfl⟩
    | openFails tree => exact linked_none rfl rfl
    | flush n => exact linked_none rfl rfl
    | writeFails => exact linked_none rfl rfl
    | finish => exact linked_none rfl rfl
    | renameFails => exact linked_none rfl rfl
    | crash => exact linked_none rfl rfl
  | some f =>
    obtain rfl : some f.tree = current := hcurrent
    obtain ⟨w, rfl, hw⟩ := hwritten f rfl
    cases e with
    | start tree => exact ⟨rfl, hwritten⟩
    | openFails tree => exact ⟨rfl, hwritten⟩
    | flush n =>
      refine ⟨rfl, ?_⟩
      rintro f' ⟨⟩
      refine ⟨w ++ f.rest.take n, rfl, ?_⟩
      rw [List.append_assoc, List.take_append_drop, hw]
    | writeFails =>
      refine ⟨rfl, ?_⟩
      rintro f' ⟨⟩
      exact ⟨w, rfl, hw⟩
    | finish => exact linked_none rfl rfl
    | renameFails => exact linked_none rfl rfl
    | crash => exact linked_none rfl rfl

/-- A step keeps the image that of the last save exactly if it does not put a cut text in its place. -/
theorem image_step (h : Linked s a) (himage : s.image = a.saved.map save) (e : SaveEvent) :
    (s.apply e).image = (a.apply e).saved.map save ↔ Whole s e := by
  obtain ⟨tmp, image, stream⟩ := s
  obtain ⟨current, saved⟩ := a
  obtain ⟨hcurrent, hwritten⟩ := h
  cases stream with
  | none =>
    obtain rfl : none = current := hcurrent
    have hwhole : Whole { tmp, image, stream := none } e := by
      rintro - f ⟨⟩
    refine iff_of_true ?_ hwhole
    cases e <;> exact himage
  | some f =>
    obtain rfl : some f.tree = current := hcurrent
    obtain ⟨w, rfl, hw⟩ := hwritten f rfl
    cases e with
    | finish =>
      have hwhole : Whole { tmp := some w, image, stream := some f } .finish ↔ (f.failed = true → f.rest = []) := by
        constructor
        · exact fun h => h rfl f rfl
        · rintro h - f' ⟨⟩
          exact h
      rw [hwhole]
      show f.close (some w) = some (save f.tree) ↔ _
      rw [← hw, SaveStream.close]
      cases f.failed with
      | false => simp
      | true => simp
    | flush n => exact iff_of_true himage fun heq => (by cases heq)
    | start tree => exact iff_of_true himage fun heq => (by cases heq)
    | openFails tree => exact iff_of_true himage fun heq => (by cases heq)
    | writeFails => exact iff_of_true himage fun heq => (by cases heq)
    | renameFails => exact iff_of_true himage fun heq => (by cases heq)
    | crash => exact iff_of_true himage fun heq => (by cases heq)

end Steps

/-! ## Runs -/

section Runs

variable {es : List SaveEvent}

theorem linked_after (pre : List SaveEvent) :
    Linked (after ImageFiles.apply {} pre) (after Saves.apply {} pre) := by
  induction pre using List.reverseRecOn with
  | nil => exact linked_none rfl rfl
  | append_singleton pre e ih =>
    rw [after_snoc, after_snoc]
    exact ih.step e

/-- The tree that was saved last is one whose save was started. -/
theorem saves_started {inv : INode → Prop} (h : ∀ t, .start t ∈ es → inv t) :
    (∀ t, (after Saves.apply {} es).current = some t → inv t) ∧ ∀ t, (after Saves.apply {} es).saved = some t → inv t := by
  refine @after_keeps _ _ Saves.apply {}
    (fun a => (∀ t, a.current = some t → inv t) ∧ ∀ t, a.saved = some t → inv t) es
    ⟨fun t ht => (by cases ht), fun t ht => (by cases ht)⟩ ?_
  rintro ⟨current, saved⟩ e he ⟨hcurrent, hsaved⟩
  cases e with
  | start tree =>
    cases current with
    | none =>
      refine ⟨?_, hsaved⟩
      rintro t ⟨⟩
      exact h _ he
    | some t => exact ⟨hcurrent, hsaved⟩
  | finish =>
    cases current with
    | none => exact ⟨hcurrent, hsaved⟩
    | some t => exact ⟨fun t ht => (by cases ht), fun t ht => hcurrent t ht⟩
  | renameFails => exact ⟨fun t ht => (by cases ht), hsaved⟩
  | crash => exact ⟨fun t ht => (by cases ht), hsaved⟩
  | openFails tree => cases current <;> exact ⟨hcurrent, hsaved⟩
  | flush n => cases current <;> exact ⟨hcurrent, hsaved⟩
  | writeFails => cases current <;> exact ⟨hcurrent, hsaved⟩

/-- Saves none of whose writes fails lose no text. -/
theorem whole_of_writes (hwrites : SaveEvent.writeFails ∉ es) :
    ∀ pre e, pre ++ [e] <+: es → Whole (after ImageFiles.apply {} pre) e := by
  rintro pre e hpre rfl f hf hfailed
  have hkeep : ∀ f, (after ImageFiles.apply {} pre).stream = some f → f.failed = false := by
    refine @after_keeps _ _ ImageFiles.apply {} (fun s => ∀ f, s.stream = some f → f.failed = false) pre
      (fun f hf => (by cases hf)) ?_
    rintro ⟨tmp, image, stream⟩ e he hs
    cases e with
    | writeFails => exact absurd (hpre.subset (List.mem_append_left _ he)) hwrites
    | start tree =>
      cases stream with
      | none =>
        rintro f ⟨⟩
        rfl
      | some f => exact hs
    | flush n =>
      cases stream with
      | none => exact hs
      | some f =>
        rintro f' ⟨⟩
        exact hs f rfl
    | openFails tree => cases stream <;> exact hs
    | finish => cases stream <;> rintro f ⟨⟩
    | renameFails => cases stream <;> rintro f ⟨⟩
    | crash => rintro f ⟨⟩
  rw [hkeep f hf] at hfailed
  cases hfailed

/-- However the steps of saves and the ends of processes follow each other, the image is at all times that of the last
save that came to its end, exactly if none of them has lost a write; and then a NameNode that starts, at any time, starts
with the tree of that save. -/
theorem save_atomic (htrees : ∀ t, .start t ∈ es → TreeOk t ∧ NoSpace t) :
    ((∀ pre, pre <+: es → (after ImageFiles.apply {} pre).image = (after Saves.apply {} pre).saved.map save) ↔
      ∀ pre e, pre ++ [e] <+: es → Whole (after ImageFiles.apply {} pre) e) ∧
    ((∀ pre e, pre ++ [e] <+: es → Whole (after ImageFiles.apply {} pre) e) → ∀ pre, pre <+: es →
      NameNode.construct (after ImageFiles.apply {} pre).image = .ok { tree := (after Saves.apply {} pre).tree }) := by
  have hiff : (∀ pre, pre <+: es → (after ImageFiles.apply {} pre).image =
      (after Saves.apply {} pre).saved.map save) ↔
        ∀ pre e, pre ++ [e] <+: es → Whole (after ImageFiles.apply {} pre) e := by
    refine @after_related_iff _ _ ImageFiles.apply {}
      (fun pre s => s.image = (after Saves.apply {} pre).saved.map save) Whole es rfl ?_
    intro pre e _ himage
    rw [after_snoc]
    exact image_step (linked_after pre) himage e
  refine ⟨hiff, fun hwhole pre hpre => ?_⟩
  rw [hiff.2 hwhole pre hpre, Saves.tree]
  cases hsaved : (after Saves.apply {} pre).saved with
  | none => rfl
  | some t =>
    obtain ⟨hok, hspace⟩ := (saves_started fun t ht => htrees t (hpre.subset ht)).2 t hsaved
    unfold NameNode.construct
    simp only [Option.map_some, load_save_of_ok hok hspace, Option.getD_some]

end Runs

/-- A save, and another one that breaks off after a line. -/
def brokenSave : List SaveEvent := [.start sampleTree, .flush 3, .finish, .start emptyTree, .flush 25, .crash]

theorem save_atomic_brokenSave :
    NameNode.construct (after ImageFiles.apply {} brokenSave).image = .ok { tree := sampleTree } := by
  have htrees : ∀ t, .start t ∈ brokenSave → TreeOk t ∧ NoSpace t := by
    intro t ht
    simp only [brokenSave, List.mem_cons, SaveEvent.start.injEq, reduceCtorEq, false_or, List.not_mem_nil,
      or_false] at ht
    rcases ht with rfl | rfl
    · exact ⟨sampleTree_reachable.ok, sampleTree_noSpace⟩
    · exact ⟨emptyTree_ok, .of_mem (isSpace_of_all (by decide)) fun c hc => by cases hc⟩
  exact (save_atomic htrees).2 (whole_of_writes (by simp [brokenSave])) brokenSave (List.prefix_refl _)

end MiniHadoop.Ndfs

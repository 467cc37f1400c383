/-
What loading an image of arbitrary names does. A line of the text mentions paths: the directories it
asks `Mkdirs` for, and the file it asks `CreateFile` for. A path belongs to the line that mentions it
first, unless an earlier line made a file of one of its proper prefixes; later lines about it change
nothing. From this follow exactly when `Load` of a saved tree raises and when it invents entries.
-/
import MiniHadoop.Ndfs.ImageRoundTrip

namespace MiniHadoop.Ndfs

open Text Forest

/-! ## Block tokens -/

/-- The ids of the texts of a block token; empty texts are passed over. -/
def parseIds : List Bytes → Except StollError (List Int64)
  | [] => .ok []
  | bid :: rest =>
    if bid = [] then parseIds rest
    else match stoll bid with
      | .error e => .error e
      | .ok id => (parseIds rest).map (id :: ·)

theorem pushIds_error {parts : List Bytes} {e : StollError} : ∀ (bids : List Bytes) (t : INode),
    parseIds bids = .error e → (pushIds parts t bids).2 = some e
  | [], _, h => by cases h
  | bid :: bids, t, h => by
    rw [parseIds] at h
    rw [pushIds]
    by_cases hb : bid = []
    · rw [if_pos hb] at h ⊢; exact pushIds_error bids t h
    · rw [if_neg hb] at h ⊢
      cases hs : stoll bid with
      | error e' => simp only [hs] at h ⊢; cases h; rfl
      | ok id =>
        simp only [hs] at h ⊢
        cases hr : parseIds bids with
        | error e' => rw [hr] at h; cases h; exact pushIds_error bids _ hr
        | ok ids => rw [hr] at h; cases h

theorem pushIds_parsed {parts : List Bytes} : ∀ (bids : List Bytes) (t : INode) {ids bl : List Int64},
    parseIds bids = .ok ids → entryAt t parts = some ⟨.kFile, bl⟩ →
      (pushIds parts t bids).2 = none ∧
      ∀ c, entryAt (pushIds parts t bids).1 c = if c = parts then some ⟨.kFile, bl ++ ids⟩ else entryAt t c
  | [], t, ids, bl, h, hf => by
    cases h
    refine ⟨rfl, fun c => ?_⟩
    split
    · rename_i hc; rw [hc, List.append_nil]; exact hf
    · rfl
  | bid :: bids, t, ids, bl, h, hf => by
    rw [parseIds] at h
    rw [pushIds]
    by_cases hb : bid = []
    · rw [if_pos hb] at h ⊢; exact pushIds_parsed bids t h hf
    · rw [if_neg hb] at h ⊢
      cases hs : stoll bid with
      | error e => simp only [hs] at h; cases h
      | ok id =>
        simp only [hs] at h ⊢
        cases hr : parseIds bids with
        | error e => rw [hr] at h; cases h
        | ok rest =>
          rw [hr] at h
          cases h
          have hf' : entryAt (pushBlockAt t parts id) parts = some ⟨.kFile, bl ++ [id]⟩ := by
            rw [entryAt_pushBlockAt, if_pos rfl, hf]; rfl
          obtain ⟨h1, h2⟩ := pushIds_parsed bids (pushBlockAt t parts id) hr hf'
          refine ⟨h1, fun c => ?_⟩
          rw [h2 c]
          by_cases hc : c = parts
          · rw [if_pos hc, if_pos hc, List.append_assoc]; rfl
          · rw [if_neg hc, if_neg hc, entryAt_pushBlockAt, if_neg hc]

/-! ## Mentions -/

/-- How a line mentions a path: as a directory, or as a file with its block token. -/
inductive Mention where
  | dir
  | file (blocksToken : Bytes)
  deriving DecidableEq, Repr

/-- The components a line hands to `Mkdirs`. -/
def Line.dirs : Line → List Bytes
  | .skip => []
  | .dir path => splitPath path
  | .file path _ => splitPath (getParentDir path)

/-- The components and the block token of the file a line can create. A file path that ends in a slash
names its own parent, which `Mkdirs` has just made. -/
def Line.target : Line → Option (List Bytes × Bytes)
  | .file path blocksToken =>
    if splitPath path <+: splitPath (getParentDir path) then none else some (splitPath path, blocksToken)
  | _ => none

/-- How a line mentions the components `c`, if it does. -/
def Line.mention (line : Line) (c : List Bytes) : Option Mention :=
  if c ≠ [] ∧ c <+: line.dirs then some .dir
  else match line.target with
    | some (parts, blocksToken) => if c = parts then some (.file blocksToken) else none
    | none => none

/-- The mention of `c` in the first line that has one. -/
def firstMention (lines : List Line) (c : List Bytes) : Option Mention := lines.findSome? (·.mention c)

/-- A proper prefix of `c` is mentioned first as a file. -/
def Blocked (lines : List Line) (c : List Bytes) : Prop :=
  ∃ d, d ≠ [] ∧ d <+: c ∧ d ≠ c ∧ ∃ blocksToken, firstMention lines d = some (.file blocksToken)

/-- The mention that decides what `c` is after the lines. -/
structure Effective (lines : List Line) (c : List Bytes) (m : Mention) : Prop where
  first : firstMention lines c = some m
  open_ : ¬ Blocked lines c

/-- The entry a mention asks for; none when its ids do not parse. -/
def Mention.entry : Mention → Option Entry
  | .dir => some dirEntry
  | .file blocksToken => (parseIds (idTexts blocksToken)).toOption.map (⟨.kFile, ·⟩)

theorem Line.target_eq {line : Line} {parts : List Bytes} {blocksToken : Bytes}
    (h : line.target = some (parts, blocksToken)) : ∃ name, parts = line.dirs ++ [name] := by
  cases line with
  | skip => cases h
  | dir => cases h
  | file path tok =>
    rw [Line.target] at h
    split at h
    · cases h
    · rename_i hp
      cases h
      have hne : path ≠ [] := by
        rintro rfl; exact hp (by rw [splitPath_nil]; exact List.nil_prefix)
      have hlast : path.getLast? ≠ some slash := by
        intro hl; exact hp (splitPath_getParentDir_slash hl ▸ List.prefix_refl _)
      exact splitPath_getParentDir hne hlast

/-- A line that mentions a path mentions its proper prefixes, as directories. -/
theorem Line.mention_above {line : Line} {c d : List Bytes} (hc : (line.mention c).isSome) (hne : d ≠ [])
    (hd : d <+: c) (hdc : d ≠ c) : line.mention d = some .dir := by
  have hdirs : d <+: line.dirs := by
    rw [Line.mention] at hc
    split at hc
    · rename_i h; exact hd.trans h.2
    · split at hc
      · rename_i parts tok ht
        split at hc
        · rename_i hcp
          obtain ⟨name, hn⟩ := Line.target_eq ht
          rw [hcp, hn] at hd hdc
          exact (List.prefix_concat_iff.1 hd).resolve_left hdc
        · cases hc
      · cases hc
  rw [Line.mention, if_pos ⟨hne, hdirs⟩]

theorem firstMention_append (xs ys : List Line) (c : List Bytes) :
    firstMention (xs ++ ys) c = (firstMention xs c).or (firstMention ys c) := List.findSome?_append

theorem firstMention_one (line : Line) (c : List Bytes) : firstMention [line] c = line.mention c := by
  simp [firstMention]

theorem firstMention_above {lines : List Line} {c d : List Bytes} (hc : (firstMention lines c).isSome)
    (hne : d ≠ []) (hd : d <+: c) : (firstMention lines d).isSome := by
  by_cases hdc : d = c
  · rw [hdc]; exact hc
  · rw [firstMention, List.findSome?_isSome_iff] at hc ⊢
    obtain ⟨line, hl, hm⟩ := hc
    exact ⟨line, hl, by rw [Line.mention_above hm hne hd hdc]; rfl⟩

theorem Effective.append {xs : List Line} {c : List Bytes} {m : Mention} (h : Effective xs c m)
    (ys : List Line) : Effective (xs ++ ys) c m := by
  refine ⟨by rw [firstMention_append, h.first]; rfl, ?_⟩
  rintro ⟨d, hne, hd, hdc, tok, hm⟩
  -- `d` is mentioned no later than `c`, so its first mention is among `xs`
  have hs := firstMention_above (by rw [h.first]; rfl) hne hd
  obtain ⟨m', hm'⟩ := Option.isSome_iff_exists.1 hs
  rw [firstMention_append, hm'] at hm
  exact h.open_ ⟨d, hne, hd, hdc, tok, hm'.trans hm⟩

/-- Under a path first mentioned as a file lies one that is not blocked itself. -/
theorem exists_effective_file {lines : List Line} (d : List Bytes) (hne : d ≠ []) {tok : Bytes}
    (hm : firstMention lines d = some (.file tok)) :
    ∃ e tok', e <+: d ∧ e ≠ [] ∧ Effective lines e (.file tok') := by
  by_cases hb : Blocked lines d
  · obtain ⟨e, hene, hed, hned, tok', he⟩ := hb
    have hlt : e.length < d.length :=
      lt_of_le_of_ne hed.length_le fun hlen => hned (hed.eq_of_length hlen)
    obtain ⟨f, tok'', hf, hfne, heff⟩ := exists_effective_file e hene he
    exact ⟨f, tok'', hf.trans hed, hfne, heff⟩
  · exact ⟨d, tok, List.prefix_refl d, hne, hm, hb⟩
termination_by d.length

/-! ## One line -/

theorem Line.component_dirs (line : Line) : ∀ p ∈ line.dirs, Component p := by
  cases line with
  | skip => intro p hp; cases hp
  | dir path => exact fun p hp => component_of_mem_splitPath hp
  | file path _ => exact fun p hp => component_of_mem_splitPath hp

theorem applyLine_eq {t : INode} (ht : TreeOk t) (line : Line) :
    applyLine t line = match line.target with
      | none => ((mkdirsFrom t line.dirs).1, none)
      | some (parts, blocksToken) =>
        match createFrom (mkdirsFrom t line.dirs).1 parts with
        | none => ((mkdirsFrom t line.dirs).1, none)
        | some t2 => pushIds parts t2 (idTexts blocksToken) := by
  cases line with
  | skip => rfl
  | dir path => rw [applyLine_dir]; rfl
  | file path tok =>
    rw [applyLine_file, Line.target]
    by_cases hp : splitPath path <+: splitPath (getParentDir path)
    · have hnone : createFile (mkdirs t (getParentDir path)).1 path = none :=
        createFrom_mkdirsFrom_above ht (fun _ h => component_of_mem_splitPath h) hp
      rw [if_pos hp, hnone]; rfl
    · rw [if_neg hp]; rfl

section Line

variable {t : INode} {line : Line}

/-- What a line can do: ask for its directories only, or create its file below them. -/
theorem applyLine_cases (ht : TreeOk t) (line : Line) :
    (applyLine t line = ((mkdirsFrom t line.dirs).1, none) ∧
      ∀ parts tok, line.target = some (parts, tok) → NoFileOn t line.dirs → entryAt t parts ≠ none) ∨
    ∃ parts tok t2, line.target = some (parts, tok) ∧ NoFileOn t line.dirs ∧ entryAt t parts = none ∧
      createFrom (mkdirsFrom t line.dirs).1 parts = some t2 ∧
      applyLine t line = pushIds parts t2 (idTexts tok) := by
  rw [applyLine_eq ht]
  cases htg : line.target with
  | none => exact .inl ⟨rfl, fun _ _ h => by cases h⟩
  | some pt =>
    obtain ⟨parts, tok⟩ := pt
    obtain ⟨name, rfl⟩ := Line.target_eq htg
    have hiff := createFrom_mkdirsFrom_isSome ht line.component_dirs name
    cases hc : createFrom (mkdirsFrom t line.dirs).1 (line.dirs ++ [name]) with
    | none =>
      refine .inl ⟨by simp only [hc], ?_⟩
      rintro _ _ heq hno hn
      cases heq
      rw [hc] at hiff
      cases hiff.2 ⟨hno, hn⟩
    | some t2 =>
      obtain ⟨hno, hn⟩ := hiff.1 (by rw [hc]; rfl)
      exact .inr ⟨_, _, t2, rfl, hno, hn, hc, by simp only [hc]⟩

/-- A line behind a file does nothing. -/
theorem applyLine_of_file (ht : TreeOk t) (hno : ¬ NoFileOn t line.dirs) : applyLine t line = (t, none) := by
  rcases applyLine_cases ht line with ⟨h, -⟩ | ⟨_, _, _, _, h, _⟩
  · rw [h, mkdirsFrom_false (Bool.eq_false_iff.2 fun hm => hno ((mkdirsFrom_true ht.rootType).1 hm))]
  · exact absurd h hno

/-- A line raises exactly when it creates a file and an id of its block token does not parse. -/
theorem applyLine_raises (ht : TreeOk t) (e : StollError) : (applyLine t line).2 = some e ↔
    ∃ parts tok, line.target = some (parts, tok) ∧ NoFileOn t line.dirs ∧ entryAt t parts = none ∧
      parseIds (idTexts tok) = .error e := by
  rcases applyLine_cases ht line with ⟨h, hkeep⟩ | ⟨parts, tok, t2, htg, hno, hn, hc, h⟩
  · rw [h]
    refine ⟨fun h => (by cases h), ?_⟩
    rintro ⟨parts, tok, htg, hno, hn, -⟩
    exact absurd hn (hkeep parts tok htg hno)
  · have hnew : entryAt t2 parts = some ⟨.kFile, []⟩ := by rw [entryAt_createFrom hc, if_pos rfl]
    rw [h]
    constructor
    · intro he
      cases hp : parseIds (idTexts tok) with
      | ok ids => rw [(pushIds_parsed _ t2 hp hnew).1] at he; cases he
      | error e' =>
        rw [pushIds_error _ t2 hp] at he
        cases he
        exact ⟨parts, tok, htg, hno, hn, hp⟩
    · rintro ⟨_, _, htg', -, -, hp⟩
      rw [htg] at htg'
      cases htg'
      exact pushIds_error _ t2 hp

theorem Line.mention_dir {c : List Bytes} (hne : c ≠ []) (hc : c <+: line.dirs) : line.mention c = some .dir := by
  rw [Line.mention, if_pos ⟨hne, hc⟩]

theorem Line.mention_target {parts : List Bytes} {tok : Bytes} (h : line.target = some (parts, tok)) :
    line.mention parts = some (.file tok) := by
  obtain ⟨name, rfl⟩ := Line.target_eq h
  rw [Line.mention, if_neg fun hp => not_concat_isPrefix line.dirs name hp.2, h]
  exact if_pos rfl

theorem Line.target_of_mention {c : List Bytes} {tok : Bytes} (h : line.mention c = some (.file tok)) :
    line.target = some (c, tok) := by
  rw [Line.mention] at h
  split at h
  · cases h
  · split at h
    · rename_i parts tok' htg
      split at h
      · rename_i hc
        cases h
        rw [hc]; exact htg
      · cases h
    · cases h

theorem Line.mention_eq_none {c : List Bytes} (hc : ¬ c <+: line.dirs)
    (ht : ∀ tok, line.target ≠ some (c, tok)) : line.mention c = none := by
  rw [Line.mention, if_neg fun hp => hc hp.2]
  split
  · rename_i parts tok htg
    rw [if_neg]
    rintro rfl; exact ht tok htg
  · rfl

/-- A line that meets no file gives the paths it mentions their entries, where they have none yet. -/
theorem entryAt_applyLine (ht : TreeOk t) (hno : NoFileOn t line.dirs) (hr : (applyLine t line).2 = none)
    {c : List Bytes} (hne : c ≠ []) :
    entryAt (applyLine t line).1 c = (entryAt t c).or ((line.mention c).bind Mention.entry) := by
  -- what `Mkdirs` contributes, at paths other than the file the line creates
  have hdirs : (∀ tok, line.target = some (c, tok) → entryAt t c ≠ none) →
      entryAt (mkdirsFrom t line.dirs).1 c = (entryAt t c).or ((line.mention c).bind Mention.entry) := by
    intro hkeep
    rw [entryAt_mkdirsFrom hno ht.rootType]
    cases hent : entryAt t c with
    | some e => rw [if_neg fun h => by cases h.2]; rfl
    | none =>
      by_cases hp : c <+: line.dirs
      · rw [if_pos ⟨hp, rfl⟩, Line.mention_dir hne hp]; rfl
      · rw [if_neg fun h => hp h.1, Line.mention_eq_none hp fun tok h => hkeep tok h hent]; rfl
  rcases applyLine_cases ht line with ⟨h, hkeep⟩ | ⟨parts, tok, t2, htg, -, hn, hc, h⟩
  · rw [h]
    exact hdirs fun tok htg => hkeep c tok htg hno
  · have hnew : entryAt t2 parts = some ⟨.kFile, []⟩ := by rw [entryAt_createFrom hc, if_pos rfl]
    obtain ⟨ids, hp⟩ : ∃ ids, parseIds (idTexts tok) = .ok ids := by
      cases hp : parseIds (idTexts tok) with
      | ok ids => exact ⟨ids, rfl⟩
      | error e => rw [h, pushIds_error _ t2 hp] at hr; cases hr
    rw [h, (pushIds_parsed _ t2 hp hnew).2 c]
    by_cases hcp : c = parts
    · subst hcp
      rw [if_pos rfl, hn, Line.mention_target htg, Option.bind_some, Mention.entry, hp]; rfl
    · rw [if_neg hcp, entryAt_createFrom hc, if_neg hcp]
      refine hdirs fun tok' htg' => ?_
      rw [htg] at htg'
      cases htg'
      exact absurd rfl hcp

end Line

/-! ## A whole image -/

/-- The tree after the lines `lines`: every path is what its effective mention says, and nothing else
is there. -/
structure Replayed (lines : List Line) (t : INode) : Prop where
  ok : TreeOk t
  absent : ∀ c, c ≠ [] → (∀ m, ¬ Effective lines c m) → entryAt t c = none
  present : ∀ c m, Effective lines c m → ∃ e, m.entry = some e ∧ entryAt t c = some e

theorem Effective.ne_nil {lines : List Line} {c : List Bytes} {m : Mention} (h : Effective lines c m) : c ≠ [] := by
  obtain ⟨line, -, hm⟩ := List.exists_of_findSome?_eq_some h.first
  rintro rfl
  rw [Line.mention, if_neg (fun hc => hc.1 rfl)] at hm
  split at hm
  · rename_i parts tok ht
    obtain ⟨name, hn⟩ := Line.target_eq ht
    rw [hn, if_neg (by simp)] at hm; cases hm
  · cases hm

theorem Mention.entry_file {tok : Bytes} {e : Entry} (h : (Mention.file tok).entry = some e) :
    ∃ ids, parseIds (idTexts tok) = .ok ids ∧ e = ⟨.kFile, ids⟩ := by
  rw [Mention.entry] at h
  cases hp : parseIds (idTexts tok) with
  | error err => rw [hp] at h; cases h
  | ok ids => rw [hp] at h; cases h; exact ⟨ids, rfl, rfl⟩

section Step

variable {lines : List Line} {t : INode}

theorem Replayed.isFile_iff (h : Replayed lines t) {c : List Bytes} :
    IsFile t c ↔ ∃ tok, Effective lines c (.file tok) := by
  constructor
  · rintro ⟨bl, hb⟩
    have hne : c ≠ [] := by
      rintro rfl; exact not_isFile_root h.ok ⟨bl, hb⟩
    by_contra hno
    by_cases hm : ∃ m, Effective lines c m
    · obtain ⟨m, hm⟩ := hm
      obtain ⟨e, he, hent⟩ := h.present c m hm
      cases m with
      | dir => cases he; rw [hb] at hent; cases hent
      | file tok => exact hno ⟨tok, hm⟩
    · rw [h.absent c hne fun m hm' => hm ⟨m, hm'⟩] at hb; cases hb
  · rintro ⟨tok, hm⟩
    obtain ⟨e, he, hent⟩ := h.present c _ hm
    obtain ⟨ids, -, rfl⟩ := Mention.entry_file he
    exact ⟨ids, hent⟩

/-- The paths without a file on them are those without a prefix first mentioned as one. -/
theorem Replayed.noFileOn_iff (h : Replayed lines t) {c : List Bytes} :
    NoFileOn t c ↔ ∀ d, d ≠ [] → d <+: c → ∀ tok, firstMention lines d ≠ some (.file tok) := by
  constructor
  · intro hno d hne hd tok hm
    obtain ⟨e, tok', hed, -, heff⟩ := exists_effective_file d hne hm
    exact hno e (hed.trans hd) (h.isFile_iff.2 ⟨tok', heff⟩)
  · intro hno d hd hf
    obtain ⟨tok, hm⟩ := h.isFile_iff.1 hf
    exact hno d hm.ne_nil hd tok hm.first

theorem effective_snoc {line : Line} {c : List Bytes} {m : Mention} :
    Effective (lines ++ [line]) c m ↔
      Effective lines c m ∨ (firstMention lines c = none ∧ line.mention c = some m ∧ ¬ Blocked lines c) := by
  have hfirst : firstMention (lines ++ [line]) c = (firstMention lines c).or (line.mention c) := by
    rw [firstMention_append, firstMention_one]
  constructor
  · rintro ⟨h1, h2⟩
    have hopen : ¬ Blocked lines c := by
      rintro ⟨d, hne, hd, hdc, tok, hm⟩
      exact h2 ⟨d, hne, hd, hdc, tok, by rw [firstMention_append, hm]; rfl⟩
    rw [hfirst] at h1
    cases hm : firstMention lines c with
    | none => rw [hm] at h1; exact .inr ⟨rfl, h1, hopen⟩
    | some m' => rw [hm] at h1; cases h1; exact .inl ⟨hm, hopen⟩
  · rintro (h | ⟨h1, h2, h3⟩)
    · exact h.append _
    · refine ⟨by rw [hfirst, h1]; exact h2, ?_⟩
      rintro ⟨d, hne, hd, hdc, tok, hm⟩
      rw [firstMention_append, firstMention_one, Line.mention_above (by rw [h2]; rfl) hne hd hdc] at hm
      cases hl : firstMention lines d with
      | none => rw [hl] at hm; cases hm
      | some m' => rw [hl] at hm; exact h3 ⟨d, hne, hd, hdc, tok, hl.trans hm⟩

theorem Replayed.not_blocked (h : Replayed lines t) {line : Line} (hno : NoFileOn t line.dirs) {c : List Bytes}
    (hm : (line.mention c).isSome) : ¬ Blocked lines c := by
  rintro ⟨d, hne, hd, hdc, tok, hf⟩
  have hdir := Line.mention_above hm hne hd hdc
  have hpre : d <+: line.dirs := by
    rw [Line.mention] at hdir
    split at hdir
    · rename_i hp; exact hp.2
    · split at hdir
      · split at hdir <;> cases hdir
      · cases hdir
  exact h.noFileOn_iff.1 hno d hne hpre tok hf

/-- A line behind a file has no mention that counts. -/
theorem Replayed.effective_of_file (h : Replayed lines t) {line : Line} (hno : ¬ NoFileOn t line.dirs)
    {c : List Bytes} {m : Mention} : Effective (lines ++ [line]) c m ↔ Effective lines c m := by
  rw [effective_snoc]
  refine or_iff_left ?_
  rintro ⟨h1, h2, h3⟩
  refine hno (h.noFileOn_iff.2 fun d hne hd tok hf => ?_)
  have hcomp : d <+: c ∨ c <+: d := by
    by_cases hp : c <+: line.dirs
    · exact List.prefix_or_prefix_of_prefix hd hp
    · refine .inl ?_
      by_contra hdc
      have hnone : line.mention c = none := Line.mention_eq_none hp fun tok' htg => by
        obtain ⟨name, rfl⟩ := Line.target_eq htg
        exact hdc (hd.trans (List.prefix_append _ _))
      rw [hnone] at h2; cases h2
  rcases hcomp with hdc | hcd
  · refine h3 ⟨d, hne, hdc, ?_, tok, hf⟩
    rintro rfl
    rw [h1] at hf; cases hf
  · have hcne : c ≠ [] := (effective_snoc.2 (.inr ⟨h1, h2, h3⟩)).ne_nil
    have := firstMention_above (by rw [hf]; rfl) hcne hcd
    rw [h1] at this; cases this

/-- One more line without an exception keeps the tree at what its lines say. -/
theorem Replayed.step (h : Replayed lines t) {line : Line} (hr : (applyLine t line).2 = none) :
    Replayed (lines ++ [line]) (applyLine t line).1 := by
  by_cases hno : NoFileOn t line.dirs
  · have hent := fun c hne => entryAt_applyLine h.ok hno hr (c := c) hne
    refine ⟨h.ok.applyLine line, fun c hne hnone => ?_, fun c m hm => ?_⟩
    · rw [hent c hne, h.absent c hne fun m hm => hnone m (hm.append _)]
      cases hm : line.mention c with
      | none => rfl
      | some m =>
        have hopen := h.not_blocked hno (c := c) (by rw [hm]; rfl)
        cases hf : firstMention lines c with
        | none => exact absurd (effective_snoc.2 (.inr ⟨hf, hm, hopen⟩)) (hnone m)
        | some m' => exact absurd (Effective.append ⟨hf, hopen⟩ _) (hnone m')
    · rw [hent c hm.ne_nil]
      rcases effective_snoc.1 hm with hold | ⟨hf, hm', hopen⟩
      · obtain ⟨e, he, hc⟩ := h.present c m hold
        exact ⟨e, he, by rw [hc]; rfl⟩
      · have hn : entryAt t c = none := h.absent c hm.ne_nil fun m' hm'' => by
          rw [hm''.first] at hf; cases hf
        rw [hn, hm', Option.bind_some]
        cases m with
        | dir => exact ⟨dirEntry, rfl, rfl⟩
        | file tok =>
          -- the line created this file, so its ids parsed
          cases hp : parseIds (idTexts tok) with
          | ok ids => exact ⟨⟨.kFile, ids⟩, by rw [Mention.entry, hp]; exact ⟨rfl, rfl⟩⟩
          | error e =>
            have := (applyLine_raises h.ok e).2 ⟨c, tok, Line.target_of_mention hm', hno, hn, hp⟩
            rw [hr] at this; cases this
  · rw [applyLine_of_file h.ok hno]
    refine ⟨h.ok, fun c hne hnone => h.absent c hne fun m hm => hnone m (hm.append _), fun c m hm => ?_⟩
    exact h.present c m ((h.effective_of_file hno).1 hm)

/-- The ids of a line that raises belong to a mention that counts. -/
theorem Replayed.raises (h : Replayed lines t) {line : Line} {e : StollError} (hr : (applyLine t line).2 = some e) :
    ∃ c tok, Effective (lines ++ [line]) c (.file tok) ∧ parseIds (idTexts tok) = .error e := by
  obtain ⟨parts, tok, htg, hno, hn, hp⟩ := (applyLine_raises h.ok e).1 hr
  have hm := Line.mention_target htg
  have hopen := h.not_blocked hno (c := parts) (by rw [hm]; rfl)
  refine ⟨parts, tok, effective_snoc.2 (.inr ⟨?_, hm, hopen⟩), hp⟩
  cases hf : firstMention lines parts with
  | none => rfl
  | some m =>
    obtain ⟨e', -, hent⟩ := h.present parts m ⟨hf, hopen⟩
    rw [hn] at hent; cases hent

/-- A run of lines without an exception leaves the tree its lines say. -/
theorem Replayed.run : ∀ {done : List Line} {t : INode} (todo : List Line), Replayed done t →
    (applyLines t todo).2 = none → Replayed (done ++ todo) (applyLines t todo).1
  | done, t, [], h, _ => by rw [List.append_nil]; exact h
  | done, t, line :: todo, h, hr => by
    rw [applyLines] at hr ⊢
    rcases hl : applyLine t line with ⟨t', e | e⟩
    · simp only [hl] at hr ⊢
      have hnone : (applyLine t line).2 = none := by rw [hl]
      have hstep := h.step hnone
      rw [hl] at hstep
      rw [show done ++ line :: todo = (done ++ [line]) ++ todo by simp]
      exact Replayed.run todo hstep hr
    · simp only [hl] at hr; cases hr

theorem Replayed.run_raises : ∀ {done : List Line} {t : INode} {e : StollError} (todo : List Line), Replayed done t →
    (applyLines t todo).2 = some e →
      ∃ c tok, Effective (done ++ todo) c (.file tok) ∧ parseIds (idTexts tok) = .error e
  | _, _, _, [], _, hr => by cases hr
  | done, t, e, line :: todo, h, hr => by
    rw [applyLines] at hr
    rw [show done ++ line :: todo = (done ++ [line]) ++ todo by simp]
    rcases hl : applyLine t line with ⟨t', e' | e'⟩
    · simp only [hl] at hr
      have hnone : (applyLine t line).2 = none := by rw [hl]
      have hstep := h.step hnone
      rw [hl] at hstep
      exact Replayed.run_raises todo hstep hr
    · simp only [hl] at hr
      cases hr
      have hsome : (applyLine t line).2 = some e := by rw [hl]
      obtain ⟨c, tok, heff, hp⟩ := h.raises hsome
      exact ⟨c, tok, heff.append _, hp⟩

end Step

/-- Before any line, only the root is there. -/
theorem Replayed.start : Replayed [] emptyTree := by
  refine ⟨emptyTree_ok, fun c hne _ => ?_, fun c m hm => ?_⟩
  · cases c with
    | nil => exact absurd rfl hne
    | cons k c => exact entryAt_new_cons _ _ k c
  · cases hm.first

/-! ## Loading the image of a tree -/

theorem replayed_treeLines {t : INode} (hr : (load emptyTree (save t)).2 = none) :
    Replayed (treeLines t) (load emptyTree (save t)).1 := by
  rw [load, imageLines_save] at hr ⊢
  have h := Replayed.start.run (treeLines t) hr
  rwa [List.nil_append] at h

theorem exists_malformed {t : INode} (hr : (load emptyTree (save t)).2 ≠ none) :
    ∃ c tok e, Effective (treeLines t) c (.file tok) ∧ parseIds (idTexts tok) = .error e := by
  rw [load, imageLines_save] at hr
  obtain ⟨e, he⟩ := Option.ne_none_iff_exists'.1 hr
  obtain ⟨c, tok, heff, hp⟩ := Replayed.start.run_raises (treeLines t) he
  exact ⟨c, tok, e, heff, hp⟩

theorem parsed_of_load {t : INode} (hr : (load emptyTree (save t)).2 = none) {c : List Bytes} {tok : Bytes}
    (heff : Effective (treeLines t) c (.file tok)) : ∃ ids, parseIds (idTexts tok) = .ok ids := by
  obtain ⟨e, he, -⟩ := (replayed_treeLines hr).present c _ heff
  obtain ⟨ids, hids, -⟩ := Mention.entry_file he
  exact ⟨ids, hids⟩

/-- Loading the image of a tree ends without an exception exactly when, of the lines its names print,
every file line that is the first about its path and not below a file has ids that parse. -/
theorem load_save_no_exception_iff (t : INode) : (load emptyTree (save t)).2 = none ↔
    ∀ c tok, Effective (treeLines t) c (.file tok) → ∃ ids, parseIds (idTexts tok) = .ok ids := by
  constructor
  · exact fun hr c tok heff => parsed_of_load hr heff
  · intro hall
    by_contra hne
    obtain ⟨c, tok, e, heff, hp⟩ := exists_malformed hne
    obtain ⟨ids, hids⟩ := hall c tok heff
    rw [hp] at hids; cases hids

/-- A file named `x blocks=zz` prints the line `FILE /x blocks=zz blocks=`, whose second word is taken
for its block token. -/
theorem load_save_exception : ¬ ∀ t, ReachableTree t → (load emptyTree (save t)).2 = none := by
  intro h
  have hr : ReachableTree (.mk .kDirectory [] [] [.mk .kFile (bytes "x blocks=zz") [] []]) :=
    @ReachableTree.createFile _ _ (bytes "/x blocks=zz") .empty rfl
  have := h _ hr
  rw [show (load emptyTree (save (.mk .kDirectory [] [] [.mk .kFile (bytes "x blocks=zz") [] []]))).2 =
    some .invalidArgument from rfl] at this
  cases this

/-- Loading the image of `t` invents nothing: when it ends without an exception, every path of the loaded
tree has the kind and the blocks it has in `t`. -/
def NoForgery (t : INode) : Prop :=
  (load emptyTree (save t)).2 = none →
    ∀ c e, entryAt (load emptyTree (save t)).1 c = some e → entryAt t c = some e

/-- The image of a tree forges no entry exactly when its load raises, or every line its names print that
is the first about its path and not below a file says what the tree has there. -/
theorem noForgery_iff {t : INode} (h : ReachableTree t) : NoForgery t ↔
    (∃ c tok e, Effective (treeLines t) c (.file tok) ∧ parseIds (idTexts tok) = .error e) ∨
      ∀ c m, Effective (treeLines t) c m → entryAt t c = m.entry := by
  constructor
  · intro hnf
    by_cases hr : (load emptyTree (save t)).2 = none
    · refine .inr fun c m heff => ?_
      obtain ⟨e, he, hent⟩ := (replayed_treeLines hr).present c m heff
      rw [hnf hr c e hent, he]
    · exact .inl (exists_malformed hr)
  · rintro (⟨c, tok, e, heff, hp⟩ | hall) hr c' e' hent
    · obtain ⟨ids, hids⟩ := parsed_of_load hr heff
      rw [hp] at hids; cases hids
    · have hrep := replayed_treeLines hr
      by_cases hne : c' = []
      · subst hne
        rw [hrep.ok.entry_root] at hent
        rw [h.ok.entry_root]; exact hent
      · by_cases hm : ∃ m, Effective (treeLines t) c' m
        · obtain ⟨m, hm⟩ := hm
          obtain ⟨e, he, hent'⟩ := hrep.present c' m hm
          rw [hall c' m hm, he, ← hent', hent]
        · rw [hrep.absent c' hne fun m hm' => hm ⟨m, hm'⟩] at hent; cases hent

theorem noForgery_sampleTree : NoForgery sampleTree ↔
    (∃ c tok e, Effective (treeLines sampleTree) c (.file tok) ∧ parseIds (idTexts tok) = .error e) ∨
      ∀ c m, Effective (treeLines sampleTree) c m → entryAt sampleTree c = m.entry :=
  noForgery_iff sampleTree_reachable

/-- The directory `x y` is loaded as `x`. -/
theorem forged_directory : ¬ ∀ t, ReachableTree t → NoForgery t := by
  intro h
  have hr : ReachableTree (mkdirs emptyTree (bytes "/x y")).1 := .mkdirs _ .empty
  have := h _ hr rfl [bytes "x"] dirEntry rfl
  rw [show entryAt (mkdirs emptyTree (bytes "/x y")).1 [bytes "x"] = none from rfl] at this
  cases this

end MiniHadoop.Ndfs

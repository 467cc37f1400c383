/-
Trees whose children are kept in a list and found by key, first match first, over arbitrary node and
key types: following a path of keys, rewriting the node at a path, and what a rewrite does to every
other path. `Every` carries a property of all reachable nodes through a rewrite.
-/
import Mathlib.Data.List.Basic
import Mathlib.Data.List.Nodup
import Mathlib.Tactic.Cases

namespace Forest

/-! ## Keyed lists -/

section Keyed

variable {α κ : Type} [DecidableEq κ] (key : α → κ)

/-- The first element with key `k`. -/
def find (k : κ) (l : List α) : Option α := l.find? fun a => key a = k

/-- The first element with key `k` replaced by `v`. -/
def set (k : κ) (v : α) : List α → List α
  | [] => []
  | a :: l => if key a = k then v :: l else a :: set k v l

/-- The list without its first element with key `k`; `none` when there is none. -/
def remove (k : κ) : List α → Option (List α)
  | [] => none
  | a :: l => if key a = k then some l else (remove k l).map (a :: ·)

variable {key}

theorem find_cons (k : κ) (a : α) (l : List α) :
    find key k (a :: l) = if key a = k then some a else find key k l := by
  unfold find
  by_cases h : key a = k <;> simp [h]

theorem key_of_find {k : κ} {l : List α} {a : α} (h : find key k l = some a) : key a = k := by
  simpa using List.find?_some h

theorem mem_of_find {k : κ} {l : List α} {a : α} (h : find key k l = some a) : a ∈ l :=
  List.mem_of_find?_eq_some h

theorem find_eq_none {k : κ} {l : List α} : find key k l = none ↔ k ∉ l.map key := by
  simp [find, List.find?_eq_none]

theorem find_of_mem {l : List α} (hn : (l.map key).Nodup) {a : α} (ha : a ∈ l) :
    find key (key a) l = some a := by
  cases hf : find key (key a) l with
  | none => exact absurd (List.mem_map_of_mem ha) (find_eq_none.1 hf)
  | some b => rw [List.inj_on_of_nodup_map hn (mem_of_find hf) ha (key_of_find hf)]

theorem find_append_one (k : κ) (l : List α) (x : α) :
    find key k (l ++ [x]) = (find key k l).or (if key x = k then some x else none) := by
  unfold find
  rw [List.find?_append]
  by_cases h : key x = k <;> simp [h]

theorem find_set {k : κ} {v : α} (hv : key v = k) (k' : κ) :
    ∀ l : List α, find key k' (set key k v l) =
      if k' = k then (find key k l).map (fun _ => v) else find key k' l
  | [] => by simp [set, find]
  | a :: l => by
    have ih := find_set hv k' l
    by_cases ha : key a = k
    · by_cases hk : k' = k
      · simp [set, find_cons, ha, hv, hk]
      · simp [set, find_cons, ha, hv, Ne.symm hk, hk]
    · by_cases hk : k' = k
      · subst hk
        simp only [if_true] at ih
        simp [set, find_cons, ha, ih]
      · simp only [if_neg hk] at ih
        simp [set, find_cons, ha, ih, hk]

theorem map_key_set {k : κ} {v : α} (hv : key v = k) :
    ∀ l : List α, (set key k v l).map key = l.map key
  | [] => rfl
  | a :: l => by
    by_cases ha : key a = k
    · simp [set, ha, hv]
    · simp [set, ha, map_key_set hv l]

theorem set_self {k : κ} {v : α} : ∀ {l : List α}, find key k l = some v → set key k v l = l
  | [], h => by simp [find] at h
  | a :: l, h => by
    rw [find_cons] at h
    by_cases ha : key a = k
    · rw [if_pos ha] at h; cases h; simp [set, ha]
    · rw [if_neg ha] at h; simp [set, ha, set_self h]

theorem set_set {k : κ} {v w : α} (hv : key v = k) :
    ∀ l : List α, set key k w (set key k v l) = set key k w l
  | [] => rfl
  | a :: l => by
    by_cases ha : key a = k
    · simp [set, ha, hv]
    · simp [set, ha, set_set hv l]

theorem set_append_one {k : κ} {v x : α} (hx : key x = k) :
    ∀ {l : List α}, k ∉ l.map key → set key k v (l ++ [x]) = l ++ [v]
  | [], _ => by simp [set, hx]
  | a :: l, h => by
    simp only [List.map_cons, List.mem_cons, not_or] at h
    simp [set, Ne.symm h.1, set_append_one hx h.2]

theorem remove_isSome {k : κ} : ∀ {l : List α}, (remove key k l).isSome = (find key k l).isSome
  | [] => rfl
  | a :: l => by
    by_cases ha : key a = k
    · simp [remove, find_cons, ha]
    · simp [remove, find_cons, ha, remove_isSome]

/-- A removal takes the first item away, or one behind it. -/
theorem remove_cons {k : κ} {a : α} {l l' : List α} (h : remove key k (a :: l) = some l') :
    (key a = k ∧ l' = l) ∨ (key a ≠ k ∧ ∃ m, remove key k l = some m ∧ l' = a :: m) := by
  by_cases ha : key a = k
  · simp only [remove, ha, if_true] at h
    exact .inl ⟨ha, (Option.some.inj h).symm⟩
  · simp only [remove, ha, if_false] at h
    obtain ⟨m, hm, rfl⟩ := Option.map_eq_some_iff.1 h
    exact .inr ⟨ha, m, hm, rfl⟩

theorem remove_sublist {k : κ} : ∀ {l l' : List α}, remove key k l = some l' → l'.Sublist l
  | [], _, h => by cases h
  | a :: l, l', h => by
    rcases remove_cons h with ⟨-, rfl⟩ | ⟨-, m, hm, rfl⟩
    · exact List.sublist_cons_self ..
    · exact (remove_sublist hm).cons_cons _

/-- With distinct keys, removing a key removes exactly it. -/
theorem find_remove {k : κ} (k' : κ) : ∀ {l l' : List α}, (l.map key).Nodup → remove key k l = some l' →
    find key k' l' = if k' = k then none else find key k' l
  | [], _, _, h => by cases h
  | a :: l, l', hn, h => by
    simp only [List.map_cons, List.nodup_cons] at hn
    rcases remove_cons h with ⟨ha, rfl⟩ | ⟨ha, m, hm, rfl⟩
    · by_cases hk : k' = k
      · subst hk; rw [if_pos rfl, find_eq_none, ← ha]; exact hn.1
      · rw [if_neg hk, find_cons, if_neg (by rw [ha]; exact Ne.symm hk)]
    · rw [find_cons, find_cons, find_remove k' hn.2 hm]
      by_cases hk : k' = k
      · subst hk; simp [ha]
      · simp [hk]

/-- With distinct keys, the keys left after a removal. -/
theorem map_key_remove {k : κ} : ∀ {l l' : List α}, (l.map key).Nodup → remove key k l = some l' →
    l'.map key = (l.map key).filter (· ≠ k)
  | [], _, _, h => by cases h
  | a :: l, l', hn, h => by
    simp only [List.map_cons, List.nodup_cons] at hn
    rcases remove_cons h with ⟨ha, rfl⟩ | ⟨ha, m, hm, rfl⟩
    · have hfree : ∀ j ∈ l'.map key, decide (j ≠ k) = true := by
        rintro j hj
        exact decide_eq_true fun hjk => hn.1 (by rw [ha, ← hjk]; exact hj)
      rw [List.map_cons, ha, List.filter_cons_of_neg (by simp), List.filter_eq_self.2 hfree]
    · rw [List.map_cons, List.map_cons, List.filter_cons_of_pos (by simpa using ha), map_key_remove hn.2 hm]

theorem remove_append_one {k : κ} {x : α} (hx : key x = k) :
    ∀ {l : List α}, k ∉ l.map key → remove key k (l ++ [x]) = some l
  | [], _ => by simp [remove, hx]
  | a :: l, h => by
    simp only [List.map_cons, List.mem_cons, not_or] at h
    simp [remove, Ne.symm h.1, remove_append_one hx h.2]

/-- With distinct keys, taking an element out and appending it again gives the list back exactly when it was
the last one. -/
theorem remove_append_self_iff {k : κ} {x : α} {l l' : List α} (hx : key x = k) (hn : (l.map key).Nodup)
    (h : remove key k l = some l') : l' ++ [x] = l ↔ l.getLast? = some x := by
  constructor
  · rintro rfl
    exact List.getLast?_concat
  · intro hlast
    obtain ⟨init, rfl⟩ := List.getLast?_eq_some_iff.1 hlast
    have hfree : k ∉ init.map key := by
      rw [List.map_append, List.nodup_append] at hn
      exact fun hk => hn.2.2 k hk k (by simp [hx]) rfl
    rw [remove_append_one hx hfree] at h
    rw [Option.some.inj h]

end Keyed

/-! ## Trees -/

/-- A path is not above the path to its parent. -/
theorem not_concat_isPrefix {κ : Type} (p : List κ) (k : κ) : ¬ p ++ [k] <+: p := by
  intro h
  have hle := h.length_le
  rw [List.length_append, List.length_singleton] at hle
  omega

/-- How a node type holds its key and its children. -/
structure Shape (α κ : Type) where
  key : α → κ
  children : α → List α
  withChildren : α → List α → α
  children_with : ∀ a l, children (withChildren a l) = l
  key_with : ∀ a l, key (withChildren a l) = key a
  with_self : ∀ a, withChildren a (children a) = a
  with_with : ∀ a l m, withChildren (withChildren a l) m = withChildren a m

namespace Shape

variable {α κ : Type} [DecidableEq κ] (S : Shape α κ)

def findChild (a : α) (k : κ) : Option α := find S.key k (S.children a)

def setChild (a : α) (k : κ) (v : α) : α := S.withChildren a (set S.key k v (S.children a))

def push (a v : α) : α := S.withChildren a (S.children a ++ [v])

/-- The node reached from `a` by following `path`, one key at a time. -/
def walk : α → List κ → Option α
  | a, [] => some a
  | a, k :: path =>
    match S.findChild a k with
    | none => none
    | some c => walk c path

/-- `a` with the node at `path` rewritten by `f`; `none` when the path leaves the tree or `f`
fails there. -/
def alter (f : α → Option α) : α → List κ → Option α
  | a, [] => f a
  | a, k :: path =>
    match S.findChild a k with
    | none => none
    | some c => (alter f c path).map (S.setChild a k)

variable {S}

theorem walk_cons (a : α) (k : κ) (path : List κ) :
    S.walk a (k :: path) = (S.findChild a k).bind fun c => S.walk c path := by
  rw [walk]
  cases S.findChild a k <;> rfl

theorem walk_append (a : α) (p q : List κ) : S.walk a (p ++ q) = (S.walk a p).bind fun b => S.walk b q := by
  induction p generalizing a with
  | nil => rfl
  | cons k p ih =>
    rw [List.cons_append, walk_cons, walk_cons]
    cases S.findChild a k with
    | none => rfl
    | some c => exact ih c

theorem walk_above {a : α} {p q : List κ} (h : p <+: q) (hq : (S.walk a q).isSome) :
    (S.walk a p).isSome := by
  obtain ⟨r, rfl⟩ := h
  rw [walk_append] at hq
  cases hp : S.walk a p with
  | none => rw [hp] at hq; cases hq
  | some b => rfl

theorem findChild_setChild {a v : α} {k : κ} (hv : S.key v = k) (k' : κ) :
    S.findChild (S.setChild a k v) k' =
      if k' = k then (S.findChild a k).map (fun _ => v) else S.findChild a k' := by
  unfold findChild setChild
  rw [S.children_with]
  exact find_set hv k' _

theorem findChild_push (a v : α) (k : κ) :
    S.findChild (S.push a v) k = (S.findChild a k).or (if S.key v = k then some v else none) := by
  unfold findChild push
  rw [S.children_with]
  exact find_append_one k _ v

@[simp] theorem key_setChild (a v : α) (k : κ) : S.key (S.setChild a k v) = S.key a := S.key_with _ _

theorem setChild_self {a c : α} {k : κ} (h : S.findChild a k = some c) : S.setChild a k c = a := by
  unfold setChild
  rw [set_self h, S.with_self]

/-! ## Rewriting at a path -/

/-- A rewrite below a node rewrites one of its children. -/
theorem alter_cons {f : α → Option α} {a a' : α} {k : κ} {p : List κ} (h : S.alter f a (k :: p) = some a') :
    ∃ c c', S.findChild a k = some c ∧ S.alter f c p = some c' ∧ a' = S.setChild a k c' := by
  rw [alter] at h
  cases hc : S.findChild a k with
  | none => rw [hc] at h; cases h
  | some c =>
    rw [hc] at h
    obtain ⟨c', hc', rfl⟩ := Option.map_eq_some_iff.1 h
    exact ⟨c, c', rfl, hc', rfl⟩

theorem alter_key {f : α → Option α} (hf : ∀ n n', f n = some n' → S.key n' = S.key n) :
    ∀ (p : List κ) {a a' : α}, S.alter f a p = some a' → S.key a' = S.key a
  | [], _, _, h => hf _ _ h
  | k :: p, a, a', h => by
    obtain ⟨c, c', -, -, rfl⟩ := alter_cons h
    exact key_setChild ..

theorem alter_eq_some {f : α → Option α} (p : List κ) {a b b' : α} (hw : S.walk a p = some b)
    (hb : f b = some b') : ∃ a', S.alter f a p = some a' := by
  induction p generalizing a with
  | nil => cases hw; exact ⟨b', hb⟩
  | cons k p ih =>
    rw [walk_cons] at hw
    obtain ⟨c, hc, hw⟩ := Option.bind_eq_some_iff.1 hw
    obtain ⟨c', hc'⟩ := ih hw
    exact ⟨S.setChild a k c', by rw [alter, hc]; simp [hc']⟩

theorem walk_of_alter {f : α → Option α} (p : List κ) {a a' : α} (h : S.alter f a p = some a') :
    ∃ b b', S.walk a p = some b ∧ f b = some b' := by
  induction p generalizing a a' with
  | nil => exact ⟨a, a', rfl, h⟩
  | cons k p ih =>
    obtain ⟨c, c', hc, hc', -⟩ := alter_cons h
    obtain ⟨b, b', h1, h2⟩ := ih hc'
    exact ⟨b, b', by rw [walk_cons, hc]; exact h1, h2⟩

/-- What a rewrite at `p` leaves at every path, seen through an attribute `val` that does not
change when a child is replaced by another with its key. -/
theorem walk_alter {V : Type} {val : α → V} (hval : ∀ a k v, S.key v = k → val (S.setChild a k v) = val a)
    {f : α → Option α} (hf : ∀ n n', f n = some n' → S.key n' = S.key n) (p : List κ) {a a' : α}
    (h : S.alter f a p = some a') (c : List κ) :
    (S.walk a' c).map val =
      if p <+: c then (((S.walk a p).bind f).bind fun b => S.walk b (c.drop p.length)).map val
      else (S.walk a c).map val := by
  induction p generalizing a a' c with
  | nil =>
    simp only [alter] at h
    simp [walk, h]
  | cons k p ih =>
    obtain ⟨b, b', hc, hb', rfl⟩ := alter_cons h
    have hkey : S.key b' = k := (alter_key hf p hb').trans (key_of_find hc)
    cases c with
    | nil => simp [walk, hval a k b' hkey]
    | cons k' c =>
      rw [walk_cons, walk_cons, walk_cons, findChild_setChild hkey, hc]
      by_cases hk : k' = k
      · subst hk
        rw [if_pos rfl, hc]
        simp only [Option.map_some, Option.bind_some, List.cons_prefix_cons, true_and,
          List.length_cons, List.drop_succ_cons]
        exact ih hb' c
      · rw [if_neg hk, if_neg]
        rw [List.cons_prefix_cons]
        exact fun h => hk h.1.symm

/-- What pushing a leaf onto the node at `p` leaves at every path. -/
theorem walk_alter_push {V : Type} {val : α → V} (hval : ∀ a k v, S.key v = k → val (S.setChild a k v) = val a)
    {p : List κ} {a a' b v : α} (hw : S.walk a p = some b) (hnew : S.findChild b (S.key v) = none)
    (hleaf : S.children v = []) (h : S.alter (fun n => some (S.push n v)) a p = some a') (c : List κ) :
    (S.walk a' c).map val =
      if c = p then some (val (S.push b v))
      else if c = p ++ [S.key v] then some (val v) else (S.walk a c).map val := by
  have key := walk_alter hval (fun n n' hn => by cases hn; exact S.key_with _ _) p h c
  rw [key, hw]
  by_cases hp : p <+: c
  · obtain ⟨r, rfl⟩ := hp
    rw [if_pos (List.prefix_append p r), List.drop_left, walk_append, hw]
    simp only [Option.bind_some]
    cases r with
    | nil => simp [walk]
    | cons k r =>
      rw [if_neg (by simp), walk_cons, walk_cons, findChild_push]
      by_cases hk : k = S.key v
      · -- below the new leaf there is nothing
        subst hk
        rw [hnew]
        simp only [Option.none_or, if_true, Option.bind_some]
        cases r with
        | nil => simp [walk]
        | cons j r =>
          have hnone : S.findChild v j = none := by
            unfold findChild
            rw [hleaf]; rfl
          rw [if_neg (by simp), walk_cons, hnone]; rfl
      · rw [if_neg (Ne.symm hk), Option.or_none, if_neg]
        intro heq
        exact hk (List.cons.inj (List.append_cancel_left heq)).1
  · rw [if_neg hp, if_neg, if_neg]
    · rintro rfl; exact hp (List.prefix_append p _)
    · rintro rfl; exact hp (List.prefix_refl _)

/-- What removing a child of the node at `p` leaves at every path. -/
theorem walk_alter_remove {V : Type} {val : α → V} (hval : ∀ a k v, S.key v = k → val (S.setChild a k v) = val a)
    {p : List κ} {a a' b : α} {k : κ} {l : List α} (hw : S.walk a p = some b) (hn : ((S.children b).map S.key).Nodup)
    (hl : remove S.key k (S.children b) = some l)
    (h : S.alter (fun n => (remove S.key k (S.children n)).map (S.withChildren n)) a p = some a') (c : List κ) :
    (S.walk a' c).map val =
      if c = p then some (val (S.withChildren b l))
      else if p ++ [k] <+: c then none else (S.walk a c).map val := by
  have hkey : ∀ n n', (remove S.key k (S.children n)).map (S.withChildren n) = some n' → S.key n' = S.key n := by
    intro n n' hn'
    obtain ⟨m, -, rfl⟩ := Option.map_eq_some_iff.1 hn'
    exact S.key_with _ _
  have key := walk_alter hval hkey p h c
  rw [key, hw]
  by_cases hp : p <+: c
  · obtain ⟨r, rfl⟩ := hp
    rw [if_pos (List.prefix_append p r), List.drop_left, walk_append, hw]
    simp only [Option.bind_some, hl, Option.map_some]
    cases r with
    | nil => simp [walk]
    | cons j r =>
      have hfind : S.findChild (S.withChildren b l) j = if j = k then none else S.findChild b j := by
        unfold findChild
        rw [S.children_with]
        exact find_remove j hn hl
      rw [if_neg (by simp), walk_cons, walk_cons, hfind]
      simp only [List.prefix_append_right_inj, List.cons_prefix_cons]
      by_cases hj : j = k
      · subst hj; simp
      · rw [if_neg hj, if_neg]
        exact fun h => hj h.1.symm
  · rw [if_neg hp, if_neg, if_neg]
    · exact fun hpk => hp ((List.prefix_append p [k]).trans hpk)
    · rintro rfl; exact hp (List.prefix_refl _)

/-- What changing the node at `p` without its key and children leaves at every path. -/
theorem walk_alter_update {V : Type} {val : α → V} (hval : ∀ a k v, S.key v = k → val (S.setChild a k v) = val a)
    {g : α → α} (hkey : ∀ n, S.key (g n) = S.key n) (hchildren : ∀ n, S.children (g n) = S.children n) {p : List κ}
    {a a' b : α} (hw : S.walk a p = some b) (h : S.alter (fun n => some (g n)) a p = some a') (c : List κ) :
    (S.walk a' c).map val = if c = p then some (val (g b)) else (S.walk a c).map val := by
  have key := walk_alter hval (fun n n' hn => by cases hn; exact hkey n) p h c
  rw [key, hw]
  by_cases hp : p <+: c
  · obtain ⟨r, rfl⟩ := hp
    rw [if_pos (List.prefix_append p r), List.drop_left, walk_append, hw]
    simp only [Option.bind_some]
    cases r with
    | nil => simp [walk]
    | cons k r =>
      rw [if_neg (by simp), walk_cons, walk_cons, show S.findChild (g b) k = S.findChild b k by
        unfold findChild
        rw [hchildren]]
  · rw [if_neg hp, if_neg]
    rintro rfl; exact hp (List.prefix_refl _)

/-- Two rewrites at one path are one. -/
theorem alter_alter {f g : α → Option α} (hf : ∀ n n', f n = some n' → S.key n' = S.key n) (p : List κ)
    {a a' : α} (h : S.alter f a p = some a') :
    S.alter g a' p = S.alter (fun n => (f n).bind g) a p := by
  induction p generalizing a a' with
  | nil => simp only [alter] at h ⊢; rw [h]; rfl
  | cons k p ih =>
    obtain ⟨c, c', hc, hc', rfl⟩ := alter_cons h
    have hkey : S.key c' = k := (alter_key hf p hc').trans (key_of_find hc)
    rw [alter, alter, findChild_setChild hkey, if_pos rfl, hc]
    simp only [Option.map_some]
    rw [ih hc']
    cases S.alter (fun n => (f n).bind g) c p with
    | none => rfl
    | some d =>
      simp only [Option.map_some, Option.some.injEq, setChild, S.children_with, S.with_with]
      rw [set_set hkey]

/-- A rewrite at `p ++ q` rewrites, at `p`, the node reached by `q`. -/
theorem alter_append (f : α → Option α) (a : α) (p q : List κ) :
    S.alter f a (p ++ q) = S.alter (fun n => S.alter f n q) a p := by
  induction p generalizing a with
  | nil => rfl
  | cons k p ih =>
    rw [List.cons_append, alter, alter]
    cases S.findChild a k with
    | none => rfl
    | some c => simp only [ih]

/-- A rewrite that keeps the node it finds keeps the tree. -/
theorem alter_same {f : α → Option α} (p : List κ) {a b : α} (hw : S.walk a p = some b)
    (hb : f b = some b) : S.alter f a p = some a := by
  induction p generalizing a with
  | nil => cases hw; exact hb
  | cons k p ih =>
    rw [walk_cons] at hw
    obtain ⟨c, hc, hw⟩ := Option.bind_eq_some_iff.1 hw
    rw [alter, hc]
    simp only [ih hw, Option.map_some, setChild_self hc]

/-- A rewrite depends only on what it does to the node at its path. -/
theorem alter_congr {f g : α → Option α} (p : List κ) {a b : α} (hw : S.walk a p = some b)
    (hfg : f b = g b) : S.alter f a p = S.alter g a p := by
  induction p generalizing a with
  | nil => cases hw; exact hfg
  | cons k p ih =>
    rw [walk_cons] at hw
    obtain ⟨c, hc, hw⟩ := Option.bind_eq_some_iff.1 hw
    rw [alter, alter, hc]
    simp only [ih hw]

theorem walk_alter_same {f : α → Option α} (hf : ∀ n n', f n = some n' → S.key n' = S.key n) (p : List κ)
    {a a' b : α} (h : S.alter f a p = some a') (hw : S.walk a p = some b) : S.walk a' p = f b := by
  induction p generalizing a a' with
  | nil => cases hw; simp only [alter] at h; rw [h]; rfl
  | cons k p ih =>
    rw [walk_cons] at hw
    obtain ⟨c, hc, hw⟩ := Option.bind_eq_some_iff.1 hw
    rw [alter, hc] at h
    obtain ⟨c', hc', rfl⟩ := Option.map_eq_some_iff.1 h
    have hkey : S.key c' = k := (alter_key hf p hc').trans (key_of_find hc)
    rw [walk_cons, findChild_setChild hkey, if_pos rfl, hc]
    exact ih hc' hw

/-! ## Properties of all nodes -/

/-- `P` holds of every node a path reaches. -/
def Every (P : α → Prop) (a : α) : Prop := ∀ c n, S.walk a c = some n → P n

theorem Every.self {P : α → Prop} {a : α} (h : S.Every P a) : P a := h [] a rfl

theorem Every.walk {P : α → Prop} {a b : α} {p : List κ} (h : S.Every P a) (hp : S.walk a p = some b) :
    S.Every P b := by
  intro c n hn
  refine h (p ++ c) n ?_
  rw [walk_append, hp]
  exact hn

theorem Every.child {P : α → Prop} {a c : α} {k : κ} (h : S.Every P a) (hc : S.findChild a k = some c) :
    S.Every P c :=
  h.walk (p := [k]) (by rw [walk_cons, hc]; rfl)

theorem Every.intro {P : α → Prop} {a : α} (ha : P a)
    (hc : ∀ k c, S.findChild a k = some c → S.Every P c) : S.Every P a := by
  intro c n hn
  cases c with
  | nil => cases hn; exact ha
  | cons k c =>
    rw [walk_cons] at hn
    obtain ⟨b, hb, hn⟩ := Option.bind_eq_some_iff.1 hn
    exact hc k b hb c n hn

theorem Every.of_mem {P : α → Prop} {a : α} (ha : P a) (hc : ∀ c ∈ S.children a, S.Every P c) : S.Every P a :=
  Every.intro ha fun _ c h => hc c (mem_of_find h)

/-- Replacing a child keeps `Every` when `P` of the node survives it. -/
theorem Every.setChild {P : α → Prop} {a v : α} {k : κ} (h : S.Every P a) (hv : S.Every P v)
    (hk : S.key v = k) (ha : P (S.setChild a k v)) : S.Every P (S.setChild a k v) := by
  refine Every.intro ha fun k' c hc => ?_
  rw [findChild_setChild hk] at hc
  split at hc
  · obtain ⟨_, -, rfl⟩ := Option.map_eq_some_iff.1 hc
    exact hv
  · exact h.child hc

theorem Every.push {P : α → Prop} {a v : α} (h : S.Every P a) (hv : S.Every P v) (ha : P (S.push a v)) :
    S.Every P (S.push a v) := by
  refine Every.intro ha fun k c hc => ?_
  rw [findChild_push, Option.or_eq_some_iff] at hc
  rcases hc with hc | ⟨-, hc⟩
  · exact h.child hc
  · split at hc
    · cases hc; exact hv
    · cases hc

/-- A rewrite keeps `Every` when it does at its path and `P` survives replacing a child by another
with the same key. -/
theorem Every.alter {P : α → Prop} {f : α → Option α}
    (hP : ∀ a c v k, P a → S.findChild a k = some c → S.key v = k → P (S.setChild a k v))
    (hkey : ∀ n n', f n = some n' → S.key n' = S.key n)
    (hf : ∀ n n', S.Every P n → f n = some n' → S.Every P n') (p : List κ) {a a' : α} (h : S.Every P a)
    (ha : S.alter f a p = some a') : S.Every P a' := by
  induction p generalizing a a' with
  | nil => exact hf a a' h ha
  | cons k p ih =>
    obtain ⟨c, c', hc, hc', rfl⟩ := alter_cons ha
    have hk : S.key c' = k := (alter_key hkey p hc').trans (key_of_find hc)
    exact h.setChild (ih (h.child hc) hc') hk (hP a c c' k h.self hc hk)

end Shape

end Forest

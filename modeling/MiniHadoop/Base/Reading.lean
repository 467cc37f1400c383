/-
Readers that can fail: computations that take items off the front of an input and return a value or an
error. `Reads` says that a reader takes exactly the given items, whatever follows them; `Accepts` says on
which inputs it returns at all, and what it leaves of them. Both are put together the way readers are.
-/
import Mathlib.Data.List.Basic

namespace Reading

variable {σ β ε α γ : Type} {rest : σ → List β} {r : StateT σ (Except ε) α} {f : α → StateT σ (Except ε) γ}

theorem bind_ok {s s' : σ} {a : α} (h : r s = .ok (a, s')) : (r >>= f) s = f a s' := by
  show (r s >>= fun p => f p.1 p.2) = f a s'
  rw [h]; rfl

theorem bind_error {s : σ} {e : ε} (h : r s = .error e) : (r >>= f) s = .error e := by
  show (r s >>= fun p => f p.1 p.2) = .error e
  rw [h]; rfl

/-- A sequence that returns has come through its first reader. -/
theorem bind_eq_ok {s s'' : σ} {c : γ} (h : (r >>= f) s = .ok (c, s'')) :
    ∃ a s', r s = .ok (a, s') ∧ f a s' = .ok (c, s'') := by
  cases hr : r s with
  | error e => rw [bind_error hr] at h; cases h
  | ok out => exact ⟨out.1, out.2, rfl, by rwa [bind_ok hr] at h⟩

/-! ## What is returned -/

/-- Whatever the reader returns has the property. -/
def Returns (r : StateT σ (Except ε) α) (p : α → Prop) : Prop := ∀ s a s', r s = .ok (a, s') → p a

theorem Returns.pure {p : α → Prop} {a : α} (h : p a) : Returns (Pure.pure a : StateT σ (Except ε) α) p := by
  intro s b s' hs
  cases hs
  exact h

theorem Returns.bind {p : α → Prop} {q : γ → Prop} (h : Returns r p) (hf : ∀ a, p a → Returns (f a) q) :
    Returns (r >>= f) q := by
  intro s c s'' hs
  obtain ⟨a, s', hr, hs⟩ := bind_eq_ok hs
  exact hf a (h s a s' hr) s' c s'' hs

theorem Returns.trivial (r : StateT σ (Except ε) α) : Returns r fun _ => True := fun _ _ _ _ => True.intro

/-! ## What a reader leaves alone -/

/-- The reader does not change this part of the state. -/
def Keeps {δ : Type} (part : σ → δ) (r : StateT σ (Except ε) α) : Prop := ∀ s a s', r s = .ok (a, s') → part s' = part s

theorem Keeps.pure {δ : Type} {part : σ → δ} (a : α) : Keeps part (Pure.pure a : StateT σ (Except ε) α) := by
  intro s b s' hs
  cases hs
  rfl

theorem Keeps.bind {δ : Type} {part : σ → δ} (h : Keeps part r) (hf : ∀ a, Keeps part (f a)) :
    Keeps part (r >>= f) := by
  intro s c s'' hs
  obtain ⟨a, s', hr, hs⟩ := bind_eq_ok hs
  exact (hf a s' c s'' hs).trans (h s a s' hr)

/-! ## Reading what was written -/

/-- The reader takes the items `x` and returns `a`, whatever comes after them. -/
def Reads (rest : σ → List β) (r : StateT σ (Except ε) α) (x : List β) (a : α) : Prop :=
  ∀ s y, rest s = x ++ y → ∃ s', r s = .ok (a, s') ∧ rest s' = y

theorem Reads.pure (a : α) : Reads rest (Pure.pure a : StateT σ (Except ε) α) [] a :=
  fun s _ h => ⟨s, rfl, h⟩

theorem Reads.bind {x y : List β} {a : α} {c : γ} (h : Reads rest r x a) (hf : Reads rest (f a) y c) :
    Reads rest (r >>= f) (x ++ y) c := by
  intro s z hs
  rw [List.append_assoc] at hs
  obtain ⟨s', hr, hs'⟩ := h s _ hs
  obtain ⟨s'', hr', hs''⟩ := hf s' _ hs'
  exact ⟨s'', by rw [bind_ok hr, hr'], hs''⟩

/-- The last item of a reader, whose value goes into the result. -/
theorem Reads.last {x : List β} {a : α} (h : Reads rest r x a) (g : α → γ) :
    Reads rest (r >>= fun a => Pure.pure (g a)) x (g a) := by
  rw [← List.append_nil x]
  exact h.bind (Reads.pure (g a))

/-- A reader called `n` times. -/
def times (r : StateT σ (Except ε) α) : Nat → StateT σ (Except ε) (List α)
  | 0 => pure []
  | n + 1 => do
    let a ← r
    let as ← times r n
    return a :: as

theorem Reads.times {encode : α → List β} :
    ∀ {as : List α}, (∀ a ∈ as, Reads rest r (encode a) a) → Reads rest (times r as.length) (as.flatMap encode) as
  | [], _ => Reads.pure []
  | a :: as, h => by
    rw [List.flatMap_cons]
    exact (h a (by simp)).bind ((Reads.times fun b hb => h b (List.mem_cons_of_mem _ hb)).last (a :: ·))

/-! ## Which inputs are read -/

/-- The reader returns on the inputs that `skip` passes, and leaves of them what `skip` leaves. -/
def Accepts (rest : σ → List β) (r : StateT σ (Except ε) α) (skip : List β → Option (List β)) : Prop :=
  ∀ s, (∃ a s', r s = .ok (a, s') ∧ skip (rest s) = some (rest s')) ∨ (∃ e, r s = .error e ∧ skip (rest s) = none)

theorem Accepts.pure (a : α) : Accepts rest (Pure.pure a : StateT σ (Except ε) α) some :=
  fun s => .inl ⟨a, s, rfl, rfl⟩

theorem Accepts.bind {skip skip' : List β → Option (List β)} (h : Accepts rest r skip)
    (hf : ∀ a, Accepts rest (f a) skip') : Accepts rest (r >>= f) fun l => (skip l).bind skip' := by
  intro s
  rcases h s with ⟨a, s', hr, hs⟩ | ⟨e, hr, hs⟩
  · simp only [bind_ok hr, hs]
    exact hf a s'
  · exact .inr ⟨e, bind_error hr, by simp only [hs]; rfl⟩

/-- The last item of a reader. -/
theorem Accepts.last {skip : List β → Option (List β)} (h : Accepts rest r skip) (g : α → γ) :
    Accepts rest (r >>= fun a => Pure.pure (g a)) skip := by
  have hg : Accepts rest (r >>= fun a => Pure.pure (g a)) fun l => (skip l).bind some :=
    h.bind fun a => Accepts.pure (g a)
  simpa only [Option.bind_fun_some] using hg

/-- `n` items of the same kind. -/
def skipTimes (skip : List β → Option (List β)) : Nat → List β → Option (List β)
  | 0, l => some l
  | n + 1, l => (skip l).bind (skipTimes skip n)

theorem Accepts.times {skip : List β → Option (List β)} (h : Accepts rest r skip) :
    ∀ n, Accepts rest (times r n) (skipTimes skip n)
  | 0 => Accepts.pure []
  | n + 1 => h.bind fun a => (Accepts.times h n).last (a :: ·)

/-- A reader returns exactly when its input is passed. -/
theorem Accepts.isOk_iff {skip : List β → Option (List β)} (h : Accepts rest r skip) (s : σ) :
    (∃ a s', r s = .ok (a, s')) ↔ (skip (rest s)).isSome = true := by
  rcases h s with ⟨a, s', hr, hs⟩ | ⟨e, hr, hs⟩
  · rw [hs]
    exact ⟨fun _ => rfl, fun _ => ⟨a, s', hr⟩⟩
  · rw [hs, hr]
    constructor
    · rintro ⟨a, s', hok⟩
      cases hok
    · intro hsome
      cases hsome

end Reading

/-
Runs of a step relation, and the two rules that carry a fact along a run: an invariant of the steps,
which may speak of the events so far, holds at the end, and a relation to an abstract machine that the
steps keep relates the two ends. A machine that is a function of its events has one run for each list
of them; there a property of all states on the way can be traced to a condition on the single steps.
-/
import Mathlib.Data.List.Induction

namespace Runs

variable {σ ε τ : Type*} {step : σ → ε → σ → Prop}

/-- The events lead from one state to another. -/
inductive Run (step : σ → ε → σ → Prop) (s : σ) : List ε → σ → Prop
  | nil : Run step s [] s
  | snoc {es : List ε} {s' s'' : σ} {e : ε} : Run step s es s' → step s' e s'' → Run step s (es ++ [e]) s''

/-- A run without events stays where it is. -/
theorem Run.eq_of_nil {s s' : σ} (h : Run step s [] s') : s' = s := by
  generalize hes : ([] : List ε) = es at h
  cases h with
  | nil => rfl
  | snoc _ _ => simp at hes

/-- The last step of a run. -/
theorem Run.last {s s'' : σ} {es : List ε} {e : ε} (h : Run step s (es ++ [e]) s'') :
    ∃ s', Run step s es s' ∧ step s' e s'' := by
  generalize hes : es ++ [e] = es' at h
  cases h with
  | nil => simp at hes
  | snoc hrun hlast =>
    obtain ⟨rfl, rfl⟩ := List.append_inj' hes rfl |>.imp_right List.singleton_inj.1
    exact ⟨_, hrun, hlast⟩

theorem Run.append {s s' s'' : σ} {es es' : List ε} (h : Run step s es s') (h' : Run step s' es' s'') :
    Run step s (es ++ es') s'' := by
  induction h' with
  | nil => rw [List.append_nil]; exact h
  | snoc _ hlast ih => rw [← List.append_assoc]; exact ih.snoc hlast

/-- A run of some events and then others goes through a state in between. -/
theorem Run.split {s s'' : σ} {es es' : List ε} (h : Run step s (es ++ es') s'') :
    ∃ s', Run step s es s' ∧ Run step s' es' s'' := by
  induction es' using List.reverseRecOn generalizing s'' with
  | nil => exact ⟨s'', by rwa [List.append_nil] at h, .nil⟩
  | append_singleton es' e ih =>
    rw [← List.append_assoc] at h
    obtain ⟨t, hrun, hlast⟩ := h.last
    obtain ⟨s', hfirst, hrest⟩ := ih hrun
    exact ⟨s', hfirst, hrest.snoc hlast⟩

/-- What holds at the start and what every step keeps holds at the end of a run. -/
theorem Run.invariant {inv : List ε → σ → Prop} {s s' : σ} {es : List ε} (h : Run step s es s') (hs : inv [] s)
    (hstep : ∀ es s e s', inv es s → step s e s' → inv (es ++ [e]) s') : inv es s' := by
  induction h with
  | nil => exact hs
  | snoc _ hlast ih => exact hstep _ _ _ _ ih hlast

/-- When every step keeps a relation to the states of an abstract machine, so does every run. -/
theorem Run.simulation {rel : σ → τ → Prop} {apply : τ → ε → τ}
    (hstep : ∀ s e s' t, rel s t → step s e s' → rel s' (apply t e)) {s s' : σ} {t : τ} {es : List ε}
    (h : Run step s es s') (hs : rel s t) : rel s' (es.foldl apply t) := by
  refine @Run.invariant _ _ _ (fun es s => rel s (es.foldl apply t)) _ _ _ h hs fun es s e s' hrel hlast => ?_
  rw [List.foldl_append]
  exact hstep _ _ _ _ hrel hlast

/-- When every step keeps an invariant and is seen as a step of another machine, so is the run. -/
theorem Run.map {σ' ε' : Type*} {step' : σ' → ε' → σ' → Prop} {inv : σ → Prop} {f : σ → σ'} {g : ε → ε'}
    (hstep : ∀ s e s', inv s → step s e s' → inv s' ∧ step' (f s) (g e) (f s')) {s s' : σ} {es : List ε}
    (h : Run step s es s') (hs : inv s) : inv s' ∧ Run step' (f s) (es.map g) (f s') := by
  induction h with
  | nil => exact ⟨hs, .nil⟩
  | snoc _ hlast ih =>
    obtain ⟨hinv, hrun⟩ := ih
    obtain ⟨hinv', hlast'⟩ := hstep _ _ _ hinv hlast
    rw [List.map_append]
    exact ⟨hinv', hrun.snoc hlast'⟩

/-- When every step makes a number smaller, a run is no longer than that number was at its start. -/
theorem Run.length_le {weight : σ → Nat} (hstep : ∀ s e s', step s e s' → weight s' < weight s) {s s' : σ}
    {es : List ε} (h : Run step s es s') : es.length + weight s' ≤ weight s := by
  induction h with
  | nil => exact Nat.le_of_eq (Nat.zero_add _)
  | snoc _ hlast ih =>
    have hlt := hstep _ _ _ hlast
    rw [List.length_append, List.length_singleton]
    omega

/-- The last event that shows something, when one more event has happened. -/
theorem findSome?_reverse_snoc (see : ε → Option τ) (es : List ε) (e : ε) :
    (es ++ [e]).reverse.findSome? see = (see e).or (es.reverse.findSome? see) := by
  rw [List.reverse_append, List.reverse_singleton, List.singleton_append, List.findSome?_cons]
  cases see e <;> rfl

/-! ## Machines that are functions -/

section After

variable {apply : σ → ε → σ} {s : σ}

/-- The state a machine is in after some events. -/
def after (apply : σ → ε → σ) (s : σ) (es : List ε) : σ := es.foldl apply s

theorem after_nil : after apply s [] = s := rfl

theorem after_cons (e : ε) (es : List ε) : after apply s (e :: es) = after apply (apply s e) es := rfl

theorem after_snoc (es : List ε) (e : ε) : after apply s (es ++ [e]) = apply (after apply s es) e := by
  rw [after, List.foldl_append]; rfl

theorem after_append (es es' : List ε) : after apply s (es ++ es') = after apply (after apply s es) es' := by
  rw [after, List.foldl_append]; rfl

/-- What holds at the start and what every event of the list keeps holds in all states on the way. -/
theorem after_invariant {inv : List ε → σ → Prop} {es : List ε} (hs : inv [] s)
    (hstep : ∀ pre e, pre ++ [e] <+: es → inv pre (after apply s pre) →
      inv (pre ++ [e]) (apply (after apply s pre) e)) :
    ∀ pre, pre <+: es → inv pre (after apply s pre) := by
  intro pre
  induction pre using List.reverseRecOn with
  | nil => exact fun _ => hs
  | append_singleton pre e ih =>
    intro hpre
    rw [after_snoc]
    exact hstep pre e hpre (ih ((List.prefix_append pre [e]).trans hpre))

/-- What holds at the start and what every event of the list keeps in any state holds at the end. -/
theorem after_keeps {p : σ → Prop} {es : List ε} (hs : p s) (hstep : ∀ s, ∀ e ∈ es, p s → p (apply s e)) :
    p (after apply s es) := by
  refine @after_invariant _ _ apply s (fun _ s => p s) es hs ?_ es (List.prefix_refl es)
  intro pre e hpre h
  exact hstep _ e (hpre.subset (by simp)) h

/-- When a state that goes with the events so far does so after exactly the steps that meet a condition, all states
on the way go with their events exactly when all steps meet it. -/
theorem after_related_iff {related : List ε → σ → Prop} {meets : σ → ε → Prop} {es : List ε} (hs : related [] s)
    (hstep : ∀ pre e, pre ++ [e] <+: es → related pre (after apply s pre) →
      (related (pre ++ [e]) (apply (after apply s pre) e) ↔ meets (after apply s pre) e)) :
    (∀ pre, pre <+: es → related pre (after apply s pre)) ↔
      ∀ pre e, pre ++ [e] <+: es → meets (after apply s pre) e := by
  constructor
  · intro hall pre e hpre
    have hlast := hall (pre ++ [e]) hpre
    rw [after_snoc] at hlast
    exact (hstep pre e hpre (hall pre ((List.prefix_append pre [e]).trans hpre))).1 hlast
  · intro hmeets
    refine after_invariant hs fun pre e hpre hrelated => ?_
    exact (hstep pre e hpre hrelated).2 (hmeets pre e hpre)

/-- When a good state stays good in exactly the steps that meet a condition, all states on the way are
good exactly when all steps meet it. -/
theorem after_good_iff {good : σ → Prop} {meets : σ → ε → Prop} {es : List ε} (hs : good s)
    (hstep : ∀ pre e, pre ++ [e] <+: es → good (after apply s pre) →
      (good (apply (after apply s pre) e) ↔ meets (after apply s pre) e)) :
    (∀ pre, pre <+: es → good (after apply s pre)) ↔
      ∀ pre e, pre ++ [e] <+: es → meets (after apply s pre) e :=
  @after_related_iff _ _ apply s (fun _ s => good s) meets es hs hstep

/-- What is seen of the steps of a run, in their order. -/
def trace (apply : σ → ε → σ) (see : σ → ε → List τ) : σ → List ε → List τ
  | _, [] => []
  | s, e :: es => see s e ++ trace apply see (apply s e) es

theorem trace_append {see : σ → ε → List τ} :
    ∀ (es es' : List ε) (s : σ),
      trace apply see s (es ++ es') = trace apply see s es ++ trace apply see (after apply s es) es'
  | [], _, _ => rfl
  | e :: es, es', s => by
    rw [List.cons_append, trace, trace, trace_append es, List.append_assoc]
    rfl

theorem trace_snoc {see : σ → ε → List τ} (es : List ε) (s : σ) (e : ε) :
    trace apply see s (es ++ [e]) = trace apply see s es ++ see (after apply s es) e := by
  rw [trace_append, trace, trace, List.append_nil]

/-- Two machines show the same when a relation between them is kept by every step and their steps show the same. -/
theorem trace_eq_of_rel {σ' ε' : Type*} {apply' : σ' → ε' → σ'} {see : σ → ε → List τ} {see' : σ' → ε' → List τ}
    {rel : σ → σ' → Prop} {good : ε' → Prop} {rename : ε' → ε}
    (hstep : ∀ s s' e, good e → rel s s' →
      see s (rename e) = see' s' e ∧ rel (apply s (rename e)) (apply' s' e)) :
    ∀ (es : List ε') (s : σ) (s' : σ'), (∀ e ∈ es, good e) → rel s s' →
      trace apply see s (es.map rename) = trace apply' see' s' es
  | [], _, _, _, _ => rfl
  | e :: es, s, s', hes, h => by
    obtain ⟨hsee, hnext⟩ := hstep s s' e (hes e (List.mem_cons_self ..)) h
    rw [List.map_cons, trace, trace, hsee,
      trace_eq_of_rel hstep es _ _ (fun e' he' => hes e' (List.mem_cons_of_mem _ he')) hnext]

/-- A condition on the events with what precedes them, for one more event. -/
theorem forall_snoc_iff {meets : List ε → ε → Prop} {es : List ε} {e : ε} :
    (∀ pre e', pre ++ [e'] <+: es ++ [e] → meets pre e') ↔ (∀ pre e', pre ++ [e'] <+: es → meets pre e') ∧ meets es e := by
  constructor
  · exact fun h => ⟨fun pre e' hpre => h pre e' (hpre.trans (List.prefix_append _ _)), h es e (List.prefix_refl _)⟩
  · rintro ⟨hall, hlast⟩ pre e' hpre
    rcases List.prefix_concat_iff.1 hpre with heq | hpre
    · obtain ⟨hpre', he⟩ := List.append_inj' heq rfl
      rw [hpre', List.singleton_inj.1 he]
      exact hlast
    · exact hall pre e' hpre

/-- A condition on the events with what precedes them, checked place by place. -/
theorem forall_snoc_of_take {meets : List ε → ε → Prop} {es : List ε}
    (h : ∀ i < es.length, ∀ e ∈ es[i]?, meets (es.take i) e) : ∀ pre e, pre ++ [e] <+: es → meets pre e := by
  rintro pre e ⟨post, rfl⟩
  rw [List.append_assoc] at h
  have := h pre.length (by simp) e (by simp)
  rwa [List.take_left] at this

end After

end Runs

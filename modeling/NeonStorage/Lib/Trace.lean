import Mathlib

/-!
# Runs of a deterministic system

A system given by a step function `step : σ → ι → ρ × σ` (from a state and an input to an
output and the next state) runs over a list of inputs.  `trace step s is` lists the
transitions of that run, each with the state before it, its input, its output and the state
after it, and `final step s is` is the state it ends in.

Two induction principles over a run are proved once here:

* `mem_trace_invariant`: a property that holds initially and that every admitted step keeps
  holds before and after every transition (`final_invariant`: and at the end;
  `before_of_trace_eq`: up to the first transition that is not admitted);
* `trace_pairwise_le`: a quantity that no transition lowers is, along the run, never lower at a
  later transition than at an earlier one.

`exists_input_of_final` traces a property of the end state back to an input that made it.
-/

namespace NeonStorage

/-- One transition of a run: the state before, the input, the output and the state after. -/
structure Transition (σ ι ρ : Type) where
  before : σ
  input : ι
  output : ρ
  after : σ

variable {σ ι ρ : Type} (step : σ → ι → ρ × σ)

/-- The transitions of the run of `step` from `s` over the inputs `is`. -/
def trace : σ → List ι → List (Transition σ ι ρ)
  | _, [] => []
  | s, i :: is => ⟨s, i, (step s i).1, (step s i).2⟩ :: trace (step s i).2 is

@[simp] theorem trace_nil (s : σ) : trace step s [] = [] := rfl

@[simp] theorem trace_cons (s : σ) (i : ι) (is : List ι) :
    trace step s (i :: is) = ⟨s, i, (step s i).1, (step s i).2⟩ :: trace step (step s i).2 is :=
  rfl

/-- The state the run of `step` from `s` over the inputs `is` ends in. -/
def final : σ → List ι → σ
  | s, [] => s
  | s, i :: is => final (step s i).2 is

@[simp] theorem final_nil (s : σ) : final step s [] = s := rfl

@[simp] theorem final_cons (s : σ) (i : ι) (is : List ι) :
    final step s (i :: is) = final step (step s i).2 is := rfl

theorem final_append (s : σ) (is₁ is₂ : List ι) :
    final step s (is₁ ++ is₂) = final step (final step s is₁) is₂ := by
  induction is₁ generalizing s with
  | nil => rfl
  | cons i is ih => exact ih _

variable {step}

/-- The run lemma for invariants: a property of the start state that every admitted step keeps
holds before and after every transition of a run whose steps are all admitted. -/
theorem mem_trace_invariant (P : σ → Prop) (A : σ → ι → Prop)
    (hstep : ∀ s i, A s i → P s → P (step s i).2) :
    ∀ (s : σ) (is : List ι), P s → (∀ t ∈ trace step s is, A t.before t.input) →
      ∀ t ∈ trace step s is, P t.before ∧ P t.after := by
  intro s is
  induction is generalizing s with
  | nil => intro _ _ t ht; simp at ht
  | cons i is ih =>
    intro hs hadm t ht
    have hA : A s i := hadm ⟨s, i, (step s i).1, (step s i).2⟩ List.mem_cons_self
    have hs' : P (step s i).2 := hstep s i hA hs
    rw [trace_cons, List.mem_cons] at ht
    rcases ht with rfl | ht
    · exact ⟨hs, hs'⟩
    · exact ih _ hs' (fun t' ht' => hadm t' (by simp [ht'])) t ht

/-- The same rule for the state a run ends in. -/
theorem final_invariant (P : σ → Prop) (A : σ → ι → Prop)
    (hstep : ∀ s i, A s i → P s → P (step s i).2) :
    ∀ (s : σ) (is : List ι), P s → (∀ t ∈ trace step s is, A t.before t.input) →
      P (final step s is) := by
  intro s is
  induction is generalizing s with
  | nil => intro hs _; exact hs
  | cons i is ih =>
    intro hs hadm
    have hA : A s i := hadm ⟨s, i, (step s i).1, (step s i).2⟩ List.mem_cons_self
    exact ih _ (hstep s i hA hs) fun t' ht' => hadm t' (by simp [ht'])

/-- The same rule stopped at a transition: if every transition before `t` is admitted (here the
admission may read the transition's output), the property holds in the state `t` starts from. -/
theorem before_of_trace_eq (P : σ → Prop) (A : Transition σ ι ρ → Prop)
    (hstep : ∀ s i, A ⟨s, i, (step s i).1, (step s i).2⟩ → P s → P (step s i).2) :
    ∀ (s : σ) (is : List ι) (tr₁ tr₂ : List (Transition σ ι ρ)) (t : Transition σ ι ρ), P s →
      trace step s is = tr₁ ++ t :: tr₂ → (∀ t' ∈ tr₁, A t') → P t.before := by
  intro s is
  induction is generalizing s with
  | nil => intro tr₁ _ _ _ h; simp at h
  | cons i is ih =>
    intro tr₁ tr₂ t hs htr hadm
    rw [trace_cons] at htr
    cases tr₁ with
    | nil =>
      obtain ⟨rfl, -⟩ := List.cons.inj htr
      exact hs
    | cons t₀ tr₁ =>
      rw [List.cons_append, List.cons.injEq] at htr
      obtain ⟨rfl, htr⟩ := htr
      exact ih _ tr₁ tr₂ t (hstep s i (hadm _ List.mem_cons_self) hs) htr
        fun t' ht' => hadm t' (List.mem_cons_of_mem _ ht')

/-- A property that only the inputs satisfying `X` can bring about holds at the end of a run
only if it held at the start or one of the run's inputs satisfies `X`. -/
theorem exists_input_of_final (P : σ → Prop) (X : ι → Prop)
    (hstep : ∀ s i, P (step s i).2 → P s ∨ X i) :
    ∀ (s : σ) (is : List ι), P (final step s is) → P s ∨ ∃ i ∈ is, X i := by
  intro s is
  induction is generalizing s with
  | nil => intro h; exact .inl h
  | cons i is ih =>
    intro h
    rcases ih _ h with h' | ⟨i', hi', hx⟩
    · rcases hstep s i h' with h'' | hx
      · exact .inl h''
      · exact .inr ⟨i, List.mem_cons_self, hx⟩
    · exact .inr ⟨i', List.mem_cons_of_mem _ hi', hx⟩

/-- Every transition of a run is a step of the system from the state before it. -/
theorem mem_trace_step :
    ∀ (s : σ) (is : List ι), ∀ t ∈ trace step s is, step t.before t.input = (t.output, t.after) := by
  intro s is
  induction is generalizing s with
  | nil => intro t ht; simp at ht
  | cons i is ih =>
    intro t ht
    rw [trace_cons, List.mem_cons] at ht
    rcases ht with rfl | ht
    · rfl
    · exact ih _ t ht

/-- Along a run in which no transition lowers `f`, every later transition starts at least as
high as the state `s` the run starts from. -/
theorem le_before_of_mem_trace {β : Type} [Preorder β] (f : σ → β) :
    ∀ (s : σ) (is : List ι), (∀ t ∈ trace step s is, f t.before ≤ f t.after) →
      ∀ t ∈ trace step s is, f s ≤ f t.before := by
  intro s is
  induction is generalizing s with
  | nil => intro _ t ht; simp at ht
  | cons i is ih =>
    intro hmono t ht
    rw [trace_cons, List.mem_cons] at ht
    rcases ht with rfl | ht
    · exact le_rfl
    · have hfirst : f s ≤ f (step s i).2 :=
        hmono ⟨s, i, (step s i).1, (step s i).2⟩ List.mem_cons_self
      exact hfirst.trans (ih _ (fun t' ht' => hmono t' (by simp [ht'])) t ht)

/-- The run lemma for monotone quantities: if no transition lowers `f`, then of two
transitions of the run, the later one starts at least as high as the earlier one ends. -/
theorem trace_pairwise_le {β : Type} [Preorder β] (f : σ → β) :
    ∀ (s : σ) (is : List ι), (∀ t ∈ trace step s is, f t.before ≤ f t.after) →
      (trace step s is).Pairwise fun a b => f a.after ≤ f b.before := by
  intro s is
  induction is generalizing s with
  | nil => intro _; simp
  | cons i is ih =>
    intro hmono
    have hrest : ∀ t ∈ trace step (step s i).2 is, f t.before ≤ f t.after :=
      fun t ht => hmono t (by simp [ht])
    rw [trace_cons, List.pairwise_cons]
    exact ⟨le_before_of_mem_trace f _ is hrest, ih _ hrest⟩

end NeonStorage

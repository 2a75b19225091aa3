import Mathlib

/-!
# Programs of `EStateM` and what they guarantee

A method that takes `&mut self` and returns early with `?` keeps every change it made before
the early return.  `EStateM ε σ` has exactly this semantics: a run ends with a value or with an
error, and with a state in both cases.  This file adds

* `EStateM.Result.state` and `EStateM.Result.value`, the two halves of a run's result;
* `EStateM.focus`, which runs a program on one field of a larger state, as a method call on a
  field does;
* `EStateM.Keeps`, a rely-guarantee statement about one run from one state, with rules that
  follow the shape of a `do` block, so that a proof about a program goes through it bind by
  bind and keeps what each step learned about the state.

It starts with the rules of `Except` that core lacks, `Except.ok_bind` and the inversions
`Except.exists_of_bind_eq_ok` and `Except.exists_of_map_eq_ok`.
-/

theorem Except.ok_bind {ε α β : Type} (a : α) (f : α → Except ε β) :
    (Except.ok a >>= f) = f a := rfl

/-- A bind that succeeds ran its first computation to a value. -/
theorem Except.exists_of_bind_eq_ok {ε α β : Type} {x : Except ε α} {f : α → Except ε β} {b : β}
    (h : (x >>= f) = .ok b) : ∃ a, x = .ok a ∧ f a = .ok b := by
  cases x with
  | error e => cases h
  | ok a => exact ⟨a, rfl, h⟩

/-- A map that succeeds was applied to a value. -/
theorem Except.exists_of_map_eq_ok {ε α β : Type} {x : Except ε α} {g : α → β} {b : β}
    (h : (g <$> x) = .ok b) : ∃ a, x = .ok a ∧ g a = b := by
  cases x with
  | error e => cases h
  | ok a =>
    cases h
    exact ⟨a, rfl, rfl⟩

namespace EStateM

variable {ε σ τ α β : Type}

/-- The state a run ends in, with a value or with an error. -/
def Result.state : Result ε σ α → σ
  | .ok _ s => s
  | .error _ s => s

/-- What a run returns: its value or its error. -/
def Result.value : Result ε σ α → Except ε α
  | .ok a _ => .ok a
  | .error e _ => .error e

@[simp] theorem Result.state_ok (a : α) (s : σ) : (Result.ok a s : Result ε σ α).state = s := rfl

@[simp] theorem Result.state_error (e : ε) (s : σ) :
    (Result.error e s : Result ε σ α).state = s := rfl

@[simp] theorem Result.value_ok (a : α) (s : σ) :
    (Result.ok a s : Result ε σ α).value = .ok a := rfl

@[simp] theorem Result.value_error (e : ε) (s : σ) :
    (Result.error e s : Result ε σ α).value = .error e := rfl

/-- Run `x` on the part `view s` of the state and store the part it ends with by `update`,
whether it returns or fails. -/
def focus (view : σ → τ) (update : σ → τ → σ) (x : EStateM ε τ α) : EStateM ε σ α := fun s =>
  match x (view s) with
  | .ok a t => .ok a (update s t)
  | .error e t => .error e (update s t)

@[simp] theorem focus_state (view : σ → τ) (update : σ → τ → σ) (x : EStateM ε τ α) (s : σ) :
    (focus view update x s).state = update s (x (view s)).state := by
  cases h : x (view s) <;> simp [focus, h]

theorem focus_eq_error {view : σ → τ} {update : σ → τ → σ} {x : EStateM ε τ α} {s s' : σ}
    {e : ε} (h : focus view update x s = .error e s') : ∃ t, x (view s) = .error e t := by
  cases hx : x (view s) with
  | ok a t => simp [focus, hx] at h
  | error e' t => simp only [focus, hx, Result.error.injEq] at h; exact ⟨t, h.1 ▸ rfl⟩

theorem bind_apply_ok {x : EStateM ε σ α} {f : α → EStateM ε σ β} {s s' : σ} {a : α}
    (h : x s = .ok a s') : (x >>= f) s = f a s' := by
  show EStateM.bind x f s = _
  simp only [EStateM.bind, h]

theorem bind_apply_error {x : EStateM ε σ α} {f : α → EStateM ε σ β} {s s' : σ} {e : ε}
    (h : x s = .error e s') : (x >>= f) s = .error e s' := by
  show EStateM.bind x f s = _
  simp only [EStateM.bind, h]

/-- A bind runs its first program and goes on from the state that one ends in. -/
theorem bind_apply (x : EStateM ε σ α) (f : α → EStateM ε σ β) (s : σ) :
    (x >>= f) s = match x s with
      | .ok a s' => f a s'
      | .error e s' => .error e s' := rfl

/-! ## Running a program one construct at a time -/

theorem get_apply (s : σ) : (get : EStateM ε σ σ) s = .ok s s := rfl

theorem map_apply (f : α → β) (x : EStateM ε σ α) (s : σ) :
    (f <$> x) s = match x s with
      | .ok a s' => .ok (f a) s'
      | .error e s' => .error e s' := rfl

@[simp] theorem pure_apply (a : α) (s : σ) : (pure a : EStateM ε σ α) s = .ok a s := rfl

@[simp] theorem throw_apply (e : ε) (s : σ) : (throw e : EStateM ε σ α) s = .error e s := rfl

@[simp] theorem set_apply (s' s : σ) : (set s' : EStateM ε σ PUnit) s = .ok ⟨⟩ s' := rfl

@[simp] theorem modify_apply (g : σ → σ) (s : σ) :
    (modify g : EStateM ε σ PUnit) s = .ok ⟨⟩ (g s) := rfl

@[simp] theorem get_bind_apply (f : σ → EStateM ε σ β) (s : σ) : (get >>= f) s = f s s := rfl

@[simp] theorem pure_bind_apply (a : α) (f : α → EStateM ε σ β) (s : σ) :
    (pure a >>= f) s = f a s := rfl

@[simp] theorem throw_bind_apply (e : ε) (f : α → EStateM ε σ β) (s : σ) :
    (throw e >>= f) s = .error e s := rfl

@[simp] theorem set_bind_apply (s' : σ) (f : PUnit → EStateM ε σ β) (s : σ) :
    (set s' >>= f) s = f ⟨⟩ s' := rfl

@[simp] theorem modify_bind_apply (g : σ → σ) (f : PUnit → EStateM ε σ β) (s : σ) :
    (modify g >>= f) s = f ⟨⟩ (g s) := rfl

@[simp] theorem ofExcept_ok_bind_apply (a : α) (f : α → EStateM ε σ β) (s : σ) :
    (MonadExcept.ofExcept (.ok a) >>= f) s = f a s := rfl

section Keeps

variable (I : σ → Prop) (R : σ → σ → Prop) (E : ε → Prop)

/-- Started in `s` with `I s`, the program `x` ends in a state `s'` with `I s'` and `R s s'`;
a value it returns satisfies `Q` with the end state, and an error it fails with satisfies
`E`. -/
def Keeps (Q : α → σ → Prop) (x : EStateM ε σ α) (s : σ) : Prop :=
  I s →
    match x s with
    | .ok a s' => I s' ∧ R s s' ∧ Q a s'
    | .error e s' => I s' ∧ R s s' ∧ E e

variable {I R E}

/-- A run that keeps `I`, `R` and `E` and returns whatever value. -/
abbrev Keeps' (I : σ → Prop) (R : σ → σ → Prop) (E : ε → Prop) (x : EStateM ε σ α) (s : σ) :
    Prop :=
  Keeps I R E (fun _ _ => True) x s

theorem Keeps.of_result {Q : α → σ → Prop} {x : EStateM ε σ α} {s : σ}
    (h : I s → I (x s).state ∧ R s (x s).state ∧ (∀ a s', x s = .ok a s' → Q a s') ∧
      ∀ e s', x s = .error e s' → E e) :
    Keeps I R E Q x s := by
  intro hs
  obtain ⟨hI, hR, hQ, hE⟩ := h hs
  cases hx : x s with
  | ok a s' => rw [hx] at hI hR; exact ⟨hI, hR, hQ a s' hx⟩
  | error e s' => rw [hx] at hI hR; exact ⟨hI, hR, hE e s' hx⟩

/-- What a `Keeps` statement says about the result of the run. -/
theorem Keeps.result {Q : α → σ → Prop} {x : EStateM ε σ α} {s : σ} (h : Keeps I R E Q x s)
    (hs : I s) :
    I (x s).state ∧ R s (x s).state ∧ (∀ a, (x s).value = .ok a → Q a (x s).state) ∧
      ∀ e, (x s).value = .error e → E e := by
  have h := h hs
  cases hx : x s with
  | ok a s' =>
    simp only [hx] at h
    refine ⟨h.1, h.2.1, fun a' ha => ?_, fun e he => ?_⟩
    · simp only [Result.value_ok, Except.ok.injEq] at ha
      exact ha ▸ h.2.2
    · simp at he
  | error e s' =>
    simp only [hx] at h
    refine ⟨h.1, h.2.1, fun a ha => ?_, fun e' he => ?_⟩
    · simp at ha
    · simp only [Result.value_error, Except.error.injEq] at he
      exact he ▸ h.2.2

theorem keeps_get_bind {Q : β → σ → Prop} {f : σ → EStateM ε σ β} {s : σ}
    (h : Keeps I R E Q (f s) s) : Keeps I R E Q (get >>= f) s :=
  h

theorem keeps_pure_bind {Q : β → σ → Prop} {a : α} {f : α → EStateM ε σ β} {s : σ}
    (h : Keeps I R E Q (f a) s) : Keeps I R E Q (pure a >>= f) s :=
  h

theorem keeps_set {s' s : σ} (hs' : I s → I s' ∧ R s s') : Keeps' I R E (set s') s :=
  fun hs => ⟨(hs' hs).1, (hs' hs).2, trivial⟩

theorem keeps_ite {Q : α → σ → Prop} {c : Prop} [Decidable c] {x y : EStateM ε σ α} {s : σ}
    (hx : c → Keeps I R E Q x s) (hy : ¬c → Keeps I R E Q y s) :
    Keeps I R E Q (if c then x else y) s := by
  split
  · exact hx ‹c›
  · exact hy ‹¬c›

variable [IsPreorder σ R]

theorem keeps_pure {Q : α → σ → Prop} {a : α} {s : σ} (h : Q a s) :
    Keeps I R E Q (pure a) s :=
  fun hs => ⟨hs, refl_of R s, h⟩

/-- The rule of sequence: the continuation is run from the state the first program ends in,
and may use what that program returned. -/
theorem keeps_bind {Q' : α → σ → Prop} {Q : β → σ → Prop} {x : EStateM ε σ α}
    {f : α → EStateM ε σ β} {s : σ} (hx : Keeps I R E Q' x s)
    (hf : ∀ a s', x s = .ok a s' → Q' a s' → Keeps I R E Q (f a) s') :
    Keeps I R E Q (x >>= f) s := by
  intro hs
  have hx := hx hs
  cases hxs : x s with
  | ok a s₁ =>
    rw [hxs] at hx
    obtain ⟨hI₁, hR₁, hQ₁⟩ := hx
    have hf := hf a s₁ hxs hQ₁ hI₁
    rw [bind_apply_ok hxs]
    split at hf
    · exact ⟨hf.1, trans_of R hR₁ hf.2.1, hf.2.2⟩
    · exact ⟨hf.1, trans_of R hR₁ hf.2.1, hf.2.2⟩
  | error e s₁ =>
    rw [hxs] at hx
    rw [bind_apply_error hxs]
    exact hx

theorem keeps_throw_bind {Q : β → σ → Prop} {e : ε} {f : α → EStateM ε σ β} {s : σ}
    (he : E e) : Keeps I R E Q (throw e >>= f) s :=
  fun hs => ⟨hs, refl_of R s, he⟩

/-- A check that fails with `e` when `c` holds: the check is passed, or `e` is an error the
guarantee allows. -/
theorem keeps_throwIf_bind {Q : β → σ → Prop} {c : Prop} [Decidable c] {e : ε}
    {f : PUnit → EStateM ε σ β} {s : σ} (he : c → I s → E e)
    (hf : ¬c → Keeps I R E Q (f ⟨⟩) s) :
    Keeps I R E Q ((if c then throw e else pure ⟨⟩) >>= f) s := by
  split
  · exact fun hs => ⟨hs, refl_of R s, he ‹c› hs⟩
  · exact hf ‹¬c›

theorem keeps_set_bind {Q : β → σ → Prop} {s' : σ} {f : PUnit → EStateM ε σ β} {s : σ}
    (hs' : I s → I s' ∧ R s s') (h : Keeps I R E Q (f ⟨⟩) s') :
    Keeps I R E Q (set s' >>= f) s :=
  keeps_bind (keeps_set hs') (fun _ _ hx _ => by cases hx; exact h)

theorem keeps_modify_bind {Q : β → σ → Prop} {g : σ → σ} {f : PUnit → EStateM ε σ β} {s : σ}
    (hg : I s → I (g s) ∧ R s (g s)) (h : Keeps I R E Q (f ⟨⟩) (g s)) :
    Keeps I R E Q (modify g >>= f) s :=
  keeps_set_bind hg h

end Keeps

end EStateM

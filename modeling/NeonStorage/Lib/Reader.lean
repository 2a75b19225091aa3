import Mathlib
import NeonStorage.Lib.Bytes

/-!
# Readers of a buffer

A decoder that takes values off the front of a buffer and may fail is a state computation over
what is left of the buffer: `Reader ε τ α` is `StateT (List τ) (Except ε) α`.  This file gives
the primitive reads (`take`, the check `ensure` on what remains, fixed-width integers, and
`repeatN` and `repeatVec` for a counted loop) with the equations that run them, and two
judgements.  The first, `Reads p u a`, says that

* followed by anything, `u` makes `p` return `a` and leave exactly what follows;
* cut short, `u` makes `p` fail.

It has one rule for each way a decoder is put together (`Reads.pure`, `Reads.bind`,
`Reads.take`, `Reads.ensure_bind`, `Reads.repeatN`).  A decoder and the encoder it inverts are
thus related field by field, and the failure of the decoder on every truncated encoding comes
out of the same proof.

The second, `FailsIn S n p`, says that on a buffer of at least `n` elements `p` fails only with
errors in `S`.  Its rules let a check on what remains (`ensure`) pay for the reads after it, so
that a decoder whose reads would panic on a short buffer is shown never to reach them.  Nothing
here refers to the repository.
-/

namespace NeonStorage

/-- A computation that reads from the front of a buffer of `τ`s and may fail with an `ε`. -/
abbrev Reader (ε τ α : Type) := StateT (List τ) (Except ε) α

namespace Reader

variable {ε τ α β : Type}

/-- Take the next `n` elements, failing with `e` when fewer remain. -/
def take (e : ε) (n : Nat) : Reader ε τ (List τ) := fun buf =>
  if n ≤ buf.length then .ok (buf.take n, buf.drop n) else .error e

/-- Fail with `e` when fewer than `n` elements remain; consume nothing. -/
def ensure (e : ε) (n : Nat) : Reader ε τ Unit := fun buf =>
  if buf.length < n then .error e else .ok ((), buf)

/-- Run `p` `n` times and collect what it returns, in order. -/
def repeatN (p : Reader ε τ α) : Nat → Reader ε τ (List α)
  | 0 => pure []
  | n + 1 => do
    let a ← p
    let as ← repeatN p n
    pure (a :: as)

/-- Run `p` `n` times and collect what it returns into an array of length `n`. -/
def repeatVec (p : Reader ε τ α) : (n : Nat) → Reader ε τ (List.Vector α n)
  | 0 => pure List.Vector.nil
  | n + 1 => do
    let a ← p
    let as ← repeatVec p n
    pure (List.Vector.cons a as)

/-- An `n`-byte integer, least significant byte first. -/
def le (e : ε) (n : Nat) : Reader ε UInt8 Nat := do
  let bs ← take e n
  pure (Bytes.ofLeBytes bs)

/-- An `n`-byte integer, most significant byte first. -/
def be (e : ε) (n : Nat) : Reader ε UInt8 Nat := do
  let bs ← take e n
  pure (Bytes.ofBeBytes bs)

/-! ## Running a reader -/

/-- A bind runs its first reader and goes on with the rest of the buffer. -/
theorem bind_apply (x : Reader ε τ α) (f : α → Reader ε τ β) (buf : List τ) :
    (x >>= f) buf = match x buf with
      | .ok (a, rest) => f a rest
      | .error e => .error e := by
  show StateT.bind x f buf = _
  unfold StateT.bind
  cases x buf <;> rfl

theorem bind_apply_ok {x : Reader ε τ α} {buf rest : List τ} {a : α} (h : x buf = .ok (a, rest))
    (f : α → Reader ε τ β) : (x >>= f) buf = f a rest := by
  rw [bind_apply, h]

theorem bind_apply_error {x : Reader ε τ α} {buf : List τ} {e : ε} (h : x buf = .error e)
    (f : α → Reader ε τ β) : (x >>= f) buf = .error e := by
  rw [bind_apply, h]

@[simp] theorem pure_apply (a : α) (buf : List τ) : (pure a : Reader ε τ α) buf = .ok (a, buf) :=
  rfl

theorem take_of_le {n : Nat} {buf : List τ} (h : n ≤ buf.length) (e : ε) :
    take e n buf = .ok (buf.take n, buf.drop n) := by
  simp [take, h]

theorem take_of_lt {n : Nat} {buf : List τ} (h : buf.length < n) (e : ε) :
    take e n buf = .error e := by
  simp [take, not_le.mpr h]

/-- Taking as many elements as a prefix has gives the prefix. -/
theorem take_append {n : Nat} {bs : List τ} (h : bs.length = n) (e : ε) (rest : List τ) :
    take e n (bs ++ rest) = .ok (bs, rest) := by
  subst h
  simp [take]

theorem ensure_of_le {n : Nat} {buf : List τ} (h : n ≤ buf.length) (e : ε) :
    ensure e n buf = .ok ((), buf) := by
  simp [ensure, not_lt.mpr h]

theorem ensure_of_lt {n : Nat} {buf : List τ} (h : buf.length < n) (e : ε) :
    ensure e n buf = .error e := by
  simp [ensure, h]

/-! ## Reading exactly a prefix -/

/-- `p` reads exactly `u` and returns `a`. -/
structure Reads (p : Reader ε τ α) (u : List τ) (a : α) : Prop where
  /-- Followed by anything, `u` makes `p` return `a` and leave what follows. -/
  append : ∀ rest, p (u ++ rest) = .ok (a, rest)
  /-- Cut short, `u` makes `p` fail. -/
  truncated : ∀ k < u.length, ∃ e, p (u.take k) = .error e

theorem Reads.run {p : Reader ε τ α} {u : List τ} {a : α} (h : Reads p u a) :
    p u = .ok (a, []) := by
  simpa using h.append []

theorem Reads.run' {p : Reader ε τ α} {u : List τ} {a : α} (h : Reads p u a) :
    p.run' u = .ok a := by
  show Prod.fst <$> p u = _
  rw [h.run]
  rfl

/-- A reader that reads exactly `u` hands what follows to the rest of a bind. -/
theorem Reads.bind_apply {p : Reader ε τ α} {u : List τ} {a : α} (hp : Reads p u a)
    (f : α → Reader ε τ β) (v : List τ) : (p >>= f) (u ++ v) = f a v :=
  bind_apply_ok (hp.append v) f

theorem Reads.bind_run {p : Reader ε τ α} {f : α → Reader ε τ β} {u v : List τ} {a : α}
    {r : Except ε (β × List τ)} (hp : Reads p u a) (hf : f a v = r) : (p >>= f) (u ++ v) = r := by
  rw [hp.bind_apply, hf]

/-- The same, for a reader that reads the whole buffer. -/
theorem Reads.bind_run_end {p : Reader ε τ α} {f : α → Reader ε τ β} {u : List τ} {a : α}
    {r : Except ε (β × List τ)} (hp : Reads p u a) (hf : f a [] = r) : (p >>= f) u = r := by
  rw [← List.append_nil u]
  exact hp.bind_run hf

theorem run'_eq_ok {p : Reader ε τ α} {buf rest : List τ} {a : α} (h : p buf = .ok (a, rest)) :
    p.run' buf = .ok a := by
  show Prod.fst <$> p buf = _
  rw [h]
  rfl

theorem run'_of_error {p : Reader ε τ α} {buf : List τ} {e : ε} (h : p buf = .error e) :
    p.run' buf = .error e := by
  show Prod.fst <$> p buf = _
  rw [h]
  rfl

theorem run'_eq_error {p : Reader ε τ α} {buf : List τ} {e : ε} (h : p.run' buf = .error e) :
    p buf = .error e := by
  change Prod.fst <$> p buf = _ at h
  cases hp : p buf with
  | ok r =>
    rw [hp] at h
    cases h
  | error e' =>
    rw [hp] at h
    cases h
    rfl

theorem Reads.pure (a : α) : Reads (pure a : Reader ε τ α) [] a where
  append _ := rfl
  truncated k hk := absurd hk (Nat.not_lt_zero k)

/-- A bind reads what its first reader reads and then what the second one reads. -/
theorem Reads.bind {p : Reader ε τ α} {f : α → Reader ε τ β} {u v : List τ} {a : α} {b : β}
    (hp : Reads p u a) (hf : Reads (f a) v b) : Reads (p >>= f) (u ++ v) b where
  append rest := by
    rw [List.append_assoc, bind_apply_ok (hp.append (v ++ rest)), hf.append]
  truncated k hk := by
    by_cases hku : k ≤ u.length
    · -- the cut falls inside what `p` reads, or right after it
      rcases Nat.lt_or_eq_of_le hku with hlt | heq
      · obtain ⟨e, he⟩ := hp.truncated k hlt
        rw [List.take_append_of_le_length hku] at *
        exact ⟨e, bind_apply_error he f⟩
      · subst heq
        have hv : 0 < v.length := by simp at hk; omega
        obtain ⟨e, he⟩ := hf.truncated 0 hv
        refine ⟨e, ?_⟩
        rw [List.take_left, ← List.append_nil u, bind_apply_ok (hp.append [])]
        simpa using he
    · -- the cut falls inside what `f a` reads
      have hk' : k - u.length < v.length := by simp at hk; omega
      obtain ⟨e, he⟩ := hf.truncated (k - u.length) hk'
      refine ⟨e, ?_⟩
      rw [List.take_append, List.take_of_length_le (by omega),
        bind_apply_ok (hp.append _), he]

theorem Reads.take {bs : List τ} {n : Nat} (h : bs.length = n) (e : ε) :
    Reads (take e n) bs bs where
  append rest := take_append h e rest
  truncated k hk := ⟨e, take_of_lt (by simp; omega) e⟩

/-- A check that at least `n` elements remain does not change what a reader of at least `n`
elements reads. -/
theorem Reads.ensure_bind {p : Reader ε τ α} {u : List τ} {a : α} (hp : Reads p u a) {n : Nat}
    (hn : n ≤ u.length) (e : ε) : Reads (ensure e n >>= fun _ => p) u a where
  append rest := by
    rw [bind_apply_ok (ensure_of_le (by simp; omega) e), hp.append]
  truncated k hk := by
    by_cases hkn : k < n
    · exact ⟨e, bind_apply_error (ensure_of_lt (by simp; omega) e) _⟩
    · obtain ⟨e', he'⟩ := hp.truncated k hk
      exact ⟨e', by rw [bind_apply_ok (ensure_of_le (by simp; omega) e), he']⟩

/-- A reader followed by a function of its value reads what the reader reads. -/
theorem Reads.bind_pure {p : Reader ε τ α} {u : List τ} {a : α} (hp : Reads p u a) (g : α → β) :
    Reads (p >>= fun x => Pure.pure (g x)) u (g a) := by
  have h : Reads (p >>= fun x => Pure.pure (g x)) (u ++ []) (g a) := hp.bind (Reads.pure (g a))
  simpa using h

theorem Reads.le (e : ε) (n v : Nat) : Reads (le e n) (Bytes.leBytes n v) (v % 256 ^ n) := by
  have hr := (Reads.take (Bytes.length_leBytes n v) e).bind_pure Bytes.ofLeBytes
  rwa [Bytes.ofLeBytes_leBytes] at hr

theorem Reads.be (e : ε) (n v : Nat) : Reads (be e n) (Bytes.beBytes n v) (v % 256 ^ n) := by
  have hr := (Reads.take (Bytes.length_beBytes n v) e).bind_pure Bytes.ofBeBytes
  rwa [Bytes.ofBeBytes_beBytes] at hr

theorem Reads.le_of_lt {v n : Nat} (h : v < 256 ^ n) (e : ε) :
    Reads (Reader.le e n) (Bytes.leBytes n v) v := by
  have hr := (Reads.take (Bytes.length_leBytes n v) e).bind_pure Bytes.ofLeBytes
  rwa [Bytes.ofLeBytes_leBytes_of_lt h] at hr

/-- A counted loop over the encodings of some values reads them, one after the other. -/
theorem Reads.repeatN {p : Reader ε τ α} {val : β → α} {enc : β → List τ} :
    ∀ (l : List β), (∀ b ∈ l, Reads p (enc b) (val b)) → ∀ {n : Nat}, l.length = n →
      Reads (Reader.repeatN p n) (l.map enc).flatten (l.map val)
  | [], _, _, hn => by
    subst hn
    exact Reads.pure []
  | b :: l, h, _, hn => by
    subst hn
    have hl := Reads.repeatN l (fun c hc => h c (List.mem_cons_of_mem b hc)) rfl
    have hcons : Reads (p >>= fun a => Reader.repeatN p l.length >>= fun as =>
        Pure.pure (a :: as)) (enc b ++ (l.map enc).flatten) (val b :: l.map val) :=
      (h b List.mem_cons_self).bind (hl.bind_pure (List.cons (val b)))
    exact hcons

/-- The same loop into an array: the array holds the values. -/
theorem Reads.repeatVec {p : Reader ε τ α} {val : β → α} {enc : β → List τ} :
    ∀ (l : List β), (∀ b ∈ l, Reads p (enc b) (val b)) → ∀ {n : Nat}, l.length = n →
      ∃ v : List.Vector α n, v.toList = l.map val ∧
        Reads (Reader.repeatVec p n) (l.map enc).flatten v
  | [], _, _, hn => by
    subst hn
    exact ⟨List.Vector.nil, rfl, Reads.pure _⟩
  | b :: l, h, _, hn => by
    subst hn
    obtain ⟨v, hv, hl⟩ := Reads.repeatVec l (fun c hc => h c (List.mem_cons_of_mem b hc)) rfl
    refine ⟨List.Vector.cons (val b) v, by simp [hv], ?_⟩
    have hcons : Reads (p >>= fun a => Reader.repeatVec p l.length >>= fun as =>
        Pure.pure (List.Vector.cons a as)) (enc b ++ (l.map enc).flatten)
        (List.Vector.cons (val b) v) :=
      (h b List.mem_cons_self).bind (hl.bind_pure (List.Vector.cons (val b)))
    exact hcons

/-! ## Readers that fail only in some ways -/

/-- On a buffer of at least `n` elements, `p` fails only with errors in `S`. -/
def FailsIn (S : ε → Prop) (n : Nat) (p : Reader ε τ α) : Prop :=
  ∀ buf : List τ, n ≤ buf.length → ∀ e, p buf = .error e → S e

variable {S : ε → Prop}

theorem FailsIn.mono {m n : Nat} {p : Reader ε τ α} (h : FailsIn S m p) (hmn : m ≤ n) :
    FailsIn S n p :=
  fun buf hbuf => h buf (le_trans hmn hbuf)

theorem FailsIn.pure (n : Nat) (a : α) : FailsIn S n (Pure.pure a : Reader ε τ α) := by
  intro buf _ e h
  cases h

theorem FailsIn.throw {e : ε} (he : S e) (n : Nat) : FailsIn S n (throw e : Reader ε τ α) := by
  intro buf _ e' h
  cases h
  exact he

theorem FailsIn.take {e : ε} (he : S e) (n m : Nat) : FailsIn S n (take e m : Reader ε τ _) := by
  intro buf _ e' h
  unfold Reader.take at h
  split at h
  · cases h
  · cases h
    exact he

/-- A bind fails only as its parts do, whatever the buffer. -/
theorem FailsIn.bind {p : Reader ε τ α} {f : α → Reader ε τ β} (hp : FailsIn S 0 p)
    (hf : ∀ a, FailsIn S 0 (f a)) (n : Nat) : FailsIn S n (p >>= f) := by
  intro buf _ e h
  rw [bind_apply] at h
  cases hx : p buf with
  | ok r =>
    rw [hx] at h
    exact hf r.1 r.2 (Nat.zero_le _) e h
  | error e' =>
    rw [hx] at h
    cases h
    exact hp buf (Nat.zero_le _) _ hx

theorem FailsIn.ite {c : Prop} [Decidable c] {p q : Reader ε τ α} {n : Nat}
    (hp : c → FailsIn S n p) (hq : ¬c → FailsIn S n q) : FailsIn S n (if c then p else q) := by
  by_cases hc : c
  · rw [if_pos hc]
    exact hp hc
  · rw [if_neg hc]
    exact hq hc

/-- A check that `n` elements remain makes the reader after it run on at least `n`. -/
theorem FailsIn.ensure_bind {e : ε} (he : S e) {n : Nat} {p : Reader ε τ α}
    (hp : FailsIn S n p) (m : Nat) : FailsIn S m (ensure e n >>= fun _ => p) := by
  intro buf _ e' h
  by_cases hn : buf.length < n
  · rw [bind_apply_error (ensure_of_lt hn e)] at h
    cases h
    exact he
  · rw [bind_apply_ok (ensure_of_le (not_lt.mp hn) e)] at h
    exact hp buf (not_lt.mp hn) e' h

/-- A read of `m ≤ n` elements from a buffer of at least `n` succeeds and leaves `n - m`. -/
theorem FailsIn.take_bind {e : ε} {m n : Nat} (hmn : m ≤ n) {f : List τ → Reader ε τ β}
    (hf : ∀ bs, FailsIn S (n - m) (f bs)) : FailsIn S n (Reader.take e m >>= f) := by
  intro buf hbuf e' h
  rw [bind_apply_ok (take_of_le (le_trans hmn hbuf) e)] at h
  exact hf _ _ (by simp; omega) e' h

theorem FailsIn.le_bind {e : ε} {m n : Nat} (hmn : m ≤ n) {f : Nat → Reader ε UInt8 β}
    (hf : ∀ v, FailsIn S (n - m) (f v)) : FailsIn S n (le e m >>= f) := by
  rw [le, bind_assoc]
  exact FailsIn.take_bind hmn (fun bs => by simpa using hf (Bytes.ofLeBytes bs))

theorem FailsIn.le {e : ε} (he : S e) (n m : Nat) : FailsIn S n (le e m) :=
  FailsIn.bind (FailsIn.take he 0 m) (fun _ => FailsIn.pure 0 _) n

theorem FailsIn.be {e : ε} (he : S e) (n m : Nat) : FailsIn S n (be e m) :=
  FailsIn.bind (FailsIn.take he 0 m) (fun _ => FailsIn.pure 0 _) n

theorem FailsIn.repeatN {p : Reader ε τ α} (hp : FailsIn S 0 p) :
    ∀ k, FailsIn S 0 (Reader.repeatN p k)
  | 0 => FailsIn.pure 0 []
  | k + 1 => FailsIn.bind hp (fun _ => FailsIn.bind (FailsIn.repeatN hp k)
      (fun _ => FailsIn.pure 0 _) 0) 0

end Reader

end NeonStorage

import Mathlib

/-!
# Finite maps as strictly sorted association lists

The ordered maps of the Rust standard library (`BTreeMap`) and of `rpds`
(`RedBlackTreeMap`) are used through a small interface: the last entry at or below a
key (`range(..=k).next_back()`), the entries of a half-open key range, insertion that
replaces an existing entry, removal, and truncation at a key (`split_off`).  This file
models such a map as a list of entries sorted strictly by key and proves what the
operations do to the entry list and to the step function `lastValLE` that reads the
value in force at a key.  Nothing here refers to the pageserver.
-/

namespace NeonStorage

/-- A finite map whose entries are kept in strictly increasing key order. -/
structure SortedMap (κ : Type) (ν : Type) [LinearOrder κ] where
  entries : List (κ × ν)
  sorted : entries.Pairwise (fun a b => a.1 < b.1)

namespace SortedMap

variable {κ ν : Type} [LinearOrder κ]

/-! ## Entry lists -/

/-- The value of the last entry with key at most `x`, or `d` when there is none. -/
def lastValLE (x : κ) (d : ν) : List (κ × ν) → ν
  | [] => d
  | e :: rest => if e.1 ≤ x then lastValLE x e.2 rest else lastValLE x d rest

/-- Insertion into a sorted entry list, replacing the entry with the same key. -/
def insertList (k : κ) (v : ν) : List (κ × ν) → List (κ × ν)
  | [] => [(k, v)]
  | e :: rest =>
    if k < e.1 then (k, v) :: e :: rest
    else if k = e.1 then (k, v) :: rest
    else e :: insertList k v rest

@[simp] theorem lastValLE_nil (x : κ) (d : ν) : lastValLE x d [] = d := rfl

theorem lastValLE_cons (x : κ) (d : ν) (e : κ × ν) (rest : List (κ × ν)) :
    lastValLE x d (e :: rest) = if e.1 ≤ x then lastValLE x e.2 rest else lastValLE x d rest :=
  rfl

theorem lastValLE_append (x : κ) (d : ν) (l₁ l₂ : List (κ × ν)) :
    lastValLE x d (l₁ ++ l₂) = lastValLE x (lastValLE x d l₁) l₂ := by
  induction l₁ generalizing d with
  | nil => rfl
  | cons e rest ih =>
    simp only [List.cons_append, lastValLE_cons]
    split <;> exact ih _

/-- Entries above the key do not change the value in force there. -/
theorem lastValLE_of_forall_lt {x : κ} {l : List (κ × ν)} (h : ∀ e ∈ l, x < e.1) (d : ν) :
    lastValLE x d l = d := by
  induction l with
  | nil => rfl
  | cons e rest ih =>
    have he : ¬ e.1 ≤ x := not_le.mpr (h e (by simp))
    rw [lastValLE_cons, if_neg he]
    exact ih (fun e' h' => h e' (by simp [h']))

theorem lastValLE_append_of_forall_lt {x : κ} {l₂ : List (κ × ν)} (h : ∀ e ∈ l₂, x < e.1)
    (d : ν) (l₁ : List (κ × ν)) : lastValLE x d (l₁ ++ l₂) = lastValLE x d l₁ := by
  rw [lastValLE_append, lastValLE_of_forall_lt h]

/-- An entry at or below the key hides every default before it. -/
theorem lastValLE_cons_of_le {x : κ} {e : κ × ν} (h : e.1 ≤ x) (rest : List (κ × ν))
    (d : ν) : lastValLE x d (e :: rest) = lastValLE x e.2 rest := by
  rw [lastValLE_cons, if_pos h]

theorem mem_insertList {k : κ} {v : ν} {l : List (κ × ν)} {e : κ × ν}
    (h : e ∈ insertList k v l) : e = (k, v) ∨ e ∈ l := by
  induction l with
  | nil => simpa [insertList] using h
  | cons e' rest ih =>
    simp only [insertList] at h
    split at h
    · simpa using h
    · split at h
      · rcases List.mem_cons.mp h with rfl | h'
        · exact Or.inl rfl
        · exact Or.inr (List.mem_cons_of_mem _ h')
      · rcases List.mem_cons.mp h with rfl | h'
        · exact Or.inr (List.mem_cons_self ..)
        · rcases ih h' with h'' | h''
          · exact Or.inl h''
          · exact Or.inr (List.mem_cons_of_mem _ h'')

theorem sorted_insertList (k : κ) (v : ν) {l : List (κ × ν)}
    (hl : l.Pairwise (fun a b => a.1 < b.1)) :
    (insertList k v l).Pairwise (fun a b => a.1 < b.1) := by
  induction l with
  | nil => simp [insertList]
  | cons e rest ih =>
    rw [List.pairwise_cons] at hl
    simp only [insertList]
    split
    · next hlt =>
      refine List.Pairwise.cons (fun a ha => ?_) (List.Pairwise.cons hl.1 hl.2)
      rcases List.mem_cons.mp ha with rfl | ha
      · exact hlt
      · exact lt_trans hlt (hl.1 a ha)
    · split
      · next heq =>
        refine List.Pairwise.cons (fun a ha => ?_) hl.2
        simpa [heq] using hl.1 a ha
      · next hlt hne =>
        refine List.Pairwise.cons (fun a ha => ?_) (ih hl.2)
        rcases mem_insertList ha with rfl | ha
        · exact lt_of_le_of_ne (not_lt.mp hlt) (Ne.symm hne)
        · exact hl.1 a ha

/-- In a sorted list an entry is the only one with its key. -/
theorem eq_of_mem_of_fst_eq {l : List (κ × ν)} (hl : l.Pairwise (fun a b => a.1 < b.1))
    {e e' : κ × ν} (he : e ∈ l) (he' : e' ∈ l) (h : e.1 = e'.1) : e = e' := by
  induction l with
  | nil => simp at he
  | cons a rest ih =>
    rw [List.pairwise_cons] at hl
    rcases List.mem_cons.mp he with h1 | h1 <;> rcases List.mem_cons.mp he' with h2 | h2
    · rw [h1, h2]
    · exact absurd (h1 ▸ h) (ne_of_lt (hl.1 e' h2))
    · exact absurd (h2 ▸ h.symm) (ne_of_lt (hl.1 e h1))
    · exact ih hl.2 h1 h2

/-- Two sorted lists with the same entries are equal. -/
theorem eq_of_mem_iff {l₁ l₂ : List (κ × ν)} (h₁ : l₁.Pairwise (fun a b => a.1 < b.1))
    (h₂ : l₂.Pairwise (fun a b => a.1 < b.1)) (h : ∀ e, e ∈ l₁ ↔ e ∈ l₂) : l₁ = l₂ :=
  haveI : Std.Irrefl (fun a b : κ × ν => a.1 < b.1) := ⟨fun a => lt_irrefl a.1⟩
  haveI : Std.Antisymm (fun a b : κ × ν => a.1 < b.1) :=
    ⟨fun _ _ hab hba => absurd (lt_trans hab hba) (lt_irrefl _)⟩
  h₁.eq_of_mem_iff h₂ h

/-- The entries after an insertion: the new one, and the old ones with other keys. -/
theorem mem_insertList_iff {k : κ} {v : ν} {l : List (κ × ν)}
    (hl : l.Pairwise (fun a b => a.1 < b.1)) {e : κ × ν} :
    e ∈ insertList k v l ↔ e = (k, v) ∨ (e ∈ l ∧ e.1 ≠ k) := by
  induction l with
  | nil => simp [insertList]
  | cons a rest ih =>
    rw [List.pairwise_cons] at hl
    have hrest : ∀ e ∈ rest, a.1 < e.1 := hl.1
    simp only [insertList]
    split
    · next hlt =>
      simp only [List.mem_cons]
      constructor
      · rintro (h | h | h)
        · exact Or.inl h
        · exact Or.inr ⟨Or.inl h, h ▸ ne_of_gt hlt⟩
        · exact Or.inr ⟨Or.inr h, ne_of_gt (lt_trans hlt (hrest e h))⟩
      · rintro (h | ⟨h, _⟩)
        · exact Or.inl h
        · exact Or.inr h
    · split
      · next heq =>
        simp only [List.mem_cons]
        constructor
        · rintro (h | h)
          · exact Or.inl h
          · exact Or.inr ⟨Or.inr h, heq ▸ ne_of_gt (hrest e h)⟩
        · rintro (h | ⟨h | h, hne⟩)
          · exact Or.inl h
          · exact absurd (h ▸ heq.symm) hne
          · exact Or.inr h
      · next hlt hne =>
        simp only [List.mem_cons, ih hl.2]
        constructor
        · rintro (h | h | ⟨h, hk⟩)
          · exact Or.inr ⟨Or.inl h, h ▸ fun h' => hne h'.symm⟩
          · exact Or.inl h
          · exact Or.inr ⟨Or.inr h, hk⟩
        · rintro (h | ⟨h | h, hk⟩)
          · exact Or.inr (Or.inl h)
          · exact Or.inl h
          · exact Or.inr (Or.inr ⟨h, hk⟩)

/-- The key just inserted is a key of the result. -/
theorem mem_keys_insertList (k : κ) (v : ν) (l : List (κ × ν)) :
    k ∈ (insertList k v l).map Prod.fst := by
  induction l with
  | nil => simp [insertList]
  | cons e rest ih =>
    simp only [insertList]
    split
    · simp
    · split
      · simp
      · exact List.mem_cons_of_mem _ ih

theorem keys_subset_insertList (k : κ) (v : ν) (l : List (κ × ν)) :
    ∀ k' ∈ l.map Prod.fst, k' ∈ (insertList k v l).map Prod.fst := by
  induction l with
  | nil => simp
  | cons e rest ih =>
    intro k' hk'
    simp only [insertList]
    split
    · exact List.mem_cons_of_mem _ hk'
    · split
      · next heq =>
        rcases List.mem_cons.mp hk' with rfl | h
        · simp [heq]
        · exact List.mem_cons_of_mem _ h
      · rcases List.mem_cons.mp hk' with rfl | h
        · simp
        · exact List.mem_cons_of_mem _ (ih k' h)

/-- Inserting at a key that is already present replaces its value in place. -/
theorem insertList_of_mem {k : κ} {v : ν} {l : List (κ × ν)}
    (hl : l.Pairwise (fun a b => a.1 < b.1)) (hk : k ∈ l.map Prod.fst) :
    insertList k v l = l.map (fun e => if e.1 = k then (k, v) else e) := by
  induction l with
  | nil => simp at hk
  | cons e rest ih =>
    rw [List.pairwise_cons] at hl
    have hrest : ∀ a ∈ rest, a.1 ≠ e.1 := fun a ha => ne_of_gt (hl.1 a ha)
    simp only [insertList, List.map_cons]
    rcases List.mem_cons.mp hk with heq | hk'
    · -- the key is at the head, and no later entry has it
      have hmap : rest.map (fun e' => if e'.1 = k then (k, v) else e') = rest := by
        conv_rhs => rw [← List.map_id rest]
        refine List.map_congr_left (fun a ha => ?_)
        rw [if_neg (heq ▸ hrest a ha)]
        rfl
      rw [if_neg (by rw [heq]; exact lt_irrefl _), if_pos heq, if_pos heq.symm, hmap]
    · obtain ⟨a, ha, rfl⟩ := List.mem_map.mp hk'
      have hlt : e.1 < a.1 := hl.1 a ha
      rw [if_neg (not_lt.mpr hlt.le), if_neg (ne_of_gt hlt), if_neg (ne_of_lt hlt),
        ih hl.2 hk']

/-- Inserting at a key the value already in force there changes no value in force. -/
theorem lastValLE_insertList_self (x k : κ) (d : ν) {l : List (κ × ν)}
    (hl : l.Pairwise (fun a b => a.1 < b.1)) :
    lastValLE x d (insertList k (lastValLE k d l) l) = lastValLE x d l := by
  induction l generalizing d with
  | nil =>
    simp only [insertList, lastValLE_cons, lastValLE_nil]
    split <;> rfl
  | cons e rest ih =>
    rw [List.pairwise_cons] at hl
    simp only [insertList]
    split
    · next hlt =>
      -- every entry lies above `k`, so the value in force at `k` is the default
      have hd : lastValLE k d (e :: rest) = d :=
        lastValLE_of_forall_lt (fun a ha => by
          rcases List.mem_cons.mp ha with rfl | ha
          · exact hlt
          · exact lt_trans hlt (hl.1 a ha)) d
      rw [hd, lastValLE_cons]
      split <;> rfl
    · split
      · next heq =>
        have hv : lastValLE k d (e :: rest) = e.2 := by
          rw [lastValLE_cons_of_le (le_of_eq heq.symm),
            lastValLE_of_forall_lt (fun a ha => heq ▸ hl.1 a ha)]
        rw [hv, lastValLE_cons, lastValLE_cons]
        simp only [heq]
      · next hlt hne =>
        have hek : e.1 ≤ k := not_lt.mp hlt
        rw [lastValLE_cons_of_le hek, lastValLE_cons, lastValLE_cons]
        split
        · exact ih e.2 hl.2
        · next hx =>
          -- `x` lies below `e`, hence below every key the insertion can touch
          have hall : ∀ a ∈ insertList k (lastValLE k e.2 rest) rest, x < a.1 := by
            intro a ha
            rcases mem_insertList ha with rfl | ha
            · exact lt_of_lt_of_le (not_le.mp hx) hek
            · exact lt_trans (not_le.mp hx) (hl.1 a ha)
          rw [lastValLE_of_forall_lt hall,
            lastValLE_of_forall_lt (fun a ha => lt_trans (not_le.mp hx) (hl.1 a ha))]

theorem lastValLE_eq_getLast (x : κ) (d : ν) (l : List (κ × ν)) :
    lastValLE x d l = (((l.filter (fun e => e.1 ≤ x)).getLast?).map Prod.snd).getD d := by
  induction l generalizing d with
  | nil => rfl
  | cons e rest ih =>
    rw [lastValLE_cons, List.filter_cons]
    split
    · next he =>
      rw [if_pos (by simpa using he), List.getLast?_cons, ih]
      cases (rest.filter (fun e => e.1 ≤ x)).getLast? <;> rfl
    · next he =>
      rw [if_neg (by simpa using he), ih]

/-- A sorted list with a given key starts with an entry at or below it. -/
theorem exists_head_le {l : List (κ × ν)} (hl : l.Pairwise (fun a b => a.1 < b.1)) {k : κ}
    (hk : k ∈ l.map Prod.fst) : ∃ h t, l = h :: t ∧ h.1 ≤ k := by
  cases l with
  | nil => simp at hk
  | cons h t =>
    refine ⟨h, t, rfl, ?_⟩
    rcases List.mem_cons.mp hk with rfl | hk
    · exact le_rfl
    · obtain ⟨a, ha, rfl⟩ := List.mem_map.mp hk
      exact (List.pairwise_cons.mp hl).1 a ha |>.le

/-- A sorted list splits into the entries below a bound followed by the others. -/
theorem filter_lt_append_filter_le {l : List (κ × ν)}
    (hl : l.Pairwise (fun a b => a.1 < b.1)) (s : κ) :
    l.filter (fun e => e.1 < s) ++ l.filter (fun e => s ≤ e.1) = l := by
  induction l with
  | nil => rfl
  | cons e rest ih =>
    rw [List.pairwise_cons] at hl
    by_cases he : e.1 < s
    · simp only [List.filter_cons, he, decide_true, ↓reduceIte, not_le.mpr he, decide_false,
        Bool.false_eq_true, List.cons_append, ih hl.2]
    · -- `e` and every later entry lie at or above the bound
      have hge : ∀ a ∈ rest, s ≤ a.1 := fun a ha => le_of_lt (lt_of_le_of_lt (not_lt.mp he) (hl.1 a ha))
      have h1 : rest.filter (fun e => e.1 < s) = [] :=
        List.filter_eq_nil_iff.mpr (fun a ha => by simpa using hge a ha)
      have h2 : rest.filter (fun e => s ≤ e.1) = rest :=
        List.filter_eq_self.mpr (fun a ha => by simpa using hge a ha)
      simp only [List.filter_cons, he, decide_false, Bool.false_eq_true, ↓reduceIte,
        not_lt.mp he, decide_true, h1, h2, List.nil_append]

/-- A sorted list splits into its entries below `a`, those in `[a, b)` and those from `b` on. -/
theorem filter_three_way {l : List (κ × ν)} (hl : l.Pairwise (fun a b => a.1 < b.1)) {a b : κ}
    (hab : a < b) :
    l.filter (fun e => e.1 < a) ++ l.filter (fun e => a ≤ e.1 ∧ e.1 < b) ++
      l.filter (fun e => b ≤ e.1) = l := by
  have hlow := filter_lt_append_filter_le hl a
  have hhigh := filter_lt_append_filter_le (hl.filter (fun e => decide (a ≤ e.1))) b
  rw [List.filter_filter, List.filter_filter] at hhigh
  -- the entries from `a` on split at `b` into the middle and the top
  have hmid : l.filter (fun e => decide (e.1 < b) && decide (a ≤ e.1)) =
      l.filter (fun e => a ≤ e.1 ∧ e.1 < b) :=
    List.filter_congr (fun e _ => by
      by_cases h1 : e.1 < b <;> by_cases h2 : a ≤ e.1 <;> simp [h1, h2])
  have htop : l.filter (fun e => decide (b ≤ e.1) && decide (a ≤ e.1)) = l.filter (fun e => b ≤ e.1) :=
    List.filter_congr (fun e _ => by
      by_cases h : b ≤ e.1
      · simp [h, le_of_lt (lt_of_lt_of_le hab h)]
      · simp [h])
  rw [hmid, htop] at hhigh
  rw [List.append_assoc, hhigh, hlow]

/-- Between `s` and `x` the step function keeps its value at `s`, or takes that of an entry
with key in `[s, x]`. -/
theorem lastValLE_eq_or_mem {l : List (κ × ν)} (hl : l.Pairwise (fun a b => a.1 < b.1))
    {s x : κ} (hsx : s ≤ x) (d : ν) :
    lastValLE x d l = lastValLE s d l ∨ ∃ e ∈ l, s ≤ e.1 ∧ e.1 ≤ x ∧ lastValLE x d l = e.2 := by
  induction l generalizing d with
  | nil => exact Or.inl rfl
  | cons e rest ih =>
    rw [List.pairwise_cons] at hl
    by_cases hes : e.1 ≤ s
    · rw [lastValLE_cons_of_le hes, lastValLE_cons_of_le (le_trans hes hsx)]
      rcases ih hl.2 e.2 with h | ⟨e', he', h⟩
      · exact Or.inl h
      · exact Or.inr ⟨e', List.mem_cons_of_mem _ he', h⟩
    · by_cases hex : e.1 ≤ x
      · -- `e` is the first entry past `s`, and no later entry lies at or below `s`
        right
        rw [lastValLE_cons_of_le hex]
        rcases ih hl.2 e.2 with h | ⟨e', he', h⟩
        · refine ⟨e, List.mem_cons_self .., (not_le.mp hes).le, hex, ?_⟩
          rw [h, lastValLE_of_forall_lt (fun e' he' => lt_trans (not_le.mp hes) (hl.1 e' he'))]
        · exact ⟨e', List.mem_cons_of_mem _ he', h⟩
      · rw [lastValLE_cons, if_neg hex, lastValLE_cons, if_neg hes]
        rcases ih hl.2 d with h | ⟨e', he', h⟩
        · exact Or.inl h
        · exact Or.inr ⟨e', List.mem_cons_of_mem _ he', h⟩

/-- The step function of entries whose values go through `f`. -/
theorem lastValLE_map {μ : Type} (f : ν → μ) (x : κ) (d : ν) (l : List (κ × ν)) :
    lastValLE x (f d) (l.map fun e => (e.1, f e.2)) = f (lastValLE x d l) := by
  induction l generalizing d with
  | nil => rfl
  | cons e rest ih =>
    simp only [List.map_cons, lastValLE_cons]
    split <;> exact ih _

/-- An entry that repeats the default changes nothing. -/
theorem lastValLE_cons_self (x k : κ) (d : ν) (l : List (κ × ν)) :
    lastValLE x d ((k, d) :: l) = lastValLE x d l := by
  rw [lastValLE_cons]
  split <;> rfl

/-- Where every entry lies at or below both keys, the step function has one value at both. -/
theorem lastValLE_eq_of_forall_le {l : List (κ × ν)} {x y : κ} (hx : ∀ e ∈ l, e.1 ≤ x)
    (hy : ∀ e ∈ l, e.1 ≤ y) (d : ν) : lastValLE x d l = lastValLE y d l := by
  induction l generalizing d with
  | nil => rfl
  | cons e rest ih =>
    rw [lastValLE_cons_of_le (hx e List.mem_cons_self), lastValLE_cons_of_le (hy e List.mem_cons_self)]
    exact ih (fun e' h => hx e' (List.mem_cons_of_mem _ h))
      (fun e' h => hy e' (List.mem_cons_of_mem _ h)) _

/-- From `s` on, the step function of sorted entries at or above `s` depends on the default
only through its own value at `s`. -/
theorem lastValLE_of_le_start {l : List (κ × ν)} (hl : l.Pairwise (fun a b => a.1 < b.1))
    {s x : κ} (hs : ∀ e ∈ l, s ≤ e.1) (hsx : s ≤ x) (d : ν) :
    lastValLE x d l = lastValLE x (lastValLE s d l) l := by
  cases l with
  | nil => rfl
  | cons e rest =>
    by_cases hes : e.1 ≤ s
    · -- the first entry sits at `s` and hides the default
      rw [lastValLE_cons_of_le (hes.trans hsx), lastValLE_cons_of_le hes,
        lastValLE_cons_of_le (hes.trans hsx)]
    · -- every entry lies above `s`, so the value at `s` is the default
      have hgt : ∀ e' ∈ e :: rest, s < e'.1 := by
        intro e' he'
        rcases List.mem_cons.1 he' with rfl | he'
        · exact not_le.1 hes
        · exact (not_le.1 hes).trans ((List.pairwise_cons.1 hl).1 e' he')
      rw [lastValLE_of_forall_lt hgt d]

/-- At the key of one of its sorted entries, the step function takes that entry's value. -/
theorem lastValLE_of_mem {l : List (κ × ν)} (hl : l.Pairwise (fun a b => a.1 < b.1))
    {e : κ × ν} (he : e ∈ l) (d : ν) : lastValLE e.1 d l = e.2 := by
  induction l generalizing d with
  | nil => simp at he
  | cons a rest ih =>
    rw [List.pairwise_cons] at hl
    rcases List.mem_cons.1 he with rfl | he
    · rw [lastValLE_cons_of_le le_rfl]
      exact lastValLE_of_forall_lt hl.1 _
    · rw [lastValLE_cons_of_le (hl.1 e he).le]
      exact ih hl.2 he _

/-! ## Maps -/

/-- The empty map. -/
def empty : SortedMap κ ν := ⟨[], List.Pairwise.nil⟩

/-- The keys of a map, in increasing order. -/
def keys (m : SortedMap κ ν) : List κ := m.entries.map Prod.fst

/-- `insert`: add an entry, replacing the entry with the same key. -/
def insert (m : SortedMap κ ν) (k : κ) (v : ν) : SortedMap κ ν :=
  ⟨insertList k v m.entries, sorted_insertList k v m.sorted⟩

/-- `remove`: drop the entry with the given key, if any. -/
def erase (m : SortedMap κ ν) (k : κ) : SortedMap κ ν :=
  ⟨m.entries.filter (fun e => e.1 ≠ k), m.sorted.filter _⟩

/-- `range(..=x).next_back()`: the entry with the greatest key at most `x`. -/
def floor (m : SortedMap κ ν) (x : κ) : Option (κ × ν) :=
  (m.entries.filter (fun e => e.1 ≤ x)).getLast?

/-- `range(lo..hi)`: the entries with keys in `[lo, hi)`, in key order. -/
def range (m : SortedMap κ ν) (lo hi : κ) : List (κ × ν) :=
  m.entries.filter (fun e => lo ≤ e.1 ∧ e.1 < hi)

/-- `range(lo..)`: the entries with keys at least `lo`, in key order. -/
def rangeFrom (m : SortedMap κ ν) (lo : κ) : List (κ × ν) :=
  m.entries.filter (fun e => lo ≤ e.1)

/-- `split_off(k)`, as seen by the map itself: it keeps the entries below `k`. -/
def splitOff (m : SortedMap κ ν) (k : κ) : SortedMap κ ν :=
  ⟨m.entries.filter (fun e => e.1 < k), m.sorted.filter _⟩

/-- `iter().next_back()`: the entry with the greatest key. -/
def last (m : SortedMap κ ν) : Option (κ × ν) :=
  m.entries.getLast?

/-- `iter().next()`: the entry with the least key. -/
def first (m : SortedMap κ ν) : Option (κ × ν) :=
  m.entries.head?

/-- The value of the first entry with key `k`. -/
def lookupList (k : κ) (l : List (κ × ν)) : Option ν :=
  (l.find? (fun e => e.1 = k)).map (·.2)

/-- `get`: the value at a key, if any. -/
def get (m : SortedMap κ ν) (k : κ) : Option ν :=
  lookupList k m.entries

@[simp] theorem empty_entries : (empty : SortedMap κ ν).entries = [] := rfl

@[simp] theorem insert_entries (m : SortedMap κ ν) (k : κ) (v : ν) :
    (m.insert k v).entries = insertList k v m.entries := rfl

@[simp] theorem erase_entries (m : SortedMap κ ν) (k : κ) :
    (m.erase k).entries = m.entries.filter (fun e => e.1 ≠ k) := rfl

@[simp] theorem splitOff_entries (m : SortedMap κ ν) (k : κ) :
    (m.splitOff k).entries = m.entries.filter (fun e => e.1 < k) := rfl

/-- The value part of `floor`, defaulted, is the step function of the entries. -/
theorem floor_map_getD (m : SortedMap κ ν) (x : κ) (d : ν) :
    ((m.floor x).map Prod.snd).getD d = lastValLE x d m.entries :=
  (lastValLE_eq_getLast x d m.entries).symm

theorem mem_keys_insert (m : SortedMap κ ν) (k : κ) (v : ν) : k ∈ (m.insert k v).keys :=
  mem_keys_insertList k v m.entries

theorem keys_subset_insert (m : SortedMap κ ν) (k : κ) (v : ν) :
    ∀ k' ∈ m.keys, k' ∈ (m.insert k v).keys :=
  keys_subset_insertList k v m.entries

theorem mem_insert_iff (m : SortedMap κ ν) (k : κ) (v : ν) (e : κ × ν) :
    e ∈ (m.insert k v).entries ↔ e = (k, v) ∨ (e ∈ m.entries ∧ e.1 ≠ k) :=
  mem_insertList_iff m.sorted

theorem mem_erase_iff (m : SortedMap κ ν) (k : κ) (e : κ × ν) :
    e ∈ (m.erase k).entries ↔ e ∈ m.entries ∧ e.1 ≠ k := by
  simp

theorem mem_splitOff_iff (m : SortedMap κ ν) (k : κ) (e : κ × ν) :
    e ∈ (m.splitOff k).entries ↔ e ∈ m.entries ∧ e.1 < k := by
  simp

/-- `floor` finds the entry with the greatest key at or below `x`. -/
theorem floor_eq_some {m : SortedMap κ ν} {x : κ} {e : κ × ν} (h : m.floor x = some e) :
    e ∈ m.entries ∧ e.1 ≤ x ∧ ∀ e' ∈ m.entries, e'.1 ≤ x → e'.1 ≤ e.1 := by
  obtain ⟨ys, hys⟩ := List.getLast?_eq_some_iff.mp h
  have hmem : e ∈ m.entries.filter (fun e => e.1 ≤ x) := hys ▸ List.mem_append_right _ (by simp)
  have hsorted : (ys ++ [e]).Pairwise (fun a b => a.1 < b.1) :=
    hys ▸ (m.sorted.filter (fun e => decide (e.1 ≤ x)))
  refine ⟨List.mem_of_mem_filter hmem, by simpa using (List.mem_filter.mp hmem).2, ?_⟩
  intro e' he' hx
  have hmem' : e' ∈ ys ++ [e] := hys ▸ List.mem_filter.mpr ⟨he', by simpa using hx⟩
  rcases List.mem_append.mp hmem' with h' | h'
  · exact ((List.pairwise_append.mp hsorted).2.2 e' h' e (by simp)).le
  · rw [List.mem_singleton.mp h']

theorem floor_eq_none {m : SortedMap κ ν} {x : κ} (h : m.floor x = none) :
    ∀ e ∈ m.entries, x < e.1 := by
  intro e he
  have hnil : m.entries.filter (fun e => e.1 ≤ x) = [] := List.getLast?_eq_none_iff.mp h
  by_contra hx
  have hmem : e ∈ m.entries.filter (fun e => e.1 ≤ x) :=
    List.mem_filter.mpr ⟨he, by simpa using hx⟩
  rw [hnil] at hmem
  exact List.not_mem_nil hmem

/-- `last` finds the entry with the greatest key. -/
theorem last_eq_some {m : SortedMap κ ν} {e : κ × ν} (h : m.last = some e) :
    e ∈ m.entries ∧ ∀ e' ∈ m.entries, e'.1 ≤ e.1 := by
  obtain ⟨ys, hys⟩ := List.getLast?_eq_some_iff.mp h
  have hsorted := hys ▸ m.sorted
  refine ⟨hys ▸ List.mem_append_right _ (by simp), fun e' he' => ?_⟩
  rcases List.mem_append.mp (hys ▸ he') with h' | h'
  · exact ((List.pairwise_append.mp hsorted).2.2 e' h' e (by simp)).le
  · rw [List.mem_singleton.mp h']

theorem last_eq_none {m : SortedMap κ ν} (h : m.last = none) : m.entries = [] :=
  List.getLast?_eq_none_iff.mp h

/-- `first` finds the entry with the least key. -/
theorem first_eq_some {m : SortedMap κ ν} {e : κ × ν} (h : m.first = some e) :
    e ∈ m.entries ∧ ∀ e' ∈ m.entries, e.1 ≤ e'.1 := by
  obtain ⟨ys, hys⟩ := List.head?_eq_some_iff.mp h
  have hsorted := hys ▸ m.sorted
  refine ⟨hys ▸ List.mem_cons_self .., fun e' he' => ?_⟩
  rcases List.mem_cons.mp (hys ▸ he') with rfl | h'
  · exact le_rfl
  · exact ((List.pairwise_cons.mp hsorted).1 e' h').le

theorem first_eq_none {m : SortedMap κ ν} (h : m.first = none) : m.entries = [] :=
  List.head?_eq_none_iff.mp h

theorem mem_keys_iff (m : SortedMap κ ν) (k : κ) : k ∈ m.keys ↔ ∃ e ∈ m.entries, e.1 = k := by
  simp [keys]

theorem mem_keys_insert_iff (m : SortedMap κ ν) (k : κ) (v : ν) (k' : κ) :
    k' ∈ (m.insert k v).keys ↔ k' = k ∨ k' ∈ m.keys := by
  simp only [mem_keys_iff, mem_insert_iff]
  constructor
  · rintro ⟨e, he | ⟨he, hne⟩, rfl⟩
    · exact Or.inl (by rw [he])
    · exact Or.inr ⟨e, he, rfl⟩
  · rintro (rfl | ⟨e, he, rfl⟩)
    · exact ⟨(k', v), Or.inl rfl, rfl⟩
    · by_cases hek : e.1 = k
      · exact ⟨(k, v), Or.inl rfl, hek.symm⟩
      · exact ⟨e, Or.inr ⟨he, hek⟩, rfl⟩

/-! ## Lookup -/

theorem lookupList_cons (k : κ) (e : κ × ν) (l : List (κ × ν)) :
    lookupList k (e :: l) = if e.1 = k then some e.2 else lookupList k l := by
  by_cases h : e.1 = k <;> simp [lookupList, h]

theorem lookupList_of_forall_lt {k : κ} {l : List (κ × ν)} (h : ∀ e ∈ l, k < e.1) :
    lookupList k l = none := by
  simp only [lookupList, Option.map_eq_none_iff, List.find?_eq_none, decide_eq_true_eq]
  exact fun e he hek => absurd (hek ▸ h e he) (lt_irrefl k)

theorem get_eq_some_iff (m : SortedMap κ ν) (k : κ) (v : ν) :
    m.get k = some v ↔ (k, v) ∈ m.entries := by
  constructor
  · intro h
    obtain ⟨e, he, rfl⟩ := Option.map_eq_some_iff.mp h
    have hk : e.1 = k := by simpa using List.find?_some he
    exact hk ▸ List.mem_of_find?_eq_some he
  · intro h
    obtain ⟨e, he⟩ := Option.isSome_iff_exists.mp
      (List.find?_isSome.mpr ⟨(k, v), h, by simp⟩ : (m.entries.find? (fun e => e.1 = k)).isSome)
    have hk : e.1 = k := by simpa using List.find?_some he
    have heq : e = (k, v) := eq_of_mem_of_fst_eq m.sorted (List.mem_of_find?_eq_some he) h hk
    simp [get, lookupList, he, heq]

theorem get_eq_none_iff (m : SortedMap κ ν) (k : κ) : m.get k = none ↔ k ∉ m.keys := by
  simp only [get, lookupList, keys, Option.map_eq_none_iff, List.find?_eq_none, decide_eq_true_eq, List.mem_map,
    not_exists, not_and, Prod.forall]

@[simp] theorem get_empty (k : κ) : (empty : SortedMap κ ν).get k = none := rfl

theorem get_insert (m : SortedMap κ ν) (k : κ) (v : ν) (k' : κ) :
    (m.insert k v).get k' = if k' = k then some v else m.get k' := by
  refine Option.ext (fun w => ?_)
  rw [get_eq_some_iff, mem_insert_iff]
  by_cases h : k' = k
  · subst h
    simp [eq_comm]
  · simp [h, get_eq_some_iff]

theorem get_erase (m : SortedMap κ ν) (k : κ) (k' : κ) :
    (m.erase k).get k' = if k' = k then none else m.get k' := by
  refine Option.ext (fun w => ?_)
  rw [get_eq_some_iff, mem_erase_iff]
  by_cases h : k' = k
  · simp [h]
  · simp [h, get_eq_some_iff]

/-- Two maps that agree on the keys a predicate selects have the same entries there. -/
theorem filter_eq_of_get_eq {m₁ m₂ : SortedMap κ ν} (p : κ → Prop) [DecidablePred p]
    (h : ∀ k, p k → m₁.get k = m₂.get k) :
    m₁.entries.filter (fun e => p e.1) = m₂.entries.filter (fun e => p e.1) := by
  refine eq_of_mem_iff (m₁.sorted.filter _) (m₂.sorted.filter _) (fun ⟨k, v⟩ => ?_)
  simp only [List.mem_filter, decide_eq_true_eq]
  constructor
  · rintro ⟨he, hp⟩
    rw [← get_eq_some_iff, ← h k hp, get_eq_some_iff]
    exact ⟨he, hp⟩
  · rintro ⟨he, hp⟩
    rw [← get_eq_some_iff, h k hp, get_eq_some_iff]
    exact ⟨he, hp⟩

/-- Inserting at keys that are all present sets their values and keeps the rest. -/
theorem foldl_insert_entries (v : ν) (ks : List κ) (m : SortedMap κ ν)
    (hks : ∀ k ∈ ks, k ∈ m.keys) :
    (ks.foldl (fun m k => m.insert k v) m).entries =
      m.entries.map (fun e => if e.1 ∈ ks then (e.1, v) else e) := by
  induction ks generalizing m with
  | nil => simp
  | cons k ks ih =>
    rw [List.foldl_cons, ih (m.insert k v)
      (fun k' hk' => keys_subset_insert m k v k' (hks k' (List.mem_cons_of_mem _ hk'))),
      insert_entries, insertList_of_mem m.sorted (hks k (List.mem_cons_self ..)), List.map_map]
    refine List.map_congr_left (fun e _ => ?_)
    by_cases he : e.1 = k
    · simp [he]
    · simp [he]

/-- Removing a list of keys filters them out. -/
theorem foldl_erase_entries (ks : List κ) (m : SortedMap κ ν) :
    (ks.foldl (fun m k => m.erase k) m).entries = m.entries.filter (fun e => e.1 ∉ ks) := by
  induction ks generalizing m with
  | nil => simp
  | cons k ks ih =>
    rw [List.foldl_cons, ih, erase_entries, List.filter_filter]
    refine List.filter_congr (fun e _ => ?_)
    by_cases h1 : e.1 = k <;> by_cases h2 : e.1 ∈ ks <;> simp [h1, h2]

/-- Two maps that agree at every key have the same entries. -/
theorem entries_eq_of_get_eq {m₁ m₂ : SortedMap κ ν} (h : ∀ k, m₁.get k = m₂.get k) :
    m₁.entries = m₂.entries :=
  eq_of_mem_iff m₁.sorted m₂.sorted fun ⟨k, v⟩ => by
    rw [← get_eq_some_iff, ← get_eq_some_iff, h]

/-- Inserting the entries of a sorted list one by one: a key reads its value in the list, or
what the map started with. -/
theorem get_foldl_insert {μ : Type} (f : ν → μ) (k : κ) :
    ∀ {l : List (κ × ν)}, l.Pairwise (fun a b => a.1 < b.1) → ∀ acc : SortedMap κ μ,
      (l.foldl (fun acc e => acc.insert e.1 (f e.2)) acc).get k =
        ((lookupList k l).map f).or (acc.get k)
  | [], _, acc => by simp [lookupList]
  | e :: l, hl, acc => by
    rw [List.pairwise_cons] at hl
    rw [List.foldl_cons, get_foldl_insert f k hl.2, lookupList_cons, get_insert]
    by_cases he : e.1 = k
    · subst he
      rw [lookupList_of_forall_lt hl.1]
      simp
    · simp [he, Ne.symm he]

/-- Rebuilding a map from its entries, with the values mapped. -/
theorem get_foldl_insert_entries {μ : Type} (f : ν → μ) (m : SortedMap κ ν) (k : κ) :
    (m.entries.foldl (fun acc e => acc.insert e.1 (f e.2)) empty).get k = (m.get k).map f := by
  rw [get_foldl_insert f k m.sorted]
  simp [get, lookupList]

/-- Summing a value of each entry after replacing the value at a present key. -/
theorem sum_map_update {G : Type} [AddCommGroup G] (f : ν → G) {k : κ} {v w : ν} :
    ∀ {l : List (κ × ν)}, l.Pairwise (fun a b => a.1 < b.1) → (k, v) ∈ l →
      (l.map fun e => f (if e.1 = k then w else e.2)).sum = (l.map fun e => f e.2).sum - f v + f w
  | [], _, h => by simp at h
  | e :: l, hl, h => by
    rw [List.pairwise_cons] at hl
    rcases List.mem_cons.mp h with rfl | h
    · -- The key is at the head, so nowhere in the tail.
      have htail : (l.map fun e => f (if e.1 = k then w else e.2)) = l.map fun e => f e.2 :=
        List.map_congr_left fun e' he' => by rw [if_neg (ne_of_gt (hl.1 e' he'))]
      simp only [List.map_cons, List.sum_cons, if_true, htail]
      abel
    · have hne : e.1 ≠ k := ne_of_lt (hl.1 _ h)
      simp only [List.map_cons, List.sum_cons, if_neg hne, sum_map_update f hl.2 h]
      abel

/-- The sum over a map's values after `insert` at a present key. -/
theorem sum_insert_of_get {G : Type} [AddCommGroup G] (f : ν → G) {m : SortedMap κ ν} {k : κ}
    {v : ν} (h : m.get k = some v) (w : ν) :
    ((m.insert k w).entries.map fun e => f e.2).sum = (m.entries.map fun e => f e.2).sum - f v + f w := by
  have hmem := (get_eq_some_iff m k v).mp h
  rw [insert_entries, insertList_of_mem m.sorted (List.mem_map.mpr ⟨_, hmem, rfl⟩), List.map_map,
    ← sum_map_update f m.sorted hmem]
  refine congrArg List.sum (List.map_congr_left fun e _ => ?_)
  by_cases he : e.1 = k <;> simp [he]

/-- The sum over a map's values after `erase` of a present key. -/
theorem sum_erase_of_get {G : Type} [AddCommGroup G] (f : ν → G) {m : SortedMap κ ν} {k : κ}
    {v : ν} (h : m.get k = some v) :
    ((m.erase k).entries.map fun e => f e.2).sum = (m.entries.map fun e => f e.2).sum - f v := by
  have hmem := (get_eq_some_iff m k v).mp h
  -- Summing a filter drops exactly the one entry at the key.
  have key : ∀ {l : List (κ × ν)}, l.Pairwise (fun a b => a.1 < b.1) → (k, v) ∈ l →
      ((l.filter fun e => e.1 ≠ k).map fun e => f e.2).sum = (l.map fun e => f e.2).sum - f v := by
    intro l
    induction l with
    | nil => simp
    | cons e l ih =>
      intro hl h
      rw [List.pairwise_cons] at hl
      rcases List.mem_cons.mp h with rfl | h
      · have htail : l.filter (fun e => e.1 ≠ k) = l :=
          List.filter_eq_self.mpr fun e' he' => by simpa using ne_of_gt (hl.1 e' he')
        rw [List.filter_cons]
        simp only [ne_eq, not_true_eq_false, decide_false, Bool.false_eq_true, if_false]
        rw [htail]
        simp
      · have hne : e.1 ≠ k := ne_of_lt (hl.1 _ h)
        simp only [List.filter_cons, hne, ne_eq, not_false_eq_true, decide_true, if_true,
          List.map_cons, List.sum_cons, ih hl.2 h]
        abel
  simpa using key m.sorted hmem

/-- The map with every value sent through `f`. -/
def mapVal {μ : Type} (f : ν → μ) (m : SortedMap κ ν) : SortedMap κ μ :=
  ⟨m.entries.map fun e => (e.1, f e.2), List.pairwise_map.mpr m.sorted⟩

@[simp] theorem mapVal_entries {μ : Type} (f : ν → μ) (m : SortedMap κ ν) :
    (m.mapVal f).entries = m.entries.map fun e => (e.1, f e.2) := rfl

theorem get_mapVal {μ : Type} (f : ν → μ) (m : SortedMap κ ν) (k : κ) :
    (m.mapVal f).get k = (m.get k).map f := by
  refine Option.ext fun w => ?_
  rw [get_eq_some_iff, Option.map_eq_some_iff]
  simp only [mapVal_entries, List.mem_map, Prod.mk.injEq]
  constructor
  · rintro ⟨⟨k', v⟩, hv, rfl, rfl⟩
    exact ⟨v, (get_eq_some_iff _ _ _).mpr hv, rfl⟩
  · rintro ⟨v, hv, rfl⟩
    exact ⟨(k, v), (get_eq_some_iff _ _ _).mp hv, rfl, rfl⟩

/-- Inserting a new key adds its entry, in some position. -/
theorem perm_insertList_of_forall_ne {k : κ} {v : ν} :
    ∀ {l : List (κ × ν)}, (∀ e ∈ l, e.1 ≠ k) → (insertList k v l).Perm ((k, v) :: l)
  | [], _ => List.Perm.refl _
  | e :: rest, h => by
    simp only [insertList]
    split
    · exact List.Perm.refl _
    · split
      · exact absurd (‹k = e.1›).symm (h e (List.mem_cons_self ..))
      · have ih : (insertList k v rest).Perm ((k, v) :: rest) :=
          perm_insertList_of_forall_ne (fun e' he' => h e' (List.mem_cons_of_mem _ he'))
        exact (ih.cons e).trans (List.Perm.swap _ _ _)

/-- The sum over a map's values after `insert` at a new key. -/
theorem sum_insert_of_get_none {G : Type} [AddCommGroup G] (f : ν → G) {m : SortedMap κ ν}
    {k : κ} (h : m.get k = none) (w : ν) :
    ((m.insert k w).entries.map fun e => f e.2).sum = (m.entries.map fun e => f e.2).sum + f w := by
  have hne : ∀ e ∈ m.entries, e.1 ≠ k := fun e he hek =>
    (get_eq_none_iff m k).mp h ((mem_keys_iff m k).mpr ⟨e, he, hek⟩)
  rw [insert_entries, ((perm_insertList_of_forall_ne hne).map _).sum_eq]
  simp [add_comm]

end SortedMap

end NeonStorage

import NeonStorage.Lib.Range

/-!
# Lists of half-open ranges as sets of keys

A set of keys kept as a list of half-open ranges, in order, each non-empty and each ending at or
before the next one starts (`WellFormed`); `Separated` lists do not even let two ranges touch.
This file gives the set such a list holds (`keys`), when two ranges share a key (`Overlaps`), and
the facts about these that algorithms over such lists use.  Nothing here refers to the
repository.
-/

namespace NeonStorage

namespace Range

variable {α : Type} [LinearOrder α]

/-- The keys of a range. -/
def toSet (r : Range α) : Set α := Set.Ico r.start r.end

@[simp] theorem mem_toSet {r : Range α} {x : α} : x ∈ r.toSet ↔ r.start ≤ x ∧ x < r.end :=
  Iff.rfl

/-- Two ranges overlap: each starts before the other ends. -/
def Overlaps (a b : Range α) : Prop := a.start < b.end ∧ b.start < a.end

instance (a b : Range α) : Decidable (a.Overlaps b) := inferInstanceAs (Decidable (_ ∧ _))

/-- Non-empty ranges overlap exactly when they share a key. -/
theorem overlaps_iff_exists {a b : Range α} (ha : a.start < a.end) (hb : b.start < b.end) :
    a.Overlaps b ↔ ∃ x, x ∈ a.toSet ∧ x ∈ b.toSet := by
  constructor
  · rintro ⟨hab, hba⟩
    -- the later of the two starts lies in both
    refine ⟨max a.start b.start, ?_, ?_⟩
    · exact ⟨le_max_left _ _, max_lt ha hba⟩
    · exact ⟨le_max_right _ _, max_lt hab hb⟩
  · rintro ⟨x, ⟨hax, hxa⟩, ⟨hbx, hxb⟩⟩
    exact ⟨lt_of_le_of_lt hax hxb, lt_of_le_of_lt hbx hxa⟩

theorem not_mem_of_not_overlaps {a b : Range α} (h : ¬a.Overlaps b) {x : α} (ha : x ∈ a.toSet) :
    x ∉ b.toSet := by
  rintro ⟨hbx, hxb⟩
  exact h ⟨lt_of_le_of_lt ha.1 hxb, lt_of_le_of_lt hbx ha.2⟩

/-- The parts of `a` outside `b`: the one below `b.start` and the one above `b.end`, each if
it is not empty. -/
def diff (a b : Range α) : List (Range α) :=
  (if a.start < b.start then [⟨a.start, b.start⟩] else []) ++
    (if b.end < a.end then [⟨b.end, a.end⟩] else [])

section Diff

variable {a b : Range α}

theorem start_lt_end_of_mem_diff {p : Range α} (hp : p ∈ a.diff b) : p.start < p.end := by
  simp only [diff, List.mem_append] at hp
  rcases hp with hp | hp <;> split at hp <;> simp_all

/-- The parts of `a` outside a range it overlaps lie inside `a`. -/
theorem le_of_mem_diff (hov : a.Overlaps b) {p : Range α} (hp : p ∈ a.diff b) :
    a.start ≤ p.start ∧ p.end ≤ a.end := by
  simp only [diff, List.mem_append] at hp
  rcases hp with hp | hp <;> split at hp
  · simp only [List.mem_singleton] at hp
    subst hp
    exact ⟨le_rfl, hov.2.le⟩
  · simp at hp
  · simp only [List.mem_singleton] at hp
    subst hp
    exact ⟨hov.1.le, le_rfl⟩
  · simp at hp

theorem not_overlaps_of_mem_diff {p : Range α} (hp : p ∈ a.diff b) : ¬p.Overlaps b := by
  simp only [diff, List.mem_append] at hp
  rintro ⟨h1, h2⟩
  rcases hp with hp | hp <;> split at hp <;> simp_all

theorem diff_sorted (hb : b.start < b.end) : (a.diff b).Pairwise fun p q => p.end ≤ q.start := by
  unfold diff
  split <;> split <;> simp [hb.le]

/-- Only a range that `b` splits in the middle leaves two parts. -/
theorem length_diff_le : (a.diff b).length ≤ 1 ∨ (a.start < b.start ∧ b.end < a.end) := by
  unfold diff
  split <;> split <;> simp_all

end Diff

end Range

namespace RangeList

variable {α : Type} [LinearOrder α]

/-- The keys a list of ranges holds. -/
def keys (rs : List (Range α)) : Set α := {x | ∃ r ∈ rs, x ∈ r.toSet}

@[simp] theorem mem_keys {rs : List (Range α)} {x : α} : x ∈ keys rs ↔ ∃ r ∈ rs, x ∈ r.toSet :=
  Iff.rfl

@[simp] theorem keys_nil : keys ([] : List (Range α)) = ∅ := by
  ext x
  simp

@[simp] theorem keys_cons (r : Range α) (rs : List (Range α)) :
    keys (r :: rs) = r.toSet ∪ keys rs := by
  ext x
  simp

@[simp] theorem keys_append (rs₁ rs₂ : List (Range α)) :
    keys (rs₁ ++ rs₂) = keys rs₁ ∪ keys rs₂ := by
  ext x
  simp only [mem_keys, List.mem_append, Set.mem_union]
  constructor
  · rintro ⟨r, hr | hr, hx⟩
    · exact Or.inl ⟨r, hr, hx⟩
    · exact Or.inr ⟨r, hr, hx⟩
  · rintro (⟨r, hr, hx⟩ | ⟨r, hr, hx⟩)
    · exact ⟨r, Or.inl hr, hx⟩
    · exact ⟨r, Or.inr hr, hx⟩

/-- The keys of the parts of `a` outside a range it overlaps are those of `a` outside it. -/
theorem keys_diff {a b : Range α} (hov : a.Overlaps b) : keys (a.diff b) = a.toSet \ b.toSet := by
  ext x
  simp only [mem_keys, Range.diff, List.mem_append, Set.mem_sdiff, Range.mem_toSet, not_and, not_lt]
  constructor
  · rintro ⟨p, hp, hpx⟩
    rcases hp with hp | hp <;> split at hp <;> simp only [List.mem_singleton,
      List.not_mem_nil] at hp
    · subst hp
      exact ⟨⟨hpx.1, lt_trans hpx.2 hov.2⟩, fun h => absurd hpx.2 (not_lt.2 h)⟩
    · subst hp
      exact ⟨⟨le_trans hov.1.le hpx.1, hpx.2⟩, fun _ => hpx.1⟩
  · rintro ⟨⟨hax, hxa⟩, hxb⟩
    by_cases hlow : x < b.start
    · exact ⟨⟨a.start, b.start⟩, Or.inl (by rw [if_pos (lt_of_le_of_lt hax hlow)]; simp),
        hax, hlow⟩
    · have hhigh := hxb (not_lt.1 hlow)
      exact ⟨⟨b.end, a.end⟩, Or.inr (by rw [if_pos (lt_of_le_of_lt hhigh hxa)]; simp),
        hhigh, hxa⟩

theorem keys_perm {rs₁ rs₂ : List (Range α)} (h : rs₁.Perm rs₂) : keys rs₁ = keys rs₂ := by
  ext x
  simp only [mem_keys, h.mem_iff]

/-- Every range is non-empty and ends at or before the next one starts. -/
structure WellFormed (rs : List (Range α)) : Prop where
  nonempty : ∀ r ∈ rs, r.start < r.end
  sorted : rs.Pairwise fun a b => a.end ≤ b.start

/-- No two ranges even touch. -/
def Separated (rs : List (Range α)) : Prop := rs.Pairwise fun a b => a.end < b.start

theorem wellFormed_nil : WellFormed ([] : List (Range α)) :=
  ⟨fun _ h => absurd h List.not_mem_nil, List.Pairwise.nil⟩

theorem wellFormed_cons {r : Range α} {rs : List (Range α)} :
    WellFormed (r :: rs) ↔ r.start < r.end ∧ (∀ b ∈ rs, r.end ≤ b.start) ∧ WellFormed rs := by
  constructor
  · rintro ⟨hne, hs⟩
    rw [List.pairwise_cons] at hs
    exact ⟨hne r List.mem_cons_self, hs.1,
      ⟨fun b hb => hne b (List.mem_cons_of_mem _ hb), hs.2⟩⟩
  · rintro ⟨hr, hle, hne, hs⟩
    refine ⟨fun b hb => ?_, List.pairwise_cons.2 ⟨hle, hs⟩⟩
    rcases List.mem_cons.1 hb with rfl | hb
    · exact hr
    · exact hne b hb

namespace WellFormed

variable {rs : List (Range α)}

/-- The starts of a well-formed list increase strictly. -/
theorem starts (h : WellFormed rs) : rs.Pairwise fun a b => a.start < b.start :=
  List.Pairwise.imp_of_mem (fun {a _} ha _ hab => lt_of_lt_of_le (h.nonempty a ha) hab) h.sorted

theorem sublist {rs' : List (Range α)} (h : WellFormed rs) (hsub : rs'.Sublist rs) :
    WellFormed rs' :=
  ⟨fun r hr => h.nonempty r (hsub.subset hr), h.sorted.sublist hsub⟩

/-- In a well-formed list, a range overlaps nothing before it that ends at or below its own
start; in particular two different ranges of the list share no key. -/
theorem end_le_start {i j : ℕ} (h : WellFormed rs) (hi : i < rs.length) (hj : j < rs.length)
    (hij : i < j) : rs[i].end ≤ rs[j].start :=
  List.pairwise_iff_getElem.1 h.sorted i j hi hj hij

/-- Replacing a range by pieces inside it, in order and non-empty, keeps a list well-formed. -/
theorem replace {pre post pieces : List (Range α)} {a : Range α}
    (h : WellFormed (pre ++ a :: post)) (hne : ∀ p ∈ pieces, p.start < p.end)
    (hsorted : pieces.Pairwise fun p q => p.end ≤ q.start)
    (hin : ∀ p ∈ pieces, a.start ≤ p.start ∧ p.end ≤ a.end) :
    WellFormed (pre ++ pieces ++ post) := by
  obtain ⟨hne', hs⟩ := h
  rw [List.pairwise_append, List.pairwise_cons] at hs
  obtain ⟨hpre, ⟨ha, hpost⟩, hcross⟩ := hs
  refine ⟨fun r hr => ?_, ?_⟩
  · simp only [List.mem_append] at hr
    rcases hr with (hr | hr) | hr
    · exact hne' r (by simp [hr])
    · exact hne r hr
    · exact hne' r (by simp [hr])
  · rw [List.pairwise_append, List.pairwise_append]
    refine ⟨⟨hpre, hsorted, fun x hx p hp => ?_⟩, hpost, fun x hx y hy => ?_⟩
    · -- what comes before `a` ends before its pieces start
      exact le_trans (hcross x hx a List.mem_cons_self) (hin p hp).1
    · simp only [List.mem_append] at hx
      rcases hx with hx | hx
      · exact hcross x hx y (List.mem_cons_of_mem _ hy)
      · exact le_trans (hin x hx).2 (ha y hy)

/-- What comes before a range of a well-formed list ends before it starts, and what comes after
it starts after it ends. -/
theorem split {pre post : List (Range α)} {a : Range α} (h : WellFormed (pre ++ a :: post)) :
    (∀ x ∈ pre, x.end ≤ a.start) ∧ ∀ y ∈ post, a.end ≤ y.start := by
  have hs := h.sorted
  rw [List.pairwise_append, List.pairwise_cons] at hs
  exact ⟨fun x hx => hs.2.2 x hx a List.mem_cons_self, hs.2.1.1⟩

/-- Every key of a well-formed list lies between the start of its first range and the end of
its last. -/
theorem bounds {a : Range α} (h : WellFormed (a :: rs)) {x : α} (hx : x ∈ keys (a :: rs)) :
    a.start ≤ x ∧ x < ((a :: rs).getLast (List.cons_ne_nil a rs)).end := by
  obtain ⟨r, hr, hrx⟩ := hx
  constructor
  · rcases List.mem_cons.1 hr with rfl | hr
    · exact hrx.1
    · exact le_trans (le_of_lt ((List.pairwise_cons.1 h.starts).1 r hr)) hrx.1
  · -- the range holding `x` is the last one or ends before the last one starts
    have hsplit := List.dropLast_append_getLast (List.cons_ne_nil a rs)
    set last := (a :: rs).getLast (List.cons_ne_nil a rs)
    rw [← hsplit] at hr h
    rcases List.mem_append.1 hr with hr | hr
    · have hsorted := h.sorted
      rw [List.pairwise_append] at hsorted
      have hlast := h.nonempty last (List.mem_append_right _ List.mem_cons_self)
      calc x < r.end := hrx.2
        _ ≤ last.start := hsorted.2.2 r hr last List.mem_cons_self
        _ < last.end := hlast
    · rw [List.mem_singleton.1 hr] at hrx
      exact hrx.2

/-- Every range of a well-formed list ends at or before the last one ends. -/
theorem end_le_last {l : List (Range α)} {last x : Range α} (h : WellFormed (l ++ [last]))
    (hx : x ∈ l ++ [last]) : x.end ≤ last.end := by
  rcases List.mem_append.1 hx with hx | hx
  · exact le_trans ((List.pairwise_append.1 h.sorted).2.2 x hx last List.mem_cons_self)
      (h.nonempty last (List.mem_append_right _ List.mem_cons_self)).le
  · rw [List.mem_singleton.1 hx]

/-- A non-empty range that starts at or after the last one ends can follow it. -/
theorem snoc {l : List (Range α)} {last r : Range α} (h : WellFormed (l ++ [last]))
    (hr : r.start < r.end) (hle : last.end ≤ r.start) : WellFormed (l ++ [last] ++ [r]) := by
  refine ⟨fun x hx => ?_, List.pairwise_append.2 ⟨h.sorted, List.pairwise_singleton _ _,
    fun x hx y hy => ?_⟩⟩
  · rcases List.mem_append.1 hx with hx | hx
    · exact h.nonempty x hx
    · rw [List.mem_singleton.1 hx]
      exact hr
  · rw [List.mem_singleton.1 hy]
    exact le_trans (h.end_le_last hx) hle

/-- The last range of a well-formed list may end later. -/
theorem extend_last {l : List (Range α)} {s e e' : α} (h : WellFormed (l ++ [⟨s, e⟩]))
    (he : s < e') : WellFormed (l ++ [⟨s, e'⟩]) := by
  have hs := List.pairwise_append.1 h.sorted
  refine ⟨fun x hx => ?_, List.pairwise_append.2 ⟨hs.1, List.pairwise_singleton _ _,
    fun x hx y hy => ?_⟩⟩
  · rcases List.mem_append.1 hx with hx | hx
    · exact h.nonempty x (List.mem_append_left _ hx)
    · rw [List.mem_singleton.1 hx]
      exact he
  · rw [List.mem_singleton.1 hy]
    exact hs.2.2 x hx ⟨s, e⟩ List.mem_cons_self

end WellFormed

namespace Separated

variable {l : List (Range α)}

theorem snoc {last r : Range α} (h : Separated (l ++ [last])) (hwf : WellFormed (l ++ [last]))
    (hlt : last.end < r.start) : Separated (l ++ [last] ++ [r]) :=
  List.pairwise_append.2 ⟨h, List.pairwise_singleton _ _, fun x hx y hy => by
    rw [List.mem_singleton.1 hy]
    exact lt_of_le_of_lt (hwf.end_le_last hx) hlt⟩

theorem extend_last {s e e' : α} (h : Separated (l ++ [⟨s, e⟩])) :
    Separated (l ++ [⟨s, e'⟩]) := by
  have hs := List.pairwise_append.1 h
  refine List.pairwise_append.2 ⟨hs.1, List.pairwise_singleton _ _, fun x hx y hy => ?_⟩
  rw [List.mem_singleton.1 hy]
  exact hs.2.2 x hx ⟨s, e⟩ List.mem_cons_self

end Separated

/-! ## Coalescing touching ranges -/

/-- The ranges `cur :: rs` with each run of ranges that touch, each starting where the one
before it ends, coalesced into one range. -/
def coalesceFrom (cur : Range α) : List (Range α) → List (Range α)
  | [] => [cur]
  | r :: rs =>
    if cur.end = r.start then coalesceFrom ⟨cur.start, r.end⟩ rs else cur :: coalesceFrom r rs

/-- The ranges with each run of ranges that touch coalesced into one. -/
def coalesce : List (Range α) → List (Range α)
  | [] => []
  | r :: rs => coalesceFrom r rs

/-- Coalescing ranges that are not inverted keeps their keys. -/
theorem keys_coalesceFrom : ∀ {cur : Range α} {rs : List (Range α)}, cur.start ≤ cur.end →
    (∀ r ∈ rs, r.start ≤ r.end) → keys (coalesceFrom cur rs) = cur.toSet ∪ keys rs
  | cur, [], _, _ => by simp [coalesceFrom]
  | cur, r :: rs, hcur, hle => by
    have hr := hle r List.mem_cons_self
    have hrs : ∀ r ∈ rs, r.start ≤ r.end := fun r' h => hle r' (List.mem_cons_of_mem _ h)
    unfold coalesceFrom
    split
    · next htouch =>
      -- the run so far and `r` make one range
      have hend : cur.end ≤ r.end := htouch.trans_le hr
      have hunion : cur.toSet ∪ r.toSet = (⟨cur.start, r.end⟩ : Range α).toSet := by
        simp only [Range.toSet]
        rw [← htouch]
        exact Set.Ico_union_Ico_eq_Ico hcur hend
      rw [@keys_coalesceFrom ⟨cur.start, r.end⟩ rs (le_trans hcur hend) hrs, keys_cons,
        ← Set.union_assoc, hunion]
    · rw [keys_cons, keys_coalesceFrom hr hrs, keys_cons]

/-- Every range of a coalesced run starts at or after the run's first start. -/
theorem start_le_of_mem_coalesceFrom : ∀ {cur : Range α} {rs : List (Range α)},
    (∀ r ∈ rs, r.start ≤ r.end) → List.IsChain (fun a b => a.end ≤ b.start) (cur :: rs) →
    cur.start ≤ cur.end → ∀ p ∈ coalesceFrom cur rs, cur.start ≤ p.start
  | cur, [], _, _, _, p, hp => by simp [coalesceFrom] at hp; rw [hp]
  | cur, r :: rs, hle, hchain, hcur, p, hp => by
    rw [List.isChain_cons_cons] at hchain
    have hr := hle r List.mem_cons_self
    have hrs : ∀ r ∈ rs, r.start ≤ r.end := fun r' h => hle r' (List.mem_cons_of_mem _ h)
    unfold coalesceFrom at hp
    split at hp
    · next htouch =>
      have hchain' : List.IsChain (fun a b => a.end ≤ b.start)
          ((⟨cur.start, r.end⟩ : Range α) :: rs) := by
        cases rs with
        | nil => exact List.isChain_singleton _
        | cons s rs => exact List.isChain_cons_cons.2 ⟨(List.isChain_cons_cons.1 hchain.2).1,
            (List.isChain_cons_cons.1 hchain.2).2⟩
      exact @start_le_of_mem_coalesceFrom ⟨cur.start, r.end⟩ rs hrs hchain'
        (le_trans hcur (htouch.trans_le hr)) p hp
    · rcases List.mem_cons.1 hp with rfl | hp
      · exact le_rfl
      · exact le_trans hcur (le_trans hchain.1
          (start_le_of_mem_coalesceFrom hrs hchain.2 hr p hp))

/-- Ranges in order, none inverted, coalesce into ranges of which none touches the next. -/
theorem separated_coalesceFrom : ∀ {cur : Range α} {rs : List (Range α)},
    (∀ r ∈ rs, r.start ≤ r.end) → List.IsChain (fun a b => a.end ≤ b.start) (cur :: rs) →
    cur.start ≤ cur.end → Separated (coalesceFrom cur rs)
  | cur, [], _, _, _ => List.pairwise_singleton _ _
  | cur, r :: rs, hle, hchain, hcur => by
    have hchain' := hchain
    rw [List.isChain_cons_cons] at hchain'
    have hr := hle r List.mem_cons_self
    have hrs : ∀ r ∈ rs, r.start ≤ r.end := fun r' h => hle r' (List.mem_cons_of_mem _ h)
    unfold coalesceFrom
    split
    · next htouch =>
      have hchain'' : List.IsChain (fun a b => a.end ≤ b.start)
          ((⟨cur.start, r.end⟩ : Range α) :: rs) := by
        cases rs with
        | nil => exact List.isChain_singleton _
        | cons s rs => exact List.isChain_cons_cons.2 ⟨(List.isChain_cons_cons.1 hchain'.2).1,
            (List.isChain_cons_cons.1 hchain'.2).2⟩
      exact @separated_coalesceFrom ⟨cur.start, r.end⟩ rs hrs hchain''
        (le_trans hcur (htouch.trans_le hr))
    · next hgap =>
      -- the run closes strictly before `r`, and everything after starts at or after `r`
      refine List.pairwise_cons.2 ⟨fun p hp => ?_, separated_coalesceFrom hrs hchain'.2 hr⟩
      exact lt_of_lt_of_le (lt_of_le_of_ne hchain'.1 hgap)
        (start_le_of_mem_coalesceFrom hrs hchain'.2 hr p hp)

/-! ## Cutting a range into pieces -/

/-- The ranges follow one another from `s` to `t`, each starting where the one before
ends. -/
def Chains : α → List (Range α) → α → Prop
  | s, [], t => s = t
  | s, p :: ps, t => p.start = s ∧ Chains p.end ps t

omit [LinearOrder α] in
@[simp] theorem chains_nil {s t : α} : Chains s ([] : List (Range α)) t ↔ s = t := Iff.rfl

omit [LinearOrder α] in
theorem Chains.append : ∀ {s m t : α} {ps qs : List (Range α)},
    Chains s ps m → Chains m qs t → Chains s (ps ++ qs) t
  | _, _, _, [], _, hps, hqs => by rw [chains_nil.1 hps]; exact hqs
  | _, _, _, _ :: _, _, ⟨hs, hps⟩, hqs => ⟨hs, Chains.append hps hqs⟩

/-- Along a chain of ranges that are not inverted, every range lies between the two ends. -/
theorem Chains.bounds : ∀ {s t : α} {ps : List (Range α)}, Chains s ps t →
    (∀ p ∈ ps, p.start ≤ p.end) → s ≤ t ∧ ∀ p ∈ ps, s ≤ p.start ∧ p.end ≤ t
  | _, _, [], hps, _ => by simp [chains_nil.1 hps]
  | _, _, p :: ps, ⟨hs, hps⟩, hle => by
    have hp := hle p List.mem_cons_self
    obtain ⟨hend, hrest⟩ := hps.bounds fun q hq => hle q (List.mem_cons_of_mem _ hq)
    refine ⟨hs ▸ hp.trans hend, fun q hq => ?_⟩
    rcases List.mem_cons.1 hq with rfl | hq
    · exact ⟨hs.ge, hend⟩
    · exact ⟨(hs ▸ hp).trans (hrest q hq).1, (hrest q hq).2⟩

/-- `Cuts r ps`: the pieces `ps` cut `r` into non-empty ranges, in order. -/
def Cuts (r : Range α) (ps : List (Range α)) : Prop :=
  Chains r.start ps r.end ∧ ∀ p ∈ ps, p.start < p.end

namespace Cuts

variable {r : Range α} {ps : List (Range α)}

theorem bounds (h : Cuts r ps) : ∀ p ∈ ps, r.start ≤ p.start ∧ p.end ≤ r.end :=
  (h.1.bounds fun p hp => (h.2 p hp).le).2

/-- The pieces hold the keys of the range they cut. -/
theorem keys_eq (h : Cuts r ps) : keys ps = r.toSet := by
  obtain ⟨hchain, hne⟩ := h
  induction ps generalizing r with
  | nil => simp [Range.toSet, chains_nil.1 hchain]
  | cons p ps ih =>
    obtain ⟨hs, hrest⟩ := hchain
    have hcut : Cuts ⟨p.end, r.end⟩ ps := ⟨hrest, fun q hq => hne q (List.mem_cons_of_mem _ hq)⟩
    have hend : p.end ≤ r.end := (hrest.bounds fun q hq => (hcut.2 q hq).le).1
    rw [keys_cons, ih hcut.1 hcut.2]
    have hp := hne p List.mem_cons_self
    rw [hs] at hp
    simp only [Range.toSet]
    rw [hs]
    exact Set.Ico_union_Ico_eq_Ico hp.le hend

theorem wellFormed (h : Cuts r ps) : WellFormed ps := by
  obtain ⟨hchain, hne⟩ := h
  induction ps generalizing r with
  | nil => exact wellFormed_nil
  | cons p ps ih =>
    obtain ⟨-, hrest⟩ := hchain
    have hcut : Cuts ⟨p.end, r.end⟩ ps := ⟨hrest, fun q hq => hne q (List.mem_cons_of_mem _ hq)⟩
    -- the pieces after `p` start at or after its end
    exact wellFormed_cons.2 ⟨hne p List.mem_cons_self, fun q hq => (hcut.bounds q hq).1,
      ih hcut.1 hcut.2⟩

end Cuts

section Flatten

variable {β γ : Type} {P : β → List γ → Prop}

theorem exists_of_mem_flatten {xs : List β} {Ls : List (List γ)} (h : List.Forall₂ P xs Ls)
    {y : γ} (hy : y ∈ Ls.flatten) : ∃ x ∈ xs, ∃ ys, P x ys ∧ y ∈ ys := by
  induction h with
  | nil => simp at hy
  | @cons x ys xs Ls hxy _ ih =>
    rcases List.mem_append.1 hy with hy | hy
    · exact ⟨x, List.mem_cons_self, ys, hxy, hy⟩
    · obtain ⟨x', hx', ys', hP, hy'⟩ := ih hy
      exact ⟨x', List.mem_cons_of_mem _ hx', ys', hP, hy'⟩

end Flatten

section CutsAll

variable {rs : List (Range α)} {Ls : List (List (Range α))}

/-- Ranges each cut into pieces: the pieces, in order, hold the keys of the ranges. -/
theorem keys_flatten (h : List.Forall₂ Cuts rs Ls) : keys Ls.flatten = keys rs := by
  induction h with
  | nil => rfl
  | cons hcut _ ih => rw [List.flatten_cons, keys_append, ih, hcut.keys_eq, keys_cons]

/-- The ranges of a well-formed list each cut into pieces: the pieces, in order, make a
well-formed list. -/
theorem wellFormed_flatten (hrs : WellFormed rs) (h : List.Forall₂ Cuts rs Ls) :
    WellFormed Ls.flatten := by
  induction h with
  | nil => exact wellFormed_nil
  | @cons r ps rs Ls hcut hrest ih =>
    obtain ⟨-, hafter, hrs'⟩ := wellFormed_cons.1 hrs
    have hwf := hcut.wellFormed
    have hwf' := ih hrs'
    refine ⟨fun p hp => ?_, ?_⟩
    · rcases List.mem_append.1 hp with hp | hp
      · exact hwf.nonempty p hp
      · exact hwf'.nonempty p hp
    · rw [List.flatten_cons, List.pairwise_append]
      refine ⟨hwf.sorted, hwf'.sorted, fun p hp q hq => ?_⟩
      -- `p` ends inside `r`, and `q` starts inside a range after `r`
      obtain ⟨r', hr', ps', hcut', hq'⟩ := exists_of_mem_flatten hrest hq
      exact ((hcut.bounds p hp).2.trans (hafter r' hr')).trans (hcut'.bounds q hq').1

end CutsAll

end RangeList

end NeonStorage

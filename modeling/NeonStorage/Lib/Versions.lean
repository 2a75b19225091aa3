import Mathlib

/-!
# Versions of a value by LSN

A multi-version store keeps, for each key, the values written to it with the LSN of each write,
oldest first.  A reader at an LSN sees the versions at or below it (`upTo`), and a key that
holds whole values reads as its last visible one (`lastAt`).  A writer that collects its writes
before it commits them keeps one value per LSN: a write at the LSN of its last pending version
replaces that version, any other is appended (`putVersion`).

A write at a later LSN than every version is invisible to a reader at an earlier LSN
(`upTo_append_of_lt`, `upTo_append_of_above`), and a reader at an LSN at or above every version
sees them all (`upTo_of_below`).  A write keeps the versions that were there and adds its own
(`mem_putVersion`).  Versions kept in LSN order (`Ordered`) split at any LSN into those up to it
and those above (`upTo_eq_upTo_append_filter`), and a reader sees the same versions as one at
the LSN of the last version it sees (`upTo_eq_of_getLast`).  Nothing here refers to the
repository.
-/

namespace NeonStorage

namespace Versions

variable {V : Type*}

/-- A value written at the LSN of the last version replaces it; any other is appended. -/
def putVersion (vs : List (UInt64 × V)) (lsn : UInt64) (v : V) : List (UInt64 × V) :=
  match vs.getLast? with
  | some (last, _) => if last = lsn then vs.dropLast ++ [(lsn, v)] else vs ++ [(lsn, v)]
  | none => [(lsn, v)]

/-- The versions a reader at `lsn` sees. -/
def upTo (vs : List (UInt64 × V)) (lsn : UInt64) : List (UInt64 × V) :=
  vs.filter fun e => e.1 ≤ lsn

/-- The last version a reader at `lsn` sees. -/
def lastAt (vs : List (UInt64 × V)) (lsn : UInt64) : Option V :=
  (upTo vs lsn).getLast?.map Prod.snd

/-- Every version is at or below `lsn`. -/
def Below (vs : List (UInt64 × V)) (lsn : UInt64) : Prop :=
  ∀ e ∈ vs, e.1 ≤ lsn

/-- Every version is at or above `lsn`. -/
def Above (vs : List (UInt64 × V)) (lsn : UInt64) : Prop :=
  ∀ e ∈ vs, lsn ≤ e.1

/-- The versions are in LSN order. -/
def Ordered (vs : List (UInt64 × V)) : Prop :=
  vs.Pairwise fun a b => a.1 ≤ b.1

section Put

variable {vs : List (UInt64 × V)} {lsn : UInt64} {v : V}

/-- A write ends the versions with its value, whatever it replaced. -/
theorem exists_putVersion_eq_append (vs : List (UInt64 × V)) (lsn : UInt64) (v : V) :
    ∃ vs', putVersion vs lsn v = vs' ++ [(lsn, v)] := by
  unfold putVersion
  split
  · split
    · exact ⟨_, rfl⟩
    · exact ⟨_, rfl⟩
  · exact ⟨[], rfl⟩

/-- A write at an LSN other than that of the last version is appended. -/
theorem putVersion_of_ne (h : ∀ e ∈ vs.getLast?, e.1 ≠ lsn) :
    putVersion vs lsn v = vs ++ [(lsn, v)] := by
  unfold putVersion
  split
  · next last w hlast => rw [if_neg (h (last, w) hlast)]
  · next hnone => rw [List.getLast?_eq_none_iff.mp hnone, List.nil_append]

/-- A write keeps versions that were there, and adds its own. -/
theorem mem_putVersion {e : UInt64 × V} (he : e ∈ putVersion vs lsn v) : e ∈ vs ∨ e = (lsn, v) := by
  unfold putVersion at he
  split at he
  · split at he
    · rcases List.mem_append.mp he with he | he
      · exact .inl (List.dropLast_subset _ he)
      · exact .inr (List.mem_singleton.mp he)
    · rcases List.mem_append.mp he with he | he
      · exact .inl he
      · exact .inr (List.mem_singleton.mp he)
  · exact .inr (List.mem_singleton.mp he)

theorem Below.mono {lsn' : UInt64} (h : Below vs lsn) (hle : lsn ≤ lsn') : Below vs lsn' :=
  fun e he => UInt64.le_trans (h e he) hle

theorem Below.append {ws : List (UInt64 × V)} (h : Below vs lsn) (hw : Below ws lsn) :
    Below (vs ++ ws) lsn := by
  intro e he
  rcases List.mem_append.mp he with he | he
  · exact h e he
  · exact hw e he

theorem Below.putVersion (h : Below vs lsn) : Below (putVersion vs lsn v) lsn := by
  intro e he
  rcases mem_putVersion he with he | rfl
  · exact h e he
  · exact UInt64.le_refl lsn

@[simp] theorem above_nil (l : UInt64) : Above ([] : List (UInt64 × V)) l :=
  fun _ h => nomatch h

theorem Above.append {ws : List (UInt64 × V)} (h : Above vs lsn) (hw : Above ws lsn) :
    Above (vs ++ ws) lsn := by
  intro e he
  rcases List.mem_append.mp he with he | he
  · exact h e he
  · exact hw e he

theorem Above.mono {l l' : UInt64} (h : Above vs l) (hle : l' ≤ l) : Above vs l' :=
  fun e he => UInt64.le_trans hle (h e he)

/-- A write at or above `l` keeps every version at or above `l`. -/
theorem Above.putVersion {l : UInt64} (h : Above vs l) (hl : l ≤ lsn) :
    Above (putVersion vs lsn v) l := by
  intro e he
  rcases mem_putVersion he with he | rfl
  · exact h e he
  · exact hl

end Put

section Read

variable {vs ws : List (UInt64 × V)} {lsn : UInt64}

/-- A reader at or above every version sees them all. -/
theorem upTo_of_below (h : Below vs lsn) : upTo vs lsn = vs :=
  List.filter_eq_self.mpr fun e he => decide_eq_true (h e he)

/-- Versions written after `lsn` are invisible at `lsn`. -/
theorem upTo_append_of_lt (h : ∀ e ∈ ws, lsn < e.1) : upTo (vs ++ ws) lsn = upTo vs lsn := by
  have hnil : ws.filter (fun e => decide (e.1 ≤ lsn)) = [] :=
    List.filter_eq_nil_iff.mpr fun e he => by simpa using h e he
  rw [upTo, List.filter_append, hnil, List.append_nil]
  rfl

/-- Versions written at or above `l` are invisible below `l`. -/
theorem upTo_append_of_above {l : UInt64} (h : Above ws l) (hlt : lsn < l) :
    upTo (vs ++ ws) lsn = upTo vs lsn :=
  upTo_append_of_lt fun e he => UInt64.lt_of_lt_of_le hlt (h e he)

theorem lastAt_of_below (h : Below vs lsn) : lastAt vs lsn = vs.getLast?.map Prod.snd := by
  rw [lastAt, upTo_of_below h]

/-- A reader at the later of two LSNs sees all that a reader at either sees. -/
theorem lsn_le_max_left (a b : UInt64) : a ≤ max a b := by
  rw [UInt64.max_def]
  split
  · assumption
  · exact UInt64.le_refl a

theorem lsn_le_max_right (a b : UInt64) : b ≤ max a b := by
  rw [UInt64.max_def]
  split
  · exact UInt64.le_refl b
  · rename_i h
    exact UInt64.le_of_lt (UInt64.not_le.mp h)

end Read

section Order

variable {vs ws : List (UInt64 × V)} {lsn : UInt64} {v : V}

/-- A write ends the versions with its value, after some of those that were there. -/
theorem exists_putVersion_eq_append_sublist (vs : List (UInt64 × V)) (lsn : UInt64) (v : V) :
    ∃ vs', vs'.Sublist vs ∧ putVersion vs lsn v = vs' ++ [(lsn, v)] := by
  unfold putVersion
  split
  · split
    · exact ⟨_, List.dropLast_sublist vs, rfl⟩
    · exact ⟨_, List.Sublist.refl vs, rfl⟩
  · exact ⟨[], List.nil_sublist vs, rfl⟩

theorem Ordered.sublist (h : Ordered vs) (hs : ws.Sublist vs) : Ordered ws :=
  List.Pairwise.sublist hs h

theorem Ordered.upTo (h : Ordered vs) : Ordered (upTo vs lsn) :=
  h.sublist List.filter_sublist

/-- A write at or above every version keeps them in order. -/
theorem Ordered.append_putVersion (h : Ordered (ws ++ vs)) (hb : Below (ws ++ vs) lsn) :
    Ordered (ws ++ putVersion vs lsn v) := by
  obtain ⟨vs', hsub, hput⟩ := exists_putVersion_eq_append_sublist vs lsn v
  have hsub' : (ws ++ vs').Sublist (ws ++ vs) := hsub.append_left ws
  rw [hput, ← List.append_assoc]
  refine List.pairwise_append.mpr ⟨h.sublist hsub', List.pairwise_singleton _ _, ?_⟩
  intro a ha b hb'
  rw [List.mem_singleton.mp hb']
  exact hb a (hsub'.subset ha)

/-- A write at `lsn` keeps every version at or below `lsn`. -/
theorem Below.append_putVersion (h : Below (ws ++ vs) lsn) :
    Below (ws ++ Versions.putVersion vs lsn v) lsn := by
  intro e he
  rcases List.mem_append.mp he with he | he
  · exact h e (List.mem_append_left _ he)
  · exact (Below.putVersion fun e he => h e (List.mem_append_right _ he)) e he

/-- In order, the versions up to `r` are those up to an earlier `c` and then those above it. -/
theorem upTo_eq_upTo_append_filter (h : Ordered vs) {c r : UInt64} (hcr : c ≤ r) :
    upTo vs r = upTo vs c ++ (upTo vs r).filter fun e => c < e.1 := by
  induction vs with
  | nil => rfl
  | cons a rest ih =>
    rw [Ordered, List.pairwise_cons] at h
    obtain ⟨ha, hrest⟩ := h
    by_cases hac : a.1 ≤ c
    · -- `a` is at or below `c`: it starts both sides
      have har : a.1 ≤ r := UInt64.le_trans hac hcr
      simp only [Versions.upTo, List.filter_cons, decide_eq_true hac, decide_eq_true har, if_true,
        decide_eq_false (UInt64.not_lt.mpr hac), Bool.false_eq_true, if_false, List.cons_append]
      exact congrArg (a :: ·) (ih hrest)
    · -- `a` is above `c`, and so is every later version
      have hgt : ∀ e ∈ a :: rest, c < e.1 := by
        intro e he
        rcases List.mem_cons.mp he with rfl | he
        · exact UInt64.not_le.mp hac
        · exact UInt64.lt_of_lt_of_le (UInt64.not_le.mp hac) (ha e he)
      have hnil : upTo (a :: rest) c = [] :=
        List.filter_eq_nil_iff.mpr fun e he => by simpa using UInt64.not_le.mpr (hgt e he)
      rw [hnil, List.nil_append, eq_comm, List.filter_eq_self]
      intro e he
      exact decide_eq_true (hgt e (List.mem_of_mem_filter he))

/-- In order, a reader at the LSN of the last version it sees sees the same versions. -/
theorem upTo_eq_of_getLast (h : Ordered vs) {r : UInt64} {e : UInt64 × V}
    (hlast : (upTo vs r).getLast? = some e) : upTo vs e.1 = upTo vs r := by
  obtain ⟨init, hinit⟩ := List.getLast?_eq_some_iff.mp hlast
  have hord : Ordered (upTo vs r) := h.upTo
  rw [Ordered, hinit, List.pairwise_append] at hord
  have he : e ∈ upTo vs r := by
    rw [hinit]
    exact List.mem_append_right _ List.mem_cons_self
  have her : e.1 ≤ r := of_decide_eq_true (List.mem_filter.mp he).2
  refine List.filter_congr fun x hx => ?_
  by_cases hxr : x.1 ≤ r
  · -- every version up to `r` is at or below the last one
    have hxe : x.1 ≤ e.1 := by
      have hmem : x ∈ init ++ [e] := by
        rw [← hinit]
        exact List.mem_filter.mpr ⟨hx, decide_eq_true hxr⟩
      rcases List.mem_append.mp hmem with hx' | hx'
      · exact hord.2.2 x hx' e List.mem_cons_self
      · rw [List.mem_singleton.mp hx']
        exact UInt64.le_refl _
    simp [hxe, hxr]
  · have hxe : ¬x.1 ≤ e.1 := fun hxe => hxr (UInt64.le_trans hxe her)
    simp [hxe, hxr]

end Order

end Versions

end NeonStorage

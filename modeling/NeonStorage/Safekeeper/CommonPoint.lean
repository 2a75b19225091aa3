import NeonStorage.Lib.SortedMap
import NeonStorage.Safekeeper.State

/-!
# The divergence point of two term histories

When a proposer is elected it tells each safekeeper where to start streaming: the end of the
last term the proposer's history and the safekeeper's share.  The safekeeper truncates its WAL
there.  Two implementations compute this point.  The walproposer does it in C, in
`SendProposerElected` (`pgxn/neon/walproposer.c`).  Peer recovery uses the Rust
`TermHistory::find_highest_common_point` (`safekeeper/src/safekeeper.rs`), which the source
says is the C version.  Both walk the two histories while the terms agree.  They then take the
start of the next term, on each side, as the end of the common one.  The proposer's last term
extends to infinity and the safekeeper's ends at its WAL end.  The Rust function recognises the
last term by its index, the C one by comparing it with the proposer's term.

A term history assigns every WAL position the term of its last switch at or below it
(`termAt`).  The results here compare the point the code computes with that reading:

* `findHighestCommonPoint_spec`: the two histories give every position below the point the
  same term, unless the safekeeper knows a term above the proposer's last one; the point is
  the greatest such position when no term is empty; and the C computation agrees when the
  proposer's last term is its own;
* `findHighestCommonPoint_beyond_agreement`: both restrictions are needed.
-/

namespace NeonStorage

namespace TermHistory

/-- The loop of `find_highest_common_point` over the indices below both lengths, from index
`i` with the last common index found so far: it stops where the terms differ and asserts
that a common term starts at the same LSN in both histories. -/
def commonIdxLoop (i : Nat) (lastCommonIdx : Option Nat) :
    TermHistory → TermHistory → Except String (Option Nat)
  | p :: propTh, s :: skTh =>
    if p.term ≠ s.term then .ok lastCommonIdx
    else if p.lsn ≠ s.lsn then .error "same term has different start LSNs"
    else commonIdxLoop (i + 1) (some i) propTh skTh
  | _, _ => .ok lastCommonIdx

/-- `TermHistory::find_highest_common_point`: the last term the proposer's and the
safekeeper's histories share, with the LSN where its shared part ends. -/
def findHighestCommonPoint (propTh skTh : TermHistory) (skWalEnd : Nat) :
    Except String (Option TermLsn) := do
  (if skTh.getLast?.all fun skThLast => decide (skThLast.lsn ≤ skWalEnd) then pure ()
    else throw "safekeeper term history end LSN is higher than WAL end")
  let lastCommonIdx ← commonIdxLoop 0 none propTh skTh
  match lastCommonIdx with
  | none => pure none
  | some lci =>
    -- the end of the common term is the start of the next, except that the proposer's last
    -- term extends to infinity
    if lci = propTh.length - 1 then
      pure (some ⟨propTh[lci]!.term, skWalEnd⟩)
    else
      let propCommonTermEnd := propTh[lci + 1]!.lsn
      let skCommonTermEnd := if lci + 1 < skTh.length then skTh[lci + 1]!.lsn else skWalEnd
      pure (some ⟨propTh[lci]!.term, min propCommonTermEnd skCommonTermEnd⟩)

end TermHistory

namespace WalProposer

/-- The loop of `SendProposerElected`: the first index where the terms differ, or the smaller
length. -/
def divergenceIdx : TermHistory → TermHistory → Nat
  | p :: propTermHistory, s :: th =>
    if p.term ≠ s.term then 0 else divergenceIdx propTermHistory th + 1
  | _, _ => 0

/-- `sk->startStreamingAt` as `SendProposerElected` computes it from the proposer's history,
the safekeeper's history and flush LSN from its vote response, and the proposer's term.  The
`Assert`s, compiled only into debug builds, are not modelled. -/
def startStreamingAt (propTermHistory th : TermHistory) (propTerm flushLsn : Nat) : Nat :=
  let i := divergenceIdx propTermHistory th
  -- `i--` steps back to the last common term; below zero there is none
  if i = 0 then propTermHistory[0]!.lsn
  else
    let i := i - 1
    if propTermHistory[i]!.term = propTerm then flushLsn
    else
      let propEndLsn := propTermHistory[i + 1]!.lsn
      let skEndLsn := if i + 1 < th.length then th[i + 1]!.lsn else flushLsn
      min propEndLsn skEndLsn

end WalProposer

namespace TermHistory

/-! ## What a history says about the WAL -/

/-- A history as the protocol keeps it: terms strictly increase and LSNs do not decrease. -/
structure WellFormed (th : TermHistory) : Prop where
  terms : th.Pairwise fun a b => a.term < b.term
  lsns : th.Pairwise fun a b => a.lsn ≤ b.lsn

instance (th : TermHistory) : Decidable th.WellFormed :=
  decidable_of_iff (th.Pairwise (fun a b => a.term < b.term) ∧
    th.Pairwise (fun a b => a.lsn ≤ b.lsn)) ⟨fun h => ⟨h.1, h.2⟩, fun h => ⟨h.terms, h.lsns⟩⟩

/-- Equal terms at equal positions of the two histories start at equal LSNs. -/
def SameStarts (propTh skTh : TermHistory) : Prop :=
  ∀ e ∈ propTh.zip skTh, e.1.term = e.2.term → e.1.lsn = e.2.lsn

instance (propTh skTh : TermHistory) : Decidable (SameStarts propTh skTh) :=
  inferInstanceAs (Decidable (∀ e ∈ propTh.zip skTh, _))

/-- The switches the two histories share from their start. -/
def commonPrefix : TermHistory → TermHistory → TermHistory
  | p :: propTh, s :: skTh => if p = s then p :: commonPrefix propTh skTh else []
  | _, _ => []

/-- The term a history gives to WAL position `x`: that of its last switch at or below `x`. -/
def termAt (th : TermHistory) (x : Nat) : Option Nat :=
  SortedMap.lastValLE x none (th.map fun e => (e.lsn, some e.term))

/-- Both histories give WAL position `x` the same term; the safekeeper's gives none from its
WAL end on. -/
def SameTermAt (propTh skTh : TermHistory) (skWalEnd x : Nat) : Prop :=
  x < skWalEnd ∧ (termAt propTh x).isSome ∧ termAt skTh x = termAt propTh x

instance (propTh skTh : TermHistory) (skWalEnd x : Nat) :
    Decidable (SameTermAt propTh skTh skWalEnd x) :=
  inferInstanceAs (Decidable (_ ∧ _ ∧ _))

/-- Both histories give the same term to every WAL position from `start` up to `l`. -/
def SameTermsBelow (propTh skTh : TermHistory) (skWalEnd start l : Nat) : Prop :=
  ∀ x < l, start ≤ x → SameTermAt propTh skTh skWalEnd x

instance (propTh skTh : TermHistory) (skWalEnd start l : Nat) :
    Decidable (SameTermsBelow propTh skTh skWalEnd start l) :=
  inferInstanceAs (Decidable (∀ x < l, _))

/-! ## The reading of a history -/

theorem termAt_append_of_lt {a b : TermHistory} {x : Nat} (h : ∀ e ∈ b, x < e.lsn) :
    termAt (a ++ b) x = termAt a x := by
  simp only [termAt, List.map_append, SortedMap.lastValLE_append]
  exact SortedMap.lastValLE_of_forall_lt (by simpa using h) _

theorem termAt_append_singleton {a : TermHistory} {e : TermLsn} {x : Nat} (h : e.lsn ≤ x) :
    termAt (a ++ [e]) x = some e.term := by
  have he : ((e.lsn, some e.term) : Nat × Option Nat).1 ≤ x := h
  simp only [termAt, List.map_append, List.map_cons, List.map_nil, SortedMap.lastValLE_append,
    SortedMap.lastValLE_cons_of_le he, SortedMap.lastValLE_nil]

/-- A history gives a term to every position at or above one of its switches. -/
theorem termAt_isSome {th : TermHistory} {e : TermLsn} (he : e ∈ th) {x : Nat}
    (hx : e.lsn ≤ x) : (termAt th x).isSome := by
  -- past a switch at or below `x` the step function only moves to other switches' terms
  have after : ∀ (l : TermHistory) (d : Option Nat), d.isSome →
      (SortedMap.lastValLE x d (l.map fun e => (e.lsn, some e.term))).isSome := by
    intro l
    induction l with
    | nil => exact fun d hd => hd
    | cons e' l ih =>
      intro d hd
      rw [List.map_cons, SortedMap.lastValLE_cons]
      split
      · exact ih _ rfl
      · exact ih d hd
  obtain ⟨a, b, rfl⟩ := List.append_of_mem he
  rw [show a ++ e :: b = (a ++ [e]) ++ b by simp, termAt, List.map_append,
    SortedMap.lastValLE_append, ← termAt, termAt_append_singleton hx]
  exact after b _ rfl

/-- A history gives the term of its last switch to every position at or above it. -/
theorem termAt_of_getLast_le {th : TermHistory} (hth : th ≠ []) {x : Nat}
    (hx : (th.getLast hth).lsn ≤ x) : termAt th x = some (th.getLast hth).term := by
  conv => lhs; rw [← List.dropLast_append_getLast hth]
  exact termAt_append_singleton hx

/-- The switch that starts at `x` gives `x` its term when every later switch starts above. -/
theorem termAt_append_cons_self {C rest : TermHistory} {q : TermLsn}
    (hrest : ∀ e ∈ rest, q.lsn < e.lsn) : termAt (C ++ q :: rest) q.lsn = some q.term := by
  rw [show C ++ q :: rest = (C ++ [q]) ++ rest by simp, termAt_append_of_lt hrest,
    termAt_append_singleton le_rfl]

/-! ## The common part of two histories -/

section Split

variable {propTh skTh : TermHistory}

theorem sameStarts_cons {p s : TermLsn} {propTh skTh : TermHistory}
    (h : SameStarts (p :: propTh) (s :: skTh)) :
    (p.term = s.term → p.lsn = s.lsn) ∧ SameStarts propTh skTh :=
  ⟨h (p, s) (by simp), fun e he => h e (by simp [he])⟩

theorem termLsn_eq_iff {p s : TermLsn} : p = s ↔ p.term = s.term ∧ p.lsn = s.lsn := by
  cases p; cases s; simp

/-- Both histories are the common part followed by parts whose first switches are of
different terms. -/
theorem exists_split (h : SameStarts propTh skTh) :
    ∃ a b, propTh = commonPrefix propTh skTh ++ a ∧ skTh = commonPrefix propTh skTh ++ b ∧
      ∀ p ∈ a.head?, ∀ s ∈ b.head?, p.term ≠ s.term := by
  induction propTh generalizing skTh with
  | nil => exact ⟨[], skTh, rfl, by simp [commonPrefix], by simp⟩
  | cons p propTh ih =>
    cases skTh with
    | nil => exact ⟨p :: propTh, [], by simp [commonPrefix], rfl, by simp⟩
    | cons s skTh =>
      obtain ⟨hps, hrest⟩ := sameStarts_cons h
      by_cases hpeq : p = s
      · obtain ⟨a, b, ha, hb, hdiv⟩ := ih hrest
        subst hpeq
        refine ⟨a, b, ?_, ?_, hdiv⟩
        · simp only [commonPrefix, ↓reduceIte, List.cons_append]
          rw [← ha]
        · simp only [commonPrefix, ↓reduceIte, List.cons_append]
          rw [← hb]
      · -- the first switches differ, so their terms do: equal terms would start equally
        refine ⟨p :: propTh, s :: skTh, by simp [commonPrefix, hpeq],
          by simp [commonPrefix, hpeq], ?_⟩
        simp only [List.head?_cons, Option.mem_def, Option.some.injEq, forall_eq']
        exact fun hterm => hpeq (termLsn_eq_iff.mpr ⟨hterm, hps hterm⟩)

/-- The loop of `find_highest_common_point` finds the last switch of the common part. -/
theorem commonIdxLoop_eq (h : SameStarts propTh skTh) (i : Nat) (acc : Option Nat) :
    commonIdxLoop i acc propTh skTh =
      .ok (if commonPrefix propTh skTh = [] then acc
        else some (i + (commonPrefix propTh skTh).length - 1)) := by
  induction propTh generalizing skTh i acc with
  | nil => simp [commonIdxLoop, commonPrefix]
  | cons p propTh ih =>
    cases skTh with
    | nil => simp [commonIdxLoop, commonPrefix]
    | cons s skTh =>
      obtain ⟨hps, hrest⟩ := sameStarts_cons h
      by_cases hterm : p.term = s.term
      · have hpeq : p = s := termLsn_eq_iff.mpr ⟨hterm, hps hterm⟩
        subst hpeq
        rw [commonIdxLoop, if_neg (not_not.mpr rfl), if_neg (not_not.mpr rfl), ih hrest]
        simp only [commonPrefix, ↓reduceIte, reduceCtorEq, List.length_cons]
        split <;> simp_all
      · have hpne : p ≠ s := fun hpeq => hterm (hpeq ▸ rfl)
        simp [commonIdxLoop, commonPrefix, hterm, hpne]

/-- The loop of `SendProposerElected` stops right after the common part. -/
theorem divergenceIdx_eq (h : SameStarts propTh skTh) :
    WalProposer.divergenceIdx propTh skTh = (commonPrefix propTh skTh).length := by
  induction propTh generalizing skTh with
  | nil => simp [WalProposer.divergenceIdx, commonPrefix]
  | cons p propTh ih =>
    cases skTh with
    | nil => simp [WalProposer.divergenceIdx, commonPrefix]
    | cons s skTh =>
      obtain ⟨hps, hrest⟩ := sameStarts_cons h
      by_cases hterm : p.term = s.term
      · have hpeq : p = s := termLsn_eq_iff.mpr ⟨hterm, hps hterm⟩
        subst hpeq
        simp [WalProposer.divergenceIdx, commonPrefix, ih hrest]
      · have hpne : p ≠ s := fun hpeq => hterm (hpeq ▸ rfl)
        simp [WalProposer.divergenceIdx, commonPrefix, hterm, hpne]

end Split

theorem getElem!_append_length {α : Type} [Inhabited α] (C : List α) (q : α) (a : List α) :
    (C ++ q :: a)[C.length]! = q := by
  simp

theorem getElem!_append_length_sub_one {α : Type} [Inhabited α] {C : List α} (hC : C ≠ [])
    (a : List α) : (C ++ a)[C.length - 1]! = C.getLast hC := by
  have hlt : C.length - 1 < C.length := by
    have := List.length_pos_iff.mpr hC
    omega
  rw [List.getElem!_eq_getElem?_getD, List.getElem?_append_left hlt, List.getLast_eq_getElem,
    List.getElem?_eq_getElem hlt, Option.getD_some]

/-- Where the common part ends, read off what follows it: the proposer's next switch, and the
safekeeper's next switch or WAL end.  After the proposer's last switch only the safekeeper's
WAL end counts. -/
def commonEnd (a b : TermHistory) (skWalEnd : Nat) : Nat :=
  match a, b with
  | [], _ => skWalEnd
  | q :: _, [] => min q.lsn skWalEnd
  | q :: _, s :: _ => min q.lsn s.lsn

/-- What `find_highest_common_point` returns, in terms of the common part `C` and what
follows it. -/
theorem findHighestCommonPoint_eq_split {C a b : TermHistory} {skWalEnd : Nat}
    (hstarts : SameStarts (C ++ a) (C ++ b)) (hC : commonPrefix (C ++ a) (C ++ b) = C)
    (hend : ∀ last ∈ (C ++ b).getLast?, last.lsn ≤ skWalEnd) :
    findHighestCommonPoint (C ++ a) (C ++ b) skWalEnd =
      .ok (if hne : C = [] then none else some ⟨(C.getLast hne).term, commonEnd a b skWalEnd⟩) := by
  have hcheck : ((C ++ b).getLast?.all fun l => decide (l.lsn ≤ skWalEnd)) = true := by
    cases hl : (C ++ b).getLast? with
    | none => rfl
    | some l => simpa using hend l hl
  simp only [findHighestCommonPoint, hcheck, ↓reduceIte, commonIdxLoop_eq hstarts, hC,
    zero_add]
  by_cases hne : C = []
  · simp [hne, bind, Except.bind, pure, Except.pure]
  · simp only [hne, ↓reduceIte, bind, Except.bind, pure, Except.pure]
    rw [getElem!_append_length_sub_one hne]
    cases a with
    | nil => simp [commonEnd]
    | cons q a =>
      have hlen : C.length - 1 ≠ (C ++ q :: a).length - 1 := by
        have := List.length_pos_iff.mpr hne
        simp
        omega
      have hsucc : C.length - 1 + 1 = C.length := by
        have := List.length_pos_iff.mpr hne
        omega
      rw [if_neg hlen, hsucc, getElem!_append_length]
      cases b with
      | nil => simp [commonEnd]
      | cons s b => simp [commonEnd]

/-! ## The point against the reading of the histories -/

section Reading

variable {C a b : TermHistory} {skWalEnd : Nat}

/-- Along a history whose LSNs do not decrease, a switch starts at or below every later one. -/
theorem lsn_le_of_mem {R : TermLsn → TermLsn → Prop} {C rest : TermHistory} {q : TermLsn}
    (h : (C ++ q :: rest).Pairwise R) : ∀ e ∈ rest, R q e := by
  rw [List.pairwise_append, List.pairwise_cons] at h
  exact h.2.1.1

/-- Every switch of the common part comes before every switch after it. -/
theorem rel_getLast_of_mem {R : TermLsn → TermLsn → Prop} (hne : C ≠ [])
    (h : (C ++ a).Pairwise R) : ∀ e ∈ a, R (C.getLast hne) e := by
  rw [List.pairwise_append] at h
  exact h.2.2 _ (List.getLast_mem hne)

theorem commonEnd_cons_le (q : TermLsn) (a b : TermHistory) (skWalEnd : Nat) :
    commonEnd (q :: a) b skWalEnd ≤ q.lsn := by
  cases b <;> exact min_le_left _ _

theorem commonEnd_le (hwal : ∀ e ∈ C ++ b, e.lsn ≤ skWalEnd) :
    commonEnd a b skWalEnd ≤ skWalEnd := by
  match a, b with
  | [], _ => exact le_rfl
  | q :: _, [] => exact min_le_right _ _
  | q :: _, s :: _ => exact le_trans (min_le_right _ _) (hwal s (by simp))

/-- Every position from the start of the common part up to the point lies in the common part
in both histories, so both give it the same term.  When the proposer's last switch is common
the safekeeper must have no later switch (`hb`): its WAL would then end past a term the
proposer does not know. -/
theorem sameTermsBelow_commonEnd (hp : (C ++ a).WellFormed) (hs : (C ++ b).WellFormed)
    (hne : C ≠ []) (hwal : ∀ e ∈ C ++ b, e.lsn ≤ skWalEnd) (hb : a = [] → b = []) :
    SameTermsBelow (C ++ a) (C ++ b) skWalEnd (C.head hne).lsn (commonEnd a b skWalEnd) := by
  intro x hx hstart
  -- what follows the common part starts above `x` in both histories
  have hpa : ∀ e ∈ a, x < e.lsn := by
    match a, b, hx with
    | [], _, _ => simp
    | q :: a, _, hx =>
      have hq : x < q.lsn := lt_of_lt_of_le hx (commonEnd_cons_le q a _ skWalEnd)
      intro e he
      rcases List.mem_cons.mp he with rfl | he
      · exact hq
      · exact lt_of_lt_of_le hq (lsn_le_of_mem hp.lsns e he)
  have hsb : ∀ e ∈ b, x < e.lsn := by
    match a, b, hx, hb with
    | [], _, _, hb => simp [hb rfl]
    | _ :: _, [], _, _ => simp
    | q :: _, s :: b, hx, _ =>
      have hs' : x < s.lsn := lt_of_lt_of_le hx (min_le_right _ _)
      intro e he
      rcases List.mem_cons.mp he with rfl | he
      · exact hs'
      · exact lt_of_lt_of_le hs' (lsn_le_of_mem hs.lsns e he)
  refine ⟨lt_of_lt_of_le hx (commonEnd_le hwal), ?_, ?_⟩
  · rw [termAt_append_of_lt hpa]
    exact termAt_isSome (List.head_mem hne) hstart
  · rw [termAt_append_of_lt hpa, termAt_append_of_lt hsb]

/-- Without empty terms the histories already differ at the point: one of them has switched
to a term the other does not give it, or the safekeeper's WAL ends there. -/
theorem not_sameTermAt_commonEnd (hp : (C ++ a).WellFormed) (hs : (C ++ b).WellFormed)
    (hne : C ≠ []) (hpstrict : (C ++ a).Pairwise fun e e' => e.lsn < e'.lsn)
    (hsstrict : (C ++ b).Pairwise fun e e' => e.lsn < e'.lsn)
    (hdiv : ∀ p ∈ a.head?, ∀ s ∈ b.head?, p.term ≠ s.term) :
    ¬ SameTermAt (C ++ a) (C ++ b) skWalEnd (commonEnd a b skWalEnd) := by
  rintro ⟨hlt, -, hsame⟩
  match a, b, hp, hs, hpstrict, hsstrict, hdiv, hlt, hsame with
  | [], _, _, _, _, _, _, hlt, _ => exact lt_irrefl _ hlt
  | q :: a, [], hp, _, hpstrict, _, _, hlt, hsame =>
    simp only [commonEnd] at hlt hsame
    by_cases hq : q.lsn < skWalEnd
    · -- the proposer switches to `q` there, the safekeeper stays in the common term
      rw [min_eq_left hq.le, termAt_append_cons_self (lsn_le_of_mem hpstrict), List.append_nil,
        termAt_of_getLast_le hne (rel_getLast_of_mem hne hp.lsns q (by simp))] at hsame
      exact (rel_getLast_of_mem hne hp.terms q (by simp)).ne (Option.some.inj hsame)
    · rw [min_eq_right (not_lt.mp hq)] at hlt
      exact lt_irrefl _ hlt
  | q :: a, s :: b, hp, hs, hpstrict, hsstrict, hdiv, _, hsame =>
    have hqs : q.term ≠ s.term := hdiv q rfl s rfl
    simp only [commonEnd] at hsame
    rcases lt_trichotomy q.lsn s.lsn with h | h | h
    · rw [min_eq_left h.le, termAt_append_cons_self (lsn_le_of_mem hpstrict),
        termAt_append_of_lt (fun e he => ?_),
        termAt_of_getLast_le hne (rel_getLast_of_mem hne hp.lsns q (by simp))] at hsame
      · exact (rel_getLast_of_mem hne hp.terms q (by simp)).ne (Option.some.inj hsame)
      · rcases List.mem_cons.mp he with rfl | he
        · exact h
        · exact lt_trans h (lsn_le_of_mem hsstrict e he)
    · rw [min_eq_left h.le, termAt_append_cons_self (lsn_le_of_mem hpstrict), h,
        termAt_append_cons_self (lsn_le_of_mem hsstrict)] at hsame
      exact hqs (Option.some.inj hsame).symm
    · rw [min_eq_right h.le, termAt_append_cons_self (lsn_le_of_mem hsstrict),
        termAt_append_of_lt (fun e he => ?_),
        termAt_of_getLast_le hne (rel_getLast_of_mem hne hs.lsns s (by simp))] at hsame
      · exact (rel_getLast_of_mem hne hs.terms s (by simp)).ne (Option.some.inj hsame).symm
      · rcases List.mem_cons.mp he with rfl | he
        · exact h
        · exact lt_trans h (lsn_le_of_mem hpstrict e he)

/-- `SendProposerElected` computes the same point when the proposer's last term is its own:
the last common term is then the proposer's exactly when it is its last. -/
theorem startStreamingAt_eq_split {propTerm : Nat} (hp : (C ++ a).WellFormed)
    (hstarts : SameStarts (C ++ a) (C ++ b)) (hC : commonPrefix (C ++ a) (C ++ b) = C)
    (hne : C ≠ []) (hlast : (C ++ a).getLast?.map (·.term) = some propTerm) :
    WalProposer.startStreamingAt (C ++ a) (C ++ b) propTerm skWalEnd = commonEnd a b skWalEnd := by
  have hpos := List.length_pos_iff.mpr hne
  simp only [WalProposer.startStreamingAt, divergenceIdx_eq hstarts, hC,
    Nat.pos_iff_ne_zero.mp hpos, ↓reduceIte, getElem!_append_length_sub_one hne]
  have hsucc : C.length - 1 + 1 = C.length := by omega
  match a, b, hp, hlast with
  | [], _, _, hlast =>
    simp only [List.append_nil, List.getLast?_eq_some_getLast hne, Option.map_some,
      Option.some.injEq] at hlast
    simp [hlast, commonEnd]
  | q :: a, b, hp, hlast =>
    -- the proposer's last term lies above the common one, so the C test fails
    have hlt : (C.getLast hne).term < propTerm := by
      have hmem : ((C ++ q :: a).getLast (by simp)) ∈ q :: a := by
        rw [List.getLast_append_of_ne_nil (by simp)]
        exact List.getLast_mem (by simp)
      rw [List.getLast?_eq_some_getLast (by simp), Option.map_some, Option.some.injEq] at hlast
      exact hlast ▸ rel_getLast_of_mem hne hp.terms _ hmem
    rw [if_neg hlt.ne, hsucc, getElem!_append_length]
    cases b with
    | nil => simp [commonEnd]
    | cons s b => simp [commonEnd]

end Reading

/-- The histories share nothing exactly when one is empty or their first terms differ. -/
theorem commonPrefix_eq_nil_iff {propTh skTh : TermHistory} (h : SameStarts propTh skTh) :
    commonPrefix propTh skTh = [] ↔
      propTh = [] ∨ skTh = [] ∨ propTh.head?.map (·.term) ≠ skTh.head?.map (·.term) := by
  match propTh, skTh, h with
  | [], _, _ => simp [commonPrefix]
  | _ :: _, [], _ => simp [commonPrefix]
  | p :: _, s :: _, h =>
    have hps := (sameStarts_cons h).1
    by_cases hpeq : p = s
    · subst hpeq
      simp [commonPrefix]
    · have hterm : p.term ≠ s.term := fun ht => hpeq (termLsn_eq_iff.mpr ⟨ht, hps ht⟩)
      simp [commonPrefix, hpeq, hterm]

/-- A safekeeper's switches all start at or below its WAL end. -/
theorem lsn_le_walEnd {th : TermHistory} {skWalEnd : Nat} (hs : th.WellFormed)
    (hend : ∀ last ∈ th.getLast?, last.lsn ≤ skWalEnd) : ∀ e ∈ th, e.lsn ≤ skWalEnd := by
  intro e he
  have hne : th ≠ [] := List.ne_nil_of_mem he
  have hlast := hend _ (List.getLast?_eq_some_getLast hne)
  rw [← List.dropLast_append_getLast hne] at he hs
  rcases List.mem_append.mp he with he | he
  · exact le_trans (List.pairwise_append.mp hs.lsns |>.2.2 e he _ (List.mem_singleton_self _))
      hlast
  · rw [List.mem_singleton.mp he]
    exact hlast

/-- `find_highest_common_point` on histories as the protocol keeps them: it never panics; it
finds no point exactly when one history is empty or their first terms differ; and otherwise
it returns the last common term with an LSN such that
* the two histories give the same term to every WAL position from their start up to it,
  provided no switch of the safekeeper is to a term above the proposer's last;
* the histories already differ at it when no term of either is empty;
* `SendProposerElected` computes the same LSN when the proposer's last term is its own. -/
theorem findHighestCommonPoint_spec {propTh skTh : TermHistory} {skWalEnd : Nat}
    (hp : propTh.WellFormed) (hs : skTh.WellFormed) (hstarts : SameStarts propTh skTh)
    (hend : ∀ last ∈ skTh.getLast?, last.lsn ≤ skWalEnd) :
    ∃ r, findHighestCommonPoint propTh skTh skWalEnd = .ok r ∧
      (r = none ↔ propTh = [] ∨ skTh = [] ∨
        propTh.head?.map (·.term) ≠ skTh.head?.map (·.term)) ∧
      ∀ tl ∈ r, (commonPrefix propTh skTh).getLast?.map (·.term) = some tl.term ∧
        ∀ first ∈ propTh.head?,
          ((∀ s ∈ skTh, ∀ last ∈ propTh.getLast?, s.term ≤ last.term) →
            SameTermsBelow propTh skTh skWalEnd first.lsn tl.lsn) ∧
          (propTh.Pairwise (fun e e' => e.lsn < e'.lsn) →
            skTh.Pairwise (fun e e' => e.lsn < e'.lsn) →
            ¬ SameTermAt propTh skTh skWalEnd tl.lsn) ∧
          ∀ propTerm ∈ propTh.getLast?.map (·.term),
            WalProposer.startStreamingAt propTh skTh propTerm skWalEnd = tl.lsn := by
  have hnil := commonPrefix_eq_nil_iff hstarts
  have hwal := lsn_le_walEnd hs hend
  obtain ⟨a, b, ha, hb, hdiv⟩ := exists_split hstarts
  generalize hC : commonPrefix propTh skTh = C at ha hb hnil
  subst ha hb
  refine ⟨_, findHighestCommonPoint_eq_split hstarts hC hend, ?_, ?_⟩
  · rw [← hnil]
    by_cases hne : C = [] <;> simp [hne]
  · intro tl htl
    by_cases hne : C = []
    · simp [hne] at htl
    simp only [hne, dite_false, Option.mem_def, Option.some.injEq] at htl
    subst htl
    refine ⟨by simp [List.getLast?_eq_some_getLast hne], fun first hfirst => ⟨?_, ?_, ?_⟩⟩
    · intro habove
      have hfirst' : first = C.head hne := by
        simpa [List.head?_append, List.head?_eq_some_head hne] using hfirst.symm
      -- a safekeeper switch after the proposer's last would be to a higher term
      have hb' : a = [] → b = [] := by
        rintro rfl
        match b, hs, habove with
        | [], _, _ => rfl
        | s :: b, hs, habove =>
          have hle := habove s (by simp) (C.getLast hne)
            (by simp [List.getLast?_eq_some_getLast hne])
          exact absurd hle (not_le.mpr (rel_getLast_of_mem hne hs.terms s (by simp)))
      rw [hfirst']
      exact sameTermsBelow_commonEnd hp hs hne hwal hb'
    · exact fun hps hss => not_sameTermAt_commonEnd hp hs hne hps hss hdiv
    · exact fun propTerm hpt => startStreamingAt_eq_split hp hstarts hC hne hpt

/-- The test `test_find_highest_common_point_middle`: the safekeeper ends the last common term,
2, at 30, where it switched to term 3. -/
theorem findHighestCommonPoint_spec_middle :
    let propTh : TermHistory := [⟨1, 10⟩, ⟨2, 20⟩, ⟨4, 40⟩]
    let skTh : TermHistory := [⟨1, 10⟩, ⟨2, 20⟩, ⟨3, 30⟩]
    propTh.WellFormed ∧ skTh.WellFormed ∧ SameStarts propTh skTh ∧
      (∀ last ∈ skTh.getLast?, last.lsn ≤ 40) ∧
      findHighestCommonPoint propTh skTh 40 = .ok (some ⟨2, 30⟩) ∧
      ∃ r, findHighestCommonPoint propTh skTh 40 = .ok r ∧
        (r = none ↔ propTh = [] ∨ skTh = [] ∨
          propTh.head?.map (·.term) ≠ skTh.head?.map (·.term)) ∧
        ∀ tl ∈ r, (commonPrefix propTh skTh).getLast?.map (·.term) = some tl.term ∧
          ∀ first ∈ propTh.head?,
            ((∀ s ∈ skTh, ∀ last ∈ propTh.getLast?, s.term ≤ last.term) →
              SameTermsBelow propTh skTh 40 first.lsn tl.lsn) ∧
            (propTh.Pairwise (fun e e' => e.lsn < e'.lsn) →
              skTh.Pairwise (fun e e' => e.lsn < e'.lsn) →
              ¬ SameTermAt propTh skTh 40 tl.lsn) ∧
            ∀ propTerm ∈ propTh.getLast?.map (·.term),
              WalProposer.startStreamingAt propTh skTh propTerm 40 = tl.lsn :=
  ⟨by decide, by decide, by decide, by decide, by decide,
    findHighestCommonPoint_spec (by decide) (by decide) (by decide) (by decide)⟩

/-- Both restrictions of `findHighestCommonPoint_spec` are needed.  With a safekeeper switch to
a term above the proposer's last, the point is the safekeeper's WAL end, past positions the
histories give different terms.  With empty terms 2 and 3 that the two histories both follow
by term 4 at 20, the point is 20, below positions they agree on. -/
theorem findHighestCommonPoint_beyond_agreement :
    findHighestCommonPoint [⟨1, 10⟩] [⟨1, 10⟩, ⟨2, 20⟩] 30 = .ok (some ⟨1, 30⟩) ∧
      ¬ SameTermsBelow [⟨1, 10⟩] [⟨1, 10⟩, ⟨2, 20⟩] 30 10 30 ∧
      findHighestCommonPoint [⟨1, 10⟩, ⟨2, 20⟩, ⟨4, 20⟩] [⟨1, 10⟩, ⟨3, 20⟩, ⟨4, 20⟩] 30 =
        .ok (some ⟨1, 20⟩) ∧
      SameTermsBelow [⟨1, 10⟩, ⟨2, 20⟩, ⟨4, 20⟩] [⟨1, 10⟩, ⟨3, 20⟩, ⟨4, 20⟩] 30 10 30 := by
  decide

end TermHistory

end NeonStorage

import NeonStorage.AttachmentService.Scheduler
import NeonStorage.Lib.EStateM

/-!
# Tenant shards: placement policy, observed locations and scheduling

A `TenantState` (`tenant_state.rs`) holds a shard's placement policy, its intent and what the
service last observed on each pageserver.  `schedule` brings the intent in line with the policy,
through the intent mutators of `Scheduler.lean`; it takes `&mut self` and a `&mut Scheduler`
and returns early with `?`, so it is a function to an `EStateM.Result` over the pair, which
keeps the changes made before an error.

`schedule_keeps` says that `schedule` keeps the scheduler's counts honest for an intent that
names no node twice and only nodes the scheduler knows, whether it succeeds or fails.
`intent_from_observed` and `deref_node` rewrite the intent without calling the scheduler;
`refs_derefNode` says exactly which references the second one drops.
-/

namespace NeonStorage.AttachmentService

inductive PlacementPolicy where
  | single
  | double (secondaryCount : ℕ)
  | detached
deriving DecidableEq, Repr

inductive LocationConfigMode where
  | attachedSingle
  | attachedMulti
  | attachedStale
  | secondary
  | detached
deriving DecidableEq, Repr

/-- The part of a `LocationConfig` that `intent_from_observed` reads. -/
structure LocationConfig where
  mode : LocationConfigMode
  /-- `Option<u32>`. -/
  generation : Option ℕ
deriving DecidableEq, Repr

/-- The part of a `TenantState` that scheduling reads and writes.  `observed` maps a node to
the `conf` of its `ObservedStateLocation`, `none` meaning unknown. -/
structure TenantState where
  tenantShardId : TenantShardId
  policy : PlacementPolicy
  intent : IntentState
  observed : SortedMap NodeId (Option LocationConfig)
  sequence : ℕ

namespace TenantState

/-- The key of `sort_by_key` on a generation: `Option`'s order, `None` first. -/
def generationKey : Option ℕ → ℕ
  | none => 0
  | some g => g + 1

/-- `TenantState::intent_from_observed`: the observed attached location with the highest
generation becomes the attached node, and every other observed node a secondary.  The
scheduler is not told. -/
def intentFromObserved (self : TenantState) : TenantState :=
  let attachedLocs := self.observed.entries.filterMap fun (nodeId, l) =>
    match l with
    | some conf =>
      if conf.mode = .attachedMulti ∨ conf.mode = .attachedSingle ∨ conf.mode = .attachedStale
      then some (nodeId, conf.generation)
      else none
    | none => none
  -- `sort_by_key` is stable, and so is the insertion sort
  let attachedLocs := attachedLocs.insertionSort fun a b => generationKey a.2 ≤ generationKey b.2
  let attached := match attachedLocs.getLast? with
    | some (nodeId, _) => some nodeId
    | none => self.intent.attached
  let secondary := self.observed.keys.foldl
    (fun secondary nodeId => if some nodeId ≠ attached then secondary ++ [nodeId] else secondary)
    self.intent.secondary
  { self with intent := ⟨attached, secondary⟩ }

/-- The pair a scheduling method mutates. -/
abbrev Placement := TenantState × Scheduler

/-- `TenantState::schedule_attached`: whether the intent changed, and the attached node. -/
def scheduleAttached (self : TenantState) (scheduler : Scheduler) :
    EStateM.Result ScheduleError Placement (Bool × NodeId) :=
  match self.intent.attached with
  | some nodeId => .ok (false, nodeId) (self, scheduler)
  | none =>
    match scheduler.nodePreferred self.intent.secondary with
    | some promoteSecondary =>
      let r := self.intent.promoteAttached scheduler promoteSecondary
      .ok (true, promoteSecondary) ({ self with intent := r.1 }, r.2)
    | none =>
      -- Pick a fresh node: there were no secondaries, or none was schedulable.
      match scheduler.scheduleShard self.intent.secondary with
      | .error e => .error e (self, scheduler)
      | .ok nodeId =>
        let r := self.intent.setAttached scheduler (some nodeId)
        .ok (true, nodeId) ({ self with intent := r.1 }, r.2)

/-- The `while` loop of the `Double` branch of `schedule`.  A pass adds one secondary, so the
loop makes `secondary_count - len` passes unless `schedule_shard` fails; `passes` counts those
still to make.  Each node picked is excluded from the later passes, beside the attached node. -/
def pushSecondaries (usedPageservers : List NodeId) :
    ℕ → TenantState → Scheduler → EStateM.Result ScheduleError Placement Unit
  | 0, self, scheduler => .ok () (self, scheduler)
  | passes + 1, self, scheduler =>
    match scheduler.scheduleShard usedPageservers with
    | .error e => .error e (self, scheduler)
    | .ok nodeId =>
      let r := self.intent.pushSecondary scheduler nodeId
      pushSecondaries (usedPageservers ++ [nodeId]) passes { self with intent := r.1 } r.2

/-- The end of `schedule`: the sequence moves on if the intent changed. -/
def bumpIf (self : TenantState) (modified : Bool) : TenantState :=
  if modified then { self with sequence := self.sequence + 1 } else self

/-- `TenantState::schedule`. -/
def schedule (self : TenantState) (scheduler : Scheduler) :
    EStateM.Result ScheduleError Placement Unit :=
  match self.policy with
  | .single =>
    -- One attached location, no secondaries.
    match self.scheduleAttached scheduler with
    | .error e st => .error e st
    | .ok (modifiedAttached, _) (self, scheduler) =>
      if !self.intent.secondary.isEmpty then
        let r := self.intent.clearSecondary scheduler
        .ok () ({ self with intent := r.1 }.bumpIf true, r.2)
      else .ok () (self.bumpIf modifiedAttached, scheduler)
  | .double secondaryCount =>
    -- One attached location, and `secondaryCount` secondaries.
    match self.scheduleAttached scheduler with
    | .error e st => .error e st
    | .ok (modifiedAttached, attachedNodeId) (self, scheduler) =>
      let passes := secondaryCount - self.intent.secondary.length
      match pushSecondaries [attachedNodeId] passes self scheduler with
      | .error e st => .error e st
      | .ok () (self, scheduler) =>
        .ok () (self.bumpIf (modifiedAttached || passes ≠ 0), scheduler)
  | .detached =>
    -- No attached location, no secondaries.
    let modifiedAttached := self.intent.attached.isSome
    let r := if modifiedAttached then self.intent.setAttached scheduler none
      else (self.intent, scheduler)
    let self := { self with intent := r.1 }
    if !self.intent.secondary.isEmpty then
      let r' := self.intent.clearSecondary r.2
      .ok () ({ self with intent := r'.1 }.bumpIf true, r'.2)
    else .ok () (self.bumpIf modifiedAttached, r.2)

/-- `TenantState::deref_node`: forget a node without calling the scheduler. -/
def derefNode (self : TenantState) (nodeId : NodeId) : TenantState :=
  { self with
    intent :=
      ⟨if self.intent.attached = some nodeId then none else self.intent.attached,
        self.intent.secondary.filter (· ≠ nodeId)⟩
    observed := self.observed.erase nodeId }

@[simp] theorem bumpIf_intent (self : TenantState) (modified : Bool) :
    (self.bumpIf modified).intent = self.intent := by
  cases modified <;> rfl

@[simp] theorem bumpIf_policy (self : TenantState) (modified : Bool) :
    (self.bumpIf modified).policy = self.policy := by
  cases modified <;> rfl

@[simp] theorem bumpIf_tenantShardId (self : TenantState) (modified : Bool) :
    (self.bumpIf modified).tenantShardId = self.tenantShardId := by
  cases modified <;> rfl

/-! ## Scheduling keeps the counts -/

/-- What a scheduling step guarantees about the pair it runs on: the counts stay honest, and
the shard keeps its id, policy and observations. -/
structure Keeps (p p' : Placement) : Prop where
  balanced : Balanced p.2 p.1.intent p'.2 p'.1.intent
  tenantShardId : p'.1.tenantShardId = p.1.tenantShardId
  policy : p'.1.policy = p.1.policy

theorem Keeps.trans {p p₁ p₂ : Placement} (h₁ : Keeps p p₁) (h₂ : Keeps p₁ p₂) : Keeps p p₂ :=
  ⟨h₁.balanced.trans h₂.balanced, h₂.tenantShardId.trans h₁.tenantShardId,
    h₂.policy.trans h₁.policy⟩

theorem Keeps.refl {p : Placement} (h : p.1.intent.Known p.2) : Keeps p p :=
  ⟨Balanced.refl h, rfl, rfl⟩

/-- An intent mutator run on a shard keeps it. -/
theorem keeps_of_balanced (self : TenantState) {scheduler : Scheduler}
    {r : IntentState × Scheduler} (h : Balanced scheduler self.intent r.2 r.1) :
    Keeps (self, scheduler) ({ self with intent := r.1 }, r.2) :=
  ⟨h, rfl, rfl⟩

theorem Keeps.bumpIf {p : Placement} {self : TenantState} {scheduler : Scheduler}
    (h : Keeps p (self, scheduler)) (modified : Bool) :
    Keeps p (self.bumpIf modified, scheduler) :=
  ⟨by simpa using h.balanced, by simpa using h.tenantShardId, by simpa using h.policy⟩

/-- A node named once in a list without duplicates. -/
theorem count_eq_one_of_nodup {l : List NodeId} {n : NodeId} (hl : l.Nodup) (hn : n ∈ l) :
    l.count n = 1 :=
  List.count_eq_one_of_mem hl hn

theorem scheduleAttached_keeps {self : TenantState} {scheduler : Scheduler}
    (hknown : self.intent.Known scheduler) (hdup : self.intent.NoDuplicates) :
    Keeps (self, scheduler) (self.scheduleAttached scheduler).state := by
  unfold scheduleAttached
  split
  · exact Keeps.refl hknown
  · rename_i hatt
    split
    · rename_i p hp
      -- A promoted secondary is named once, since the intent has no duplicates.
      have hsec : self.intent.secondary.Nodup := by
        have : self.intent.allPageservers = self.intent.secondary := by
          simp [IntentState.allPageservers, hatt]
        exact this ▸ hdup
      exact keeps_of_balanced _ (IntentState.promoteAttached_balanced hknown p hatt
        (count_eq_one_of_nodup hsec (Scheduler.nodePreferred_mem hp)))
    · split
      · exact Keeps.refl hknown
      · rename_i n hn
        exact keeps_of_balanced _ (IntentState.setAttached_balanced hknown (some n)
          (fun m hm => (Option.mem_some_iff.mp hm) ▸ (Scheduler.scheduleShard_mem hn).1))

theorem pushSecondaries_keeps (used : List NodeId) (passes : ℕ) :
    ∀ {self : TenantState} {scheduler : Scheduler}, self.intent.Known scheduler →
      Keeps (self, scheduler) (pushSecondaries used passes self scheduler).state := by
  induction passes generalizing used with
  | zero => intro self scheduler hknown; exact Keeps.refl hknown
  | succ passes ih =>
    intro self scheduler hknown
    unfold pushSecondaries
    split
    · exact Keeps.refl hknown
    · rename_i n hn
      -- One pass pushes a known node; the rest of the loop runs from there.
      have hpush := keeps_of_balanced self
        (IntentState.pushSecondary_balanced hknown n (Scheduler.scheduleShard_mem hn).1)
      exact hpush.trans (ih (used ++ [n]) hpush.balanced.known)

/-- `schedule` keeps the counts honest, whether it succeeds or fails, for an intent that names
only known nodes and none twice. -/
theorem schedule_keeps {self : TenantState} {scheduler : Scheduler}
    (hknown : self.intent.Known scheduler) (hdup : self.intent.NoDuplicates) :
    Keeps (self, scheduler) (self.schedule scheduler).state := by
  have hatt := scheduleAttached_keeps hknown hdup
  unfold schedule
  split
  · split
    · rename_i e st hst
      simpa [hst] using hatt
    · rename_i modified n self' scheduler' hst
      rw [hst] at hatt
      split
      · exact (hatt.trans (keeps_of_balanced _
          (IntentState.clearSecondary_balanced hatt.balanced.known))).bumpIf true
      · exact hatt.bumpIf modified
  · rename_i k _
    split
    · rename_i e st hst
      simpa [hst] using hatt
    · rename_i modified n self' scheduler' hst
      rw [hst, EStateM.Result.state_ok] at hatt
      have hpush := pushSecondaries_keeps [n] (k - self'.intent.secondary.length)
        hatt.balanced.known
      dsimp only
      split
      · rename_i e st hst'
        simpa [hst'] using hatt.trans hpush
      · rename_i self'' scheduler'' hst'
        rw [hst'] at hpush
        exact (hatt.trans hpush).bumpIf _
  · -- `Detached`: drop the attached node, then the secondaries.
    dsimp only
    generalize hr : (if self.intent.attached.isSome = true then
      self.intent.setAttached scheduler none else (self.intent, scheduler)) = r
    have hdetach : Balanced scheduler self.intent r.2 r.1 := by
      rw [← hr]
      split
      · exact IntentState.setAttached_balanced hknown none (fun _ hn => by cases hn)
      · exact Balanced.refl hknown
    have hk := keeps_of_balanced self hdetach
    split
    · exact (hk.trans (keeps_of_balanced _
        (IntentState.clearSecondary_balanced hk.balanced.known))).bumpIf true
    · exact hk.bumpIf _

/-- `schedule_keeps`, stated of the intent the shard starts from. -/
theorem schedule_balanced {self : TenantState} {scheduler : Scheduler} {i : IntentState}
    (hi : self.intent = i) (hknown : i.Known scheduler) (hdup : i.NoDuplicates) :
    Balanced scheduler i (self.schedule scheduler).state.2
      (self.schedule scheduler).state.1.intent := by
  subst hi
  exact (schedule_keeps hknown hdup).balanced

/-! ## Scheduling without duplicates -/

theorem noDuplicates_iff (i : IntentState) :
    i.NoDuplicates ↔ (i.attached.toList ++ i.secondary).Nodup := Iff.rfl

theorem scheduleAttached_noDuplicates {self : TenantState} {scheduler : Scheduler}
    (hdup : self.intent.NoDuplicates) :
    (self.scheduleAttached scheduler).state.1.intent.NoDuplicates := by
  unfold scheduleAttached
  split
  · exact hdup
  · rename_i hatt
    have hsec : self.intent.secondary.Nodup := by
      simpa [noDuplicates_iff, hatt] using hdup
    split
    · -- The promoted node leaves the secondaries.
      rename_i p _
      simp only [EStateM.Result.state_ok, noDuplicates_iff, IntentState.promoteAttached,
        Option.toList_some, List.singleton_append]
      exact List.nodup_cons.mpr ⟨by simp, hsec.filter _⟩
    · split
      · exact hdup
      · -- A fresh node is picked outside the secondaries.
        rename_i n hn
        simp only [EStateM.Result.state_ok, noDuplicates_iff, IntentState.setAttached_attached,
          IntentState.setAttached_secondary, Option.toList_some, List.singleton_append]
        exact List.nodup_cons.mpr ⟨(Scheduler.scheduleShard_mem hn).2, hsec⟩

/-- `schedule` keeps an intent free of duplicates under any policy but `Double`. -/
theorem schedule_noDuplicates {self : TenantState} {scheduler : Scheduler}
    (hpol : ∀ k, self.policy ≠ .double k) (hdup : self.intent.NoDuplicates) :
    (self.schedule scheduler).state.1.intent.NoDuplicates := by
  have hatt : (self.scheduleAttached scheduler).state.1.intent.NoDuplicates :=
    scheduleAttached_noDuplicates hdup
  unfold schedule
  split
  · split
    · rename_i e st hst
      simpa [hst] using hatt
    · rename_i b self' scheduler' hst
      rw [hst] at hatt
      split
      · simp only [EStateM.Result.state_ok, bumpIf_intent, noDuplicates_iff,
          IntentState.clearSecondary_attached, IntentState.clearSecondary_secondary,
          List.append_nil]
        cases self'.intent.attached <;> simp
      · simpa using hatt
  · rename_i k hk
    exact absurd hk (hpol k)
  · dsimp only
    generalize hr : (if self.intent.attached.isSome = true then
      self.intent.setAttached scheduler none else (self.intent, scheduler)) = r
    have hnone : r.1.attached = none := by
      rw [← hr]
      split
      · simp
      · simpa using ‹¬self.intent.attached.isSome = true›
    split
    · simp [noDuplicates_iff, hnone]
    · rename_i hempty
      simp only [Bool.not_eq_true', List.isEmpty_eq_false_iff, ne_eq, not_not] at hempty
      simp [noDuplicates_iff, hnone, hempty]

theorem scheduleAttached_policy (self : TenantState) (scheduler : Scheduler) :
    (self.scheduleAttached scheduler).state.1.policy = self.policy := by
  unfold scheduleAttached
  split
  · rfl
  · split
    · rfl
    · split <;> rfl

theorem pushSecondaries_policy (used : List NodeId) (passes : ℕ) :
    ∀ (self : TenantState) (scheduler : Scheduler),
      (pushSecondaries used passes self scheduler).state.1.policy = self.policy := by
  induction passes generalizing used with
  | zero => intro self scheduler; rfl
  | succ passes ih =>
    intro self scheduler
    unfold pushSecondaries
    split
    · rfl
    · exact ih _ _ _

/-- `schedule` keeps the shard's policy. -/
theorem schedule_policy (self : TenantState) (scheduler : Scheduler) :
    (self.schedule scheduler).state.1.policy = self.policy := by
  have hatt := scheduleAttached_policy self scheduler
  unfold schedule
  split
  · split
    · rename_i e st hst
      simpa [hst] using hatt
    · rename_i b self' scheduler' hst
      rw [hst] at hatt
      split <;> simpa using hatt
  · rename_i k _
    split
    · rename_i e st hst
      simpa [hst] using hatt
    · rename_i b self' scheduler' hst
      rw [hst] at hatt
      dsimp only
      have hpush := pushSecondaries_policy [b] (k - self'.intent.secondary.length) self' scheduler'
      split
      · rename_i e st hst'
        rw [hst'] at hpush
        simpa using hpush.trans hatt
      · rename_i self'' scheduler'' hst'
        rw [hst'] at hpush
        simpa using hpush.trans hatt
  · dsimp only
    split <;> split <;> simp

/-- `deref_node` drops every reference to the node and keeps the others. -/
theorem refs_derefNode (self : TenantState) (n m : NodeId) :
    (self.derefNode n).intent.refs m = if m = n then 0 else self.intent.refs m := by
  obtain ⟨id, pol, ⟨a, sec⟩, obs, seq⟩ := self
  simp only [derefNode, IntentState.refs_mk]
  by_cases hm : m = n
  · subst hm
    rw [List.count_eq_zero.mpr (show m ∉ sec.filter (· ≠ m) by simp)]
    by_cases ha : a = some m <;> simp [ha]
  · by_cases ha : a = some n
    · subst ha
      simp [hm, Ne.symm hm, List.count_filter]
    · simp [ha, hm, List.count_filter]

theorem noDuplicates_derefNode {self : TenantState} (h : self.intent.NoDuplicates) (n : NodeId) :
    (self.derefNode n).intent.NoDuplicates := by
  -- What the intent keeps is a sublist of what it named.
  refine List.Nodup.sublist ?_ h
  obtain ⟨id, pol, ⟨a, sec⟩, obs, seq⟩ := self
  simp only [derefNode, IntentState.allPageservers]
  refine List.Sublist.append ?_ (List.filter_sublist)
  split
  · exact List.nil_sublist _
  · exact List.Sublist.refl _

end TenantState

end NeonStorage.AttachmentService

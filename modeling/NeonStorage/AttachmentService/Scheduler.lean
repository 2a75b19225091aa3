import NeonStorage.Lib.SortedMap

/-!
# The attachment service's scheduler and the intents that reference it

`Scheduler` (`scheduler.rs`) keeps, for every pageserver it knows, a `shard_count` and whether
new shards may be placed there.  The count is a reference count: it should be the number of
tenant shards whose `IntentState` names the node, as attached location or as a secondary.
Nothing keeps it so but the mutators of `IntentState` (`tenant_state.rs`), each of which calls
`node_inc_ref` and `node_dec_ref` by hand for the nodes it adds and drops.

The count is a `usize` that only ever moves by one; it is an `Int` here.  The release build's
wrapped value is its residue mod `2 ^ 64`, and an underflow of the `usize` shows as a negative
count.  The `HashMap`s of the source are `SortedMap`s, iterated in key order.

`Balanced` is what an intent mutator must do to keep the counts honest: whatever it changes in
the intent's references to a node, it changes that node's count by the same amount, and leaves
the set of nodes and their flags alone.  It holds of each mutator that calls the scheduler
under the preconditions its debug assertions state (`promote_attached` only for a node that is
a secondary exactly once), and composes (`Balanced.trans`).
-/

namespace NeonStorage.AttachmentService

/-- `NodeId`: a pageserver's id. -/
abbrev NodeId := ℕ

/-- `TenantShardId`, by its position in the tenant map's order; it is only compared and
printed. -/
abbrev TenantShardId := ℕ

inductive NodeAvailability where
  | active
  | offline
deriving DecidableEq, Repr

inductive NodeSchedulingPolicy where
  | active
  | filling
  | pause
  | draining
deriving DecidableEq, Repr

/-- A pageserver as the service sees it; its listen addresses are read by nothing here. -/
structure Node where
  id : NodeId
  availability : NodeAvailability
  scheduling : NodeSchedulingPolicy
deriving DecidableEq, Repr

/-- `Node::may_schedule`. -/
def Node.maySchedule (self : Node) : Bool :=
  match self.availability with
  | .offline => false
  | .active =>
    match self.scheduling with
    | .active => true
    | .draining => false
    | .filling => true
    | .pause => false

structure SchedulerNode where
  /-- How many shards' intents name this node. -/
  shardCount : ℤ
  /-- Whether new shards may be placed on the node. -/
  maySchedule : Bool
deriving DecidableEq, Repr

/-- The node with its count moved by `d`. -/
def SchedulerNode.shift (v : SchedulerNode) (d : ℤ) : SchedulerNode :=
  { v with shardCount := v.shardCount + d }

@[simp] theorem SchedulerNode.shift_zero (v : SchedulerNode) : v.shift 0 = v := by
  simp [SchedulerNode.shift]

@[simp] theorem SchedulerNode.shift_shift (v : SchedulerNode) (d e : ℤ) :
    (v.shift d).shift e = v.shift (d + e) := by
  simp [SchedulerNode.shift, add_assoc]

structure Scheduler where
  nodes : SortedMap NodeId SchedulerNode

inductive ScheduleError where
  | noPageservers
  | impossibleConstraint
deriving DecidableEq, Repr

/-- The texts of `ScheduleError`'s `Display`. -/
def ScheduleError.toString : ScheduleError → String
  | .noPageservers => "No pageservers found"
  | .impossibleConstraint => "No pageserver found matching constraint"

/-- `Iterator::max_by_key`: the last of the elements whose key is greatest. -/
def maxByKey {α β : Type} [LE β] [DecidableRel (α := β) (· ≤ ·)] (key : α → β) :
    List α → Option α
  | [] => none
  | x :: xs => some (xs.foldl (fun a y => if key a ≤ key y then y else a) x)

theorem mem_of_maxByKey {α β : Type} [LE β] [DecidableRel (α := β) (· ≤ ·)] {key : α → β}
    {l : List α} {x : α} (h : maxByKey key l = some x) : x ∈ l := by
  -- The fold keeps one of the elements it has seen.
  have fold_mem : ∀ (ys : List α) (a : α),
      ys.foldl (fun a y => if key a ≤ key y then y else a) a ∈ a :: ys := by
    intro ys
    induction ys with
    | nil => intro a; simp
    | cons y ys ih =>
      intro a
      rw [List.foldl_cons]
      split
      · exact List.mem_cons_of_mem _ (ih y)
      · rcases List.mem_cons.mp (ih a) with h | h
        · rw [h]
          exact List.mem_cons_self ..
        · exact List.mem_cons_of_mem _ (List.mem_cons_of_mem _ h)
  cases l with
  | nil => cases h
  | cons y ys =>
    simp only [maxByKey, Option.some.injEq] at h
    exact h ▸ fold_mem ys y

namespace Scheduler

/-- `Scheduler::new`: every node, with no shards. -/
def new (nodes : List Node) : Scheduler :=
  ⟨nodes.foldl (fun m node => m.insert node.id ⟨0, node.maySchedule⟩) SortedMap.empty⟩

/-- `shard_count` of a node, zero for a node the scheduler does not know. -/
def shardCount (self : Scheduler) (nodeId : NodeId) : ℤ :=
  ((self.nodes.get nodeId).map (·.shardCount)).getD 0

/-- The common body of `node_inc_ref` and `node_dec_ref`: move a known node's count by `d`.
For a node the scheduler does not know both log an error and change nothing (their
`debug_assert!(false)` is not compiled into release builds). -/
def nodeAddRef (self : Scheduler) (nodeId : NodeId) (d : ℤ) : Scheduler :=
  match self.nodes.get nodeId with
  | none => self
  | some node => ⟨self.nodes.insert nodeId (node.shift d)⟩

/-- `Scheduler::node_inc_ref`. -/
def nodeIncRef (self : Scheduler) (nodeId : NodeId) : Scheduler :=
  self.nodeAddRef nodeId 1

/-- `Scheduler::node_dec_ref`. -/
def nodeDecRef (self : Scheduler) (nodeId : NodeId) : Scheduler :=
  self.nodeAddRef nodeId (-1)

/-- `Scheduler::node_upsert`: a known node takes the new flag and keeps its count. -/
def nodeUpsert (self : Scheduler) (node : Node) : Scheduler :=
  match self.nodes.get node.id with
  | some v => ⟨self.nodes.insert node.id { v with maySchedule := node.maySchedule }⟩
  | none => ⟨self.nodes.insert node.id ⟨0, node.maySchedule⟩⟩

/-- `Scheduler::node_remove`. -/
def nodeRemove (self : Scheduler) (nodeId : NodeId) : Scheduler :=
  ⟨self.nodes.erase nodeId⟩

/-- `Scheduler::node_preferred`: the last of the given nodes that may be scheduled on. -/
def nodePreferred (self : Scheduler) (nodes : List NodeId) : Option NodeId :=
  if nodes.isEmpty then none
  else
    let node := maxByKey (fun p : NodeId × Bool => p.2)
      (nodes.map fun nodeId => (nodeId, ((self.nodes.get nodeId).map (·.maySchedule)).getD false))
    node.bind fun (nodeId, maySchedule) => if maySchedule then some nodeId else none

/-- `Scheduler::schedule_shard`: the schedulable node outside `hardExclude` with the fewest
shards, the lowest id among those.  It does not count the shard it places. -/
def scheduleShard (self : Scheduler) (hardExclude : List NodeId) :
    Except ScheduleError NodeId :=
  if self.nodes.entries.isEmpty then .error .noPageservers
  else
    let tenantCounts := self.nodes.entries.filterMap fun (k, v) =>
      if hardExclude.contains k || !v.maySchedule then none else some (k, v.shardCount)
    -- `sort_by_key(|i| (i.1, i.0))`: by count, then by id
    match tenantCounts.insertionSort (fun a b => a.2 < b.2 ∨ (a.2 = b.2 ∧ a.1 ≤ b.1)) with
    | [] => .error .impossibleConstraint
    | (nodeId, _) :: _ => .ok nodeId

theorem get_nodeAddRef (self : Scheduler) (nodeId : NodeId) (d : ℤ) (m : NodeId) :
    (self.nodeAddRef nodeId d).nodes.get m =
      (self.nodes.get m).map (·.shift (if m = nodeId then d else 0)) := by
  unfold nodeAddRef
  cases hn : self.nodes.get nodeId with
  | none =>
    by_cases hm : m = nodeId
    · simp [hm, hn]
    · simp [hm]
  | some node =>
    rw [SortedMap.get_insert]
    by_cases hm : m = nodeId
    · simp [hm, hn]
    · simp [hm]

theorem get_nodeUpsert (self : Scheduler) (node : Node) (m : NodeId) :
    (self.nodeUpsert node).nodes.get m =
      if m = node.id then
        some (match self.nodes.get node.id with
          | some v => { v with maySchedule := node.maySchedule }
          | none => ⟨0, node.maySchedule⟩)
      else self.nodes.get m := by
  unfold nodeUpsert
  split <;> simp [SortedMap.get_insert]

theorem get_nodeRemove (self : Scheduler) (nodeId m : NodeId) :
    (self.nodeRemove nodeId).nodes.get m = if m = nodeId then none else self.nodes.get m :=
  SortedMap.get_erase _ _ _

theorem mem_keys_iff_get (self : Scheduler) (n : NodeId) :
    n ∈ self.nodes.keys ↔ (self.nodes.get n).isSome := by
  rw [← not_iff_not, ← SortedMap.get_eq_none_iff]
  simp

/-- A node that `schedule_shard` picks is known, schedulable and not excluded. -/
theorem scheduleShard_mem {self : Scheduler} {hardExclude : List NodeId} {n : NodeId}
    (h : self.scheduleShard hardExclude = .ok n) :
    n ∈ self.nodes.keys ∧ n ∉ hardExclude := by
  unfold scheduleShard at h
  split at h
  · cases h
  dsimp only at h
  generalize hsort : List.insertionSort
    (fun a b : NodeId × ℤ => a.2 < b.2 ∨ (a.2 = b.2 ∧ a.1 ≤ b.1)) _ = sorted at h
  -- The node picked heads the sorted candidates, so it is one of them.
  obtain ⟨c, hmem⟩ : ∃ c, (n, c) ∈ sorted := by
    cases sorted with
    | nil => cases h
    | cons p rest =>
      obtain ⟨k, c⟩ := p
      cases h
      exact ⟨c, List.mem_cons_self ..⟩
  rw [← hsort] at hmem
  obtain ⟨⟨k, v⟩, hkv, hsome⟩ := List.mem_filterMap.mp ((List.perm_insertionSort _ _).subset hmem)
  by_cases hex : (hardExclude.contains k || !v.maySchedule) = true
  · rw [if_pos hex] at hsome
    cases hsome
  · rw [if_neg hex, Option.some.injEq, Prod.mk.injEq] at hsome
    obtain ⟨rfl, -⟩ := hsome
    simp only [Bool.or_eq_true, List.contains_iff_mem, not_or] at hex
    exact ⟨(SortedMap.mem_keys_iff _ _).mpr ⟨_, hkv, rfl⟩, hex.1⟩

/-- `node_preferred` picks one of the nodes it is given. -/
theorem nodePreferred_mem {self : Scheduler} {nodes : List NodeId} {n : NodeId}
    (h : self.nodePreferred nodes = some n) : n ∈ nodes := by
  unfold nodePreferred at h
  split at h
  · cases h
  · obtain ⟨⟨nodeId, b⟩, hmax, hb⟩ := Option.bind_eq_some_iff.mp h
    have hn : nodeId = n := by cases b <;> simp_all
    obtain ⟨x, hx, hxe⟩ := List.mem_map.mp (mem_of_maxByKey hmax)
    simp only [Prod.mk.injEq] at hxe
    exact hn ▸ hxe.1 ▸ hx

end Scheduler

/-! ## Intents -/

/-- `IntentState`: where a shard should be attached, and its secondary locations. -/
structure IntentState where
  attached : Option NodeId
  secondary : List NodeId
deriving DecidableEq, Repr

namespace IntentState

/-- `IntentState::new`. -/
def new : IntentState := ⟨none, []⟩

/-- `IntentState::all_pageservers`: the attached node, then the secondaries. -/
def allPageservers (self : IntentState) : List NodeId :=
  self.attached.toList ++ self.secondary

/-- The references the intent holds on a node: what `consistency_check` counts for it. -/
def refs (self : IntentState) (nodeId : NodeId) : ℕ :=
  self.allPageservers.count nodeId

/-- Every node the intent names is known to the scheduler. -/
def Known (self : IntentState) (scheduler : Scheduler) : Prop :=
  ∀ n ∈ self.allPageservers, n ∈ scheduler.nodes.keys

/-- No node is named twice: the attached node is not a secondary, and the secondaries are
distinct.  `push_secondary` and `promote_attached` assert their part of it in debug builds. -/
def NoDuplicates (self : IntentState) : Prop :=
  self.allPageservers.Nodup

theorem refs_mk (a : Option NodeId) (sec : List NodeId) (n : NodeId) :
    (IntentState.mk a sec).refs n = (if a = some n then 1 else 0) + sec.count n := by
  cases a with
  | none => simp [refs, allPageservers]
  | some a =>
    by_cases h : a = n
    · simp [refs, allPageservers, h, add_comm]
    · simp [refs, allPageservers, h]

/-- `IntentState::single`. -/
def single (scheduler : Scheduler) (nodeId : Option NodeId) : IntentState × Scheduler :=
  let scheduler := match nodeId with
    | some n => scheduler.nodeIncRef n
    | none => scheduler
  (⟨nodeId, []⟩, scheduler)

/-- `IntentState::set_attached`. -/
def setAttached (self : IntentState) (scheduler : Scheduler) (newAttached : Option NodeId) :
    IntentState × Scheduler :=
  if self.attached ≠ newAttached then
    let scheduler := match self.attached with
      | some oldAttached => scheduler.nodeDecRef oldAttached
      | none => scheduler
    let scheduler := match newAttached with
      | some n => scheduler.nodeIncRef n
      | none => scheduler
    ({ self with attached := newAttached }, scheduler)
  else (self, scheduler)

/-- `IntentState::promote_attached`: the secondary becomes the attached node.  The scheduler is
not called: a node's count covers both roles. -/
def promoteAttached (self : IntentState) (scheduler : Scheduler) (promoteSecondary : NodeId) :
    IntentState × Scheduler :=
  (⟨some promoteSecondary, self.secondary.filter (· ≠ promoteSecondary)⟩, scheduler)

/-- `IntentState::push_secondary`. -/
def pushSecondary (self : IntentState) (scheduler : Scheduler) (newSecondary : NodeId) :
    IntentState × Scheduler :=
  ({ self with secondary := self.secondary ++ [newSecondary] }, scheduler.nodeIncRef newSecondary)

/-- `IntentState::remove_secondary`: drop the first occurrence, if there is one. -/
def removeSecondary (self : IntentState) (scheduler : Scheduler) (nodeId : NodeId) :
    IntentState × Scheduler :=
  if nodeId ∈ self.secondary then
    ({ self with secondary := self.secondary.erase nodeId }, scheduler.nodeDecRef nodeId)
  else (self, scheduler)

/-- `IntentState::clear_secondary`. -/
def clearSecondary (self : IntentState) (scheduler : Scheduler) : IntentState × Scheduler :=
  ({ self with secondary := [] }, self.secondary.foldl (fun s n => s.nodeDecRef n) scheduler)

/-- `IntentState::clear`. -/
def clear (self : IntentState) (scheduler : Scheduler) : IntentState × Scheduler :=
  let scheduler := match self.attached with
    | some oldAttached => scheduler.nodeDecRef oldAttached
    | none => scheduler
  clearSecondary { self with attached := none } scheduler

/-- `IntentState::notify_offline`: an attached node that goes offline becomes a secondary.  The
scheduler is not called. -/
def notifyOffline (self : IntentState) (nodeId : NodeId) : IntentState × Bool :=
  if self.attached = some nodeId then (⟨none, self.secondary ++ [nodeId]⟩, true)
  else (self, false)

@[simp] theorem setAttached_attached (self : IntentState) (s : Scheduler) (a : Option NodeId) :
    (self.setAttached s a).1.attached = a := by
  unfold setAttached
  split
  · rfl
  · rename_i h
    exact not_not.mp h

@[simp] theorem setAttached_secondary (self : IntentState) (s : Scheduler) (a : Option NodeId) :
    (self.setAttached s a).1.secondary = self.secondary := by
  unfold setAttached
  split <;> rfl

@[simp] theorem clearSecondary_attached (self : IntentState) (s : Scheduler) :
    (self.clearSecondary s).1.attached = self.attached := rfl

@[simp] theorem clearSecondary_secondary (self : IntentState) (s : Scheduler) :
    (self.clearSecondary s).1.secondary = [] := rfl

end IntentState

/-! ## Balanced updates -/

/-- A change of an intent and of the scheduler together that keeps the counts honest: every
node the new intent names is known, and each node's count moves by the change in the intent's
references to it, its flag and the set of nodes staying as they were. -/
structure Balanced (s : Scheduler) (i : IntentState) (s' : Scheduler) (i' : IntentState) :
    Prop where
  known : i'.Known s'
  get_eq : ∀ n, s'.nodes.get n = (s.nodes.get n).map (·.shift ((i'.refs n : ℤ) - i.refs n))

namespace Balanced

variable {s s₁ s₂ : Scheduler} {i i₁ i₂ : IntentState}

theorem refl (h : i.Known s) : Balanced s i s i :=
  ⟨h, fun n => by simp⟩

theorem trans (h₁ : Balanced s i s₁ i₁) (h₂ : Balanced s₁ i₁ s₂ i₂) : Balanced s i s₂ i₂ := by
  refine ⟨h₂.known, fun n => ?_⟩
  rw [h₂.get_eq, h₁.get_eq, Option.map_map]
  congr 1
  funext v
  simp only [Function.comp, SchedulerNode.shift_shift]
  congr 1
  ring

/-- A change that moves each node's count by `δ`, the change in the intent's references to each
node the scheduler knows, is balanced. -/
theorem of_shift {δ : NodeId → ℤ} (hknown : i₁.Known s₁)
    (hget : ∀ n, s₁.nodes.get n = (s.nodes.get n).map (·.shift (δ n)))
    (hδ : ∀ n ∈ s.nodes.keys, δ n = i₁.refs n - i.refs n) : Balanced s i s₁ i₁ := by
  refine ⟨hknown, fun n => ?_⟩
  rw [hget]
  by_cases hn : n ∈ s.nodes.keys
  · rw [hδ n hn]
  · rw [(SortedMap.get_eq_none_iff _ _).mpr hn]
    rfl

/-- A balanced change keeps the set of nodes the scheduler knows. -/
theorem mem_keys_iff (h : Balanced s i s₁ i₁) (n : NodeId) :
    n ∈ s₁.nodes.keys ↔ n ∈ s.nodes.keys := by
  rw [Scheduler.mem_keys_iff_get, Scheduler.mem_keys_iff_get, h.get_eq]
  simp

end Balanced

namespace Scheduler

theorem mem_keys_of_get_eq {s s' : Scheduler} {δ : NodeId → ℤ}
    (hget : ∀ n, s'.nodes.get n = (s.nodes.get n).map (·.shift (δ n))) (n : NodeId) :
    n ∈ s'.nodes.keys ↔ n ∈ s.nodes.keys := by
  rw [mem_keys_iff_get, mem_keys_iff_get, hget]
  simp

/-- Moving the counts of all nodes of a list, one reference each. -/
theorem get_foldl_nodeAddRef (d : ℤ) (ns : List NodeId) (s : Scheduler) (m : NodeId) :
    (ns.foldl (fun s n => s.nodeAddRef n d) s).nodes.get m =
      (s.nodes.get m).map (·.shift (d * ns.count m)) := by
  induction ns generalizing s with
  | nil => simp
  | cons n ns ih =>
    rw [List.foldl_cons, ih, get_nodeAddRef, Option.map_map]
    congr 1
    funext v
    by_cases hm : m = n
    · subst hm
      simp only [Function.comp, if_true, SchedulerNode.shift_shift, List.count_cons_self]
      congr 1
      push_cast
      ring
    · simp [hm, Ne.symm hm]

end Scheduler

namespace IntentState

variable {s : Scheduler} {i : IntentState}

theorem Known.mono {j : IntentState} {t : Scheduler} (h : i.Known s)
    (hsub : ∀ n ∈ j.allPageservers, n ∈ i.allPageservers)
    (hkeys : ∀ n, n ∈ t.nodes.keys ↔ n ∈ s.nodes.keys) : j.Known t :=
  fun n hn => (hkeys n).mpr (h n (hsub n hn))

/-- A mutator that changes only the intent and keeps each node's references is balanced. -/
theorem balanced_of_refs_eq {i' : IntentState} (h : i.Known s)
    (hsub : ∀ n ∈ i'.allPageservers, n ∈ i.allPageservers) (hrefs : ∀ n, i'.refs n = i.refs n) :
    Balanced s i s i' :=
  ⟨h.mono hsub (fun _ => Iff.rfl), fun n => by simp [hrefs n]⟩

/-- Dropping the attached node, with its reference. -/
theorem detach_balanced {o : NodeId} {sec : List NodeId} (h : (mk (some o) sec).Known s) :
    Balanced s (mk (some o) sec) (s.nodeDecRef o) (mk none sec) := by
  have hget := Scheduler.get_nodeAddRef s o (-1)
  refine Balanced.of_shift (fun n hn => ?_) hget (fun n _ => ?_)
  · rw [Scheduler.nodeDecRef, Scheduler.mem_keys_of_get_eq hget]
    exact h n (List.mem_append_right _ (by simpa [allPageservers] using hn))
  · by_cases hn : n = o
    · subst hn; simp [refs_mk]
    · simp [refs_mk, hn, Ne.symm hn]

/-- Attaching a known node, with a new reference. -/
theorem attach_balanced {n : NodeId} {sec : List NodeId} (h : (mk none sec).Known s)
    (hn : n ∈ s.nodes.keys) :
    Balanced s (mk none sec) (s.nodeIncRef n) (mk (some n) sec) := by
  have hget := Scheduler.get_nodeAddRef s n 1
  refine Balanced.of_shift (fun m hm => ?_) hget (fun m _ => ?_)
  · rw [Scheduler.nodeIncRef, Scheduler.mem_keys_of_get_eq hget]
    simp only [allPageservers, Option.toList_some, List.singleton_append, List.mem_cons] at hm
    rcases hm with rfl | hm
    · exact hn
    · exact h m (by simpa [allPageservers] using hm)
  · by_cases hm : m = n
    · subst hm; simp [refs_mk]
    · simp [refs_mk, hm, Ne.symm hm]

theorem setAttached_balanced (h : i.Known s) (newAttached : Option NodeId)
    (hnew : ∀ n ∈ newAttached, n ∈ s.nodes.keys) :
    Balanced s i (i.setAttached s newAttached).2 (i.setAttached s newAttached).1 := by
  obtain ⟨a, sec⟩ := i
  by_cases heq : a = newAttached
  · subst heq
    simpa [setAttached] using Balanced.refl h
  -- Otherwise the old attached node, if any, is dropped and the new one, if any, attached.
  have hdetach : Balanced s (mk a sec)
      (match a with | some o => s.nodeDecRef o | none => s) (mk none sec) := by
    cases a with
    | none => exact Balanced.refl h
    | some o => exact detach_balanced h
  cases newAttached with
  | none =>
    cases a with
    | none => exact absurd rfl heq
    | some o => simpa [setAttached] using hdetach
  | some n =>
    have hattach := attach_balanced hdetach.known
      ((hdetach.mem_keys_iff n).mpr (hnew n rfl))
    cases a with
    | none => simpa [setAttached] using hdetach.trans hattach
    | some o => simpa [setAttached, heq] using hdetach.trans hattach

theorem promoteAttached_balanced (h : i.Known s) (p : NodeId) (hatt : i.attached = none)
    (hone : i.secondary.count p = 1) :
    Balanced s i (i.promoteAttached s p).2 (i.promoteAttached s p).1 := by
  obtain ⟨a, sec⟩ := i
  cases hatt
  have hone : sec.count p = 1 := hone
  have hp : p ∈ sec := List.count_pos_iff.mp (by omega)
  refine balanced_of_refs_eq h (fun n hn => ?_) (fun n => ?_)
  · simp only [promoteAttached, allPageservers, Option.toList_some, List.singleton_append,
      List.mem_cons, List.mem_filter] at hn
    simp only [allPageservers, Option.toList_none, List.nil_append]
    rcases hn with rfl | ⟨hn, -⟩
    · exact hp
    · exact hn
  · simp only [promoteAttached, refs_mk]
    by_cases hn : p = n
    · subst hn
      rw [List.count_eq_zero.mpr (show p ∉ sec.filter (· ≠ p) by simp)]
      simp [hone]
    · simp [hn, List.count_filter, Ne.symm hn]

theorem pushSecondary_balanced (h : i.Known s) (n : NodeId) (hn : n ∈ s.nodes.keys) :
    Balanced s i (i.pushSecondary s n).2 (i.pushSecondary s n).1 := by
  have hget := Scheduler.get_nodeAddRef s n 1
  refine Balanced.of_shift (fun m hm => ?_) hget (fun m _ => ?_)
  · rw [pushSecondary, Scheduler.nodeIncRef, Scheduler.mem_keys_of_get_eq hget]
    simp only [pushSecondary, allPageservers, List.mem_append, List.mem_singleton] at hm
    rcases hm with hm | hm | rfl
    · exact h m (List.mem_append_left _ hm)
    · exact h m (List.mem_append_right _ hm)
    · exact hn
  · obtain ⟨a, sec⟩ := i
    simp only [pushSecondary, refs_mk, List.count_append, List.count_singleton]
    by_cases hm : m = n
    · subst hm; simp
    · simp [hm, Ne.symm hm]

theorem removeSecondary_balanced (h : i.Known s) (n : NodeId) :
    Balanced s i (i.removeSecondary s n).2 (i.removeSecondary s n).1 := by
  unfold removeSecondary
  split
  · rename_i hn
    obtain ⟨a, sec⟩ := i
    have hget := Scheduler.get_nodeAddRef s n (-1)
    refine Balanced.of_shift (fun m hm => ?_) hget (fun m _ => ?_)
    · rw [Scheduler.nodeDecRef, Scheduler.mem_keys_of_get_eq hget]
      simp only [allPageservers, List.mem_append] at hm
      rcases hm with hm | hm
      · exact h m (List.mem_append_left _ hm)
      · exact h m (List.mem_append_right _ (List.mem_of_mem_erase hm))
    · simp only [refs_mk]
      by_cases hm : m = n
      · subst hm
        have hpos : 0 < sec.count m := List.count_pos_iff.mpr hn
        simp only [if_true, List.count_erase_self]
        push_cast [Nat.cast_sub (Nat.one_le_iff_ne_zero.mpr hpos.ne')]
        ring
      · simp [hm, List.count_erase_of_ne hm]
  · exact Balanced.refl h

theorem clearSecondary_balanced (h : i.Known s) :
    Balanced s i (i.clearSecondary s).2 (i.clearSecondary s).1 := by
  obtain ⟨a, sec⟩ := i
  have hget : ∀ m, (sec.foldl (fun s n => s.nodeDecRef n) s).nodes.get m =
      (s.nodes.get m).map (·.shift (-1 * sec.count m)) :=
    Scheduler.get_foldl_nodeAddRef (-1) sec s
  refine Balanced.of_shift (fun m hm => ?_) hget (fun m _ => ?_)
  · simp only [clearSecondary, allPageservers, List.append_nil] at hm
    show m ∈ (sec.foldl (fun s n => s.nodeDecRef n) s).nodes.keys
    rw [Scheduler.mem_keys_of_get_eq hget]
    exact h m (List.mem_append_left _ hm)
  · simp only [clearSecondary, refs_mk, List.count_nil, add_zero]
    push_cast
    ring

theorem clear_balanced (h : i.Known s) : Balanced s i (i.clear s).2 (i.clear s).1 := by
  have hdetach := setAttached_balanced h none (fun _ hn => by cases hn)
  -- `clear` is `set_attached(None)` followed by `clear_secondary`.
  have hclear : i.clear s =
      (i.setAttached s none).1.clearSecondary (i.setAttached s none).2 := by
    obtain ⟨a, sec⟩ := i
    cases a <;> simp [clear, setAttached]
  rw [hclear]
  exact hdetach.trans (clearSecondary_balanced hdetach.known)

/-- `notify_offline` keeps every reference: the node moves from attached to secondary. -/
theorem refs_notifyOffline (n m : NodeId) : (i.notifyOffline n).1.refs m = i.refs m := by
  unfold notifyOffline
  split
  · rename_i hatt
    obtain ⟨a, sec⟩ := i
    simp only at hatt
    subst hatt
    simp only [refs_mk, List.count_append, List.count_singleton]
    by_cases hm : n = m <;> simp [hm]
    omega
  · rfl

theorem mem_allPageservers_notifyOffline (n m : NodeId) :
    m ∈ (i.notifyOffline n).1.allPageservers ↔ m ∈ i.allPageservers := by
  unfold notifyOffline
  split
  · rename_i hatt
    obtain ⟨a, sec⟩ := i
    simp only at hatt
    subst hatt
    simp only [allPageservers, Option.toList_none, List.nil_append, List.mem_append,
      Option.toList_some, List.singleton_append, List.mem_cons]
    tauto
  · rfl

end IntentState

namespace IntentState

theorem noDuplicates_notifyOffline {i : IntentState} (h : i.NoDuplicates) (n : NodeId) :
    (i.notifyOffline n).1.NoDuplicates := by
  unfold notifyOffline
  split
  · rename_i hatt
    obtain ⟨a, sec⟩ := i
    simp only at hatt
    subst hatt
    -- The attached node moves to the end of the secondaries.
    have h' : ([n] ++ sec).Nodup := h
    simpa [NoDuplicates, allPageservers] using List.nodup_append_comm.mp h'
  · exact h

@[simp] theorem refs_clear (i : IntentState) (s : Scheduler) (n : NodeId) :
    (i.clear s).1.refs n = 0 := by
  simp [clear, clearSecondary, refs_mk]

theorem mem_allPageservers_iff_refs_pos (i : IntentState) (n : NodeId) :
    n ∈ i.allPageservers ↔ 0 < i.refs n :=
  List.count_pos_iff.symm

end IntentState

/-! ## The consistency check -/

namespace Scheduler

/-- One reference of a shard, counted into the map `consistency_check` builds. -/
def countRef (tenantShardId : TenantShardId) (expect : SortedMap NodeId SchedulerNode)
    (nodeId : NodeId) : Except String (SortedMap NodeId SchedulerNode) :=
  match expect.get nodeId with
  | some node => .ok (expect.insert nodeId (node.shift 1))
  | none => .error ("Tenant " ++ toString tenantShardId ++ " references nonexistent node " ++
      toString nodeId)

/-- A shard's references, attached node first, counted into the expected map. -/
def countShard (expect : SortedMap NodeId SchedulerNode) (shard : TenantShardId × IntentState) :
    Except String (SortedMap NodeId SchedulerNode) :=
  shard.2.allPageservers.foldlM (countRef shard.1) expect

/-- One node of the expected map, compared with the scheduler's. -/
def compareNode (self : Scheduler) (e : NodeId × SchedulerNode) : Except String Unit :=
  match self.nodes.get e.1 with
  | none => .error ("Node " ++ toString e.1 ++ " not found in Self")
  | some selfNode =>
    if selfNode ≠ e.2 then .error ("Inconsistent state on " ++ toString e.1) else .ok ()

/-- `Scheduler::consistency_check`: the counts and flags are those of the nodes and shards
given.  The expected map starts as `Scheduler::new` builds one. -/
def consistencyCheck (self : Scheduler) (nodes : List Node)
    (shards : List (TenantShardId × IntentState)) : Except String Unit := do
  let expectNodes ← shards.foldlM countShard (new nodes).nodes
  expectNodes.entries.forM (compareNode self)
  if expectNodes.entries.length ≠ self.nodes.entries.length then
    -- Every expected node is in `self`, so `self` has one the nodes do not.
    self.nodes.keys.forM fun nodeId =>
      if nodeId ∉ expectNodes.keys then
        .error ("Node " ++ toString nodeId ++ " found in Self but not in expected nodes")
      else .ok ()

theorem get_of_mem_keys {m : SortedMap NodeId SchedulerNode} {n : NodeId} (h : n ∈ m.keys) :
    ∃ v, m.get n = some v :=
  Option.ne_none_iff_exists'.mp fun hn => (SortedMap.get_eq_none_iff m n).mp hn h

theorem mem_keys_of_get_map {m m' : SortedMap NodeId SchedulerNode} {δ : NodeId → ℤ}
    (h : ∀ k, m'.get k = (m.get k).map (·.shift (δ k))) {n : NodeId} (hn : n ∈ m.keys) :
    n ∈ m'.keys := by
  obtain ⟨v, hv⟩ := get_of_mem_keys hn
  rw [← SortedMap.get_eq_none_iff m' n |>.not_left, h, hv]
  simp

/-- Counting a list of known nodes moves each count by the node's occurrences. -/
theorem foldlM_countRef (t : TenantShardId) :
    ∀ (ns : List NodeId) (m : SortedMap NodeId SchedulerNode), (∀ n ∈ ns, n ∈ m.keys) →
      ∃ m', ns.foldlM (countRef t) m = .ok m' ∧
        ∀ k, m'.get k = (m.get k).map (·.shift (ns.count k))
  | [], m, _ => ⟨m, rfl, fun k => by simp⟩
  | n :: ns, m, h => by
    obtain ⟨v, hv⟩ := get_of_mem_keys (h n (List.mem_cons_self ..))
    have hstep : countRef t m n = .ok (m.insert n (v.shift 1)) := by simp [countRef, hv]
    obtain ⟨m', hm', hget⟩ := foldlM_countRef t ns (m.insert n (v.shift 1))
      (fun k hk => SortedMap.keys_subset_insert m n _ k (h k (List.mem_cons_of_mem _ hk)))
    refine ⟨m', ?_, fun k => ?_⟩
    · rw [List.foldlM_cons, hstep]
      exact hm'
    · rw [hget, SortedMap.get_insert]
      by_cases hk : k = n
      · subst hk
        simp only [if_true, hv, Option.map_some, SchedulerNode.shift_shift, List.count_cons_self]
        push_cast
        ring_nf
      · simp [hk, Ne.symm hk]

/-- Counting shards whose nodes are all known moves each count by the shards' references. -/
theorem foldlM_countShard :
    ∀ (shards : List (TenantShardId × IntentState)) (m : SortedMap NodeId SchedulerNode),
      (∀ sh ∈ shards, ∀ n ∈ sh.2.allPageservers, n ∈ m.keys) →
      ∃ m', shards.foldlM countShard m = .ok m' ∧
        ∀ k, m'.get k = (m.get k).map (·.shift ((shards.map fun sh => (sh.2.refs k : ℤ)).sum))
  | [], m, _ => ⟨m, rfl, fun k => by simp⟩
  | sh :: shards, m, h => by
    obtain ⟨m₁, hm₁, hget₁⟩ := foldlM_countRef sh.1 sh.2.allPageservers m
      (h sh (List.mem_cons_self ..))
    obtain ⟨m', hm', hget⟩ := foldlM_countShard shards m₁
      (fun sh' hsh' n hn => mem_keys_of_get_map hget₁ (h sh' (List.mem_cons_of_mem _ hsh') n hn))
    refine ⟨m', ?_, fun k => ?_⟩
    · rw [List.foldlM_cons]
      exact (congrArg (· >>= _) hm₁).trans hm'
    · rw [hget, hget₁, Option.map_map]
      congr 1
      funext v
      simp [IntentState.refs]

theorem forM_compareNode (self : Scheduler) :
    ∀ l : List (NodeId × SchedulerNode), (∀ e ∈ l, self.nodes.get e.1 = some e.2) →
      l.forM (compareNode self) = .ok ()
  | [], _ => rfl
  | e :: l, h => by
    have he : compareNode self e = .ok () := by
      simp [compareNode, h e (List.mem_cons_self ..)]
    simp only [List.forM, he]
    exact forM_compareNode self l (fun e' he' => h e' (List.mem_cons_of_mem _ he'))

/-- `consistency_check` passes when every shard names only nodes it is given, and the
scheduler holds exactly those nodes, with their flags and the shards' reference counts. -/
theorem consistencyCheck_eq_ok (self : Scheduler) (nodes : List Node)
    (shards : List (TenantShardId × IntentState))
    (hknown : ∀ sh ∈ shards, sh.2.Known (new nodes))
    (hagree : ∀ n, self.nodes.get n = ((new nodes).nodes.get n).map
      (·.shift ((shards.map fun sh => (sh.2.refs n : ℤ)).sum))) :
    self.consistencyCheck nodes shards = .ok () := by
  obtain ⟨m, hm, hget⟩ := foldlM_countShard shards (new nodes).nodes hknown
  -- The map the check builds is the scheduler's own.
  have hsame : m.entries = self.nodes.entries :=
    SortedMap.entries_eq_of_get_eq fun k => (hget k).trans (hagree k).symm
  have hcmp : self.nodes.entries.forM (compareNode self) = .ok () :=
    forM_compareNode self _ fun e he => (SortedMap.get_eq_some_iff _ _ _).mpr he
  simp only [consistencyCheck, hm, bind, Except.bind, hcmp, hsame, ne_eq, not_true_eq_false,
    if_false]
  rfl

end Scheduler

end NeonStorage.AttachmentService

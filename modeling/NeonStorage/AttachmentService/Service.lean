import NeonStorage.AttachmentService.TenantState

/-!
# The service: loading, startup, and the scheduler's bookkeeping over runs

`ServiceState` (`service.rs`) holds the nodes, the tenant shards and the scheduler under one
lock.  The transitions here are the parts of the service's handlers that change those three:
loading from the database (`Service::spawn`), the startup reconciliation with what the
pageservers report, a change of placement policy followed by `schedule`, a migration, a node
configured offline or online, and dropping a tenant or a node.  What they do over the network
is not modelled.

`Consistent` is what `Scheduler::consistency_check` checks (`Consistent.check`).  Loading
establishes it when every generation was issued to a known node (`spawn_consistent`), and each
handler keeps it for shards that name no node twice.  Two things break it.  The startup
reconciliation: `intent_from_observed` moves a shard's intent to the node that reports it
attached without telling the scheduler, so the node loaded as attached keeps a reference nobody
holds and the reporting node lacks one.  And a `Double` policy: its loop excludes only the
attached node and the nodes it has just added, so it can add a node that is already a
secondary; `promote_attached` later drops both entries of such a node but does not decrement its
count.  Without either, every run of requests keeps the counts (`schedulerCheck_after_run`).
-/

namespace NeonStorage.AttachmentService

/-- The part of `ServiceState` that scheduling reads and writes. -/
structure ServiceState where
  nodes : SortedMap NodeId Node
  tenants : SortedMap TenantShardId TenantState
  scheduler : Scheduler

/-- A node row of the database: its id and scheduling policy. -/
structure NodePersistence where
  nodeId : NodeId
  schedulingPolicy : NodeSchedulingPolicy

/-- A shard row of the database.  `generationPageserver` is an `i64`, `i64::MAX` for none. -/
structure TenantShardPersistence where
  tenantShardId : TenantShardId
  generationPageserver : ℤ
  placementPolicy : PlacementPolicy

/-- `i64::MAX`. -/
def i64Max : ℤ := 2 ^ 63 - 1

namespace ServiceState

/-- The scheduler's check as `Service::consistency_check` runs it, over `nodes.values()` and
`tenants.values()`. -/
def schedulerCheck (self : ServiceState) : Except String Unit :=
  self.scheduler.consistencyCheck (self.nodes.entries.map (·.2))
    (self.tenants.entries.map fun e => (e.2.tenantShardId, e.2.intent))

/-- The node a shard row's generation was issued to: `generation_pageserver as u64`. -/
def generationNode (tsp : TenantShardPersistence) : Option NodeId :=
  if tsp.generationPageserver ≠ i64Max then some (tsp.generationPageserver % 2 ^ 64).toNat
  else none

/-- The node map `Service::spawn` loads: every node starts offline. -/
def loadNodes (nodeRows : List NodePersistence) : SortedMap NodeId Node :=
  nodeRows.foldl (fun m n => m.insert n.nodeId ⟨n.nodeId, .offline, n.schedulingPolicy⟩)
    SortedMap.empty

/-- One shard row loaded: its intent is attached at the node its generation was last issued
to. -/
def loadShard (acc : SortedMap TenantShardId TenantState × Scheduler)
    (tsp : TenantShardPersistence) : SortedMap TenantShardId TenantState × Scheduler :=
  let r := match generationNode tsp with
    | some nodeId => IntentState.new.setAttached acc.2 (some nodeId)
    | none => (IntentState.new, acc.2)
  (acc.1.insert tsp.tenantShardId ⟨tsp.tenantShardId, tsp.placementPolicy, r.1, SortedMap.empty, 0⟩,
    r.2)

/-- `Service::spawn`'s load of the nodes, the scheduler and the shards. -/
def spawn (nodeRows : List NodePersistence) (shardRows : List TenantShardPersistence) :
    ServiceState :=
  let nodes := loadNodes nodeRows
  let loaded := shardRows.foldl loadShard (SortedMap.empty, Scheduler.new (nodes.entries.map (·.2)))
  ⟨nodes, loaded.1, loaded.2⟩

/-- A loop over the shards in key order that updates each shard, and the scheduler, in place. -/
def updateTenants (f : TenantState → Scheduler → TenantState × Scheduler)
    (tenants : SortedMap TenantShardId TenantState) (scheduler : Scheduler) :
    SortedMap TenantShardId TenantState × Scheduler :=
  tenants.entries.foldl (fun acc e =>
    let r := f e.2 acc.2
    (acc.1.insert e.1 r.1, r.2)) (tenants, scheduler)

/-- The state part of `Service::startup_reconcile`.  `listings` holds each responding node's
list of shards with what it reports for each, in the order the responses are iterated.  A
shard keeps one observation, from the last node that listed it. -/
def startupReconcile (self : ServiceState)
    (listings : List (NodeId × List (TenantShardId × Option LocationConfig))) : ServiceState :=
  let observed : SortedMap TenantShardId (NodeId × Option LocationConfig) :=
    listings.foldl (fun observed l => l.2.foldl (fun observed s =>
      observed.insert s.1 (l.1, s.2)) observed) SortedMap.empty
  -- Mark nodes online if they responded.
  let marked := self.nodes.entries.foldl (fun (acc : SortedMap NodeId Node × Scheduler) e =>
    if e.1 ∈ listings.map (·.1) then
      let node := { e.2 with availability := .active }
      (acc.1.insert e.1 node, acc.2.nodeUpsert node)
    else acc) (self.nodes, self.scheduler)
  -- Shards the service does not know are left for cleanup.
  let tenants := observed.entries.foldl (fun tenants o =>
    match tenants.get o.1 with
    | some t => tenants.insert o.1 { t with observed := t.observed.insert o.2.1 o.2.2 }
    | none => tenants) self.tenants
  -- Each shard's intent from what was observed, then scheduled; a scheduling error is logged.
  let scheduled := updateTenants (fun t scheduler => (t.intentFromObserved.schedule scheduler).state)
    tenants marked.2
  ⟨marked.1, scheduled.1, scheduled.2⟩

/-- A shard's placement policy changed and the shard scheduled, as `tenant_location_config`
does for each shard of a tenant; a scheduling error is returned, after what it changed. -/
def setPolicy (self : ServiceState) (tenantShardId : TenantShardId) (policy : PlacementPolicy) :
    ServiceState × Except String Unit :=
  match self.tenants.get tenantShardId with
  | none => (self, .ok ())
  | some t =>
    let r := { t with policy }.schedule self.scheduler
    ({ self with tenants := self.tenants.insert tenantShardId r.state.1, scheduler := r.state.2 },
      match r.value with
      | .ok () => .ok ()
      | .error e => .error ("Scheduling error: " ++ e.toString))

/-- The secondaries' part of a migration, by policy: `None` for a detached shard, which cannot
be migrated. -/
def migrateSecondaries (shard : TenantState) (scheduler : Scheduler) (nodeId : NodeId) :
    Option (IntentState × Scheduler) :=
  match shard.policy with
  | .single => some (shard.intent.clearSecondary scheduler)
  | .double _ =>
    -- The new attached node is no longer a secondary; the old one becomes one.
    let r := shard.intent.removeSecondary scheduler nodeId
    match shard.intent.attached with
    | some oldAttached => some (r.1.pushSecondary r.2 oldAttached)
    | none => some r
  | .detached => none

/-- The intent part of `Service::tenant_shard_migrate`. -/
def tenantShardMigrate (self : ServiceState) (tenantShardId : TenantShardId) (nodeId : NodeId) :
    ServiceState × Except String Unit :=
  match self.tenants.get tenantShardId with
  | none => (self, .error "Tenant shard not found")
  | some shard =>
    if shard.intent.attached = some nodeId then (self, .ok ())
    else
      match migrateSecondaries shard self.scheduler nodeId with
      | none => (self, .error ("Cannot migrate a tenant that is PlacementPolicy::Detached: " ++
          "configure it to an attached policy first"))
      | some r =>
        let r := r.1.setAttached r.2 (some nodeId)
        ({ self with
            tenants := self.tenants.insert tenantShardId
              { shard with intent := r.1, sequence := shard.sequence + 1 }
            scheduler := r.2 }, .ok ())

/-- What `node_configure` does to one shard when the node goes offline: its observation there
becomes unknown, and an intent attached there is rescheduled. -/
def offlineShard (nodeId : NodeId) (t : TenantState) (scheduler : Scheduler) :
    TenantState × Scheduler :=
  let observed := match t.observed.get nodeId with
    | some _ => t.observed.insert nodeId none
    | none => t.observed
  let notified := t.intent.notifyOffline nodeId
  let t := { t with observed, intent := notified.1 }
  if notified.2 then ({ t with sequence := t.sequence + 1 }.schedule scheduler).state
  else (t, scheduler)

/-- The state part of `Service::node_configure`. -/
def nodeConfigure (self : ServiceState) (nodeId : NodeId)
    (availability : Option NodeAvailability) (scheduling : Option NodeSchedulingPolicy) :
    ServiceState × Except String Unit :=
  match self.nodes.get nodeId with
  | none => (self, .error "Node not registered")
  | some node =>
    let offlineTransition := availability = some .offline ∧ node.availability = .active
    let node := { node with
      availability := availability.getD node.availability
      scheduling := scheduling.getD node.scheduling }
    let scheduler := self.scheduler.nodeUpsert node
    let nodes := self.nodes.insert nodeId node
    if offlineTransition then
      let r := updateTenants (offlineShard nodeId) self.tenants scheduler
      (⟨nodes, r.1, r.2⟩, .ok ())
    else (⟨nodes, self.tenants, scheduler⟩, .ok ())

/-- The state part of `Service::tenant_drop`, over the shards of the tenant's range. -/
def tenantDrop (self : ServiceState) (shards : List TenantShardId) : ServiceState :=
  shards.foldl (fun st shardId =>
    match st.tenants.get shardId with
    | some shard =>
      { st with
        tenants := st.tenants.erase shardId
        scheduler := (shard.intent.clear st.scheduler).2 }
    | none => st) self

/-- The state part of `Service::node_drop`: every shard forgets the node, which then leaves the
nodes and the scheduler. -/
def nodeDrop (self : ServiceState) (nodeId : NodeId) : ServiceState :=
  let r := updateTenants (fun t scheduler => (t.derefNode nodeId, scheduler)) self.tenants
    self.scheduler
  ⟨self.nodes.erase nodeId, r.1, r.2.nodeRemove nodeId⟩

end ServiceState

/-! ## The counts the check expects -/

namespace ServiceState

/-- The references all shards hold on a node. -/
def refTotal (tenants : SortedMap TenantShardId TenantState) (n : NodeId) : ℤ :=
  (tenants.entries.map fun e => (e.2.intent.refs n : ℤ)).sum

/-- The scheduler's bookkeeping is right: it holds exactly the nodes, each with its flag and the
references the shards hold on it, and every shard names only nodes it holds. -/
structure Consistent (st : ServiceState) : Prop where
  node_id : ∀ e ∈ st.nodes.entries, e.2.id = e.1
  known : ∀ e ∈ st.tenants.entries, e.2.intent.Known st.scheduler
  agree : ∀ n, st.scheduler.nodes.get n =
    (st.nodes.get n).map fun node => ⟨refTotal st.tenants n, node.maySchedule⟩

variable {st : ServiceState}

/-- `Scheduler::new` over the node values is the node map with zero counts. -/
theorem get_new_of_node_id {nodes : SortedMap NodeId Node} (h : ∀ e ∈ nodes.entries, e.2.id = e.1)
    (n : NodeId) :
    (Scheduler.new (nodes.entries.map (·.2))).nodes.get n =
      (nodes.get n).map fun node => ⟨0, node.maySchedule⟩ := by
  have hfold : (nodes.entries.map (·.2)).foldl
      (fun m (node : Node) => m.insert node.id ⟨0, node.maySchedule⟩) SortedMap.empty =
      nodes.entries.foldl (fun acc e =>
        acc.insert e.1 ((fun node : Node => (⟨0, node.maySchedule⟩ : SchedulerNode)) e.2))
        SortedMap.empty := by
    rw [List.foldl_map]
    exact List.foldl_ext _ _ _ fun acc e he => by rw [h e he]
  rw [Scheduler.new, hfold]
  exact SortedMap.get_foldl_insert_entries
    (fun node : Node => (⟨0, node.maySchedule⟩ : SchedulerNode)) nodes n

/-- A consistent state passes `consistency_check`. -/
theorem Consistent.check (h : st.Consistent) : st.schedulerCheck = .ok () := by
  have hnew := get_new_of_node_id h.node_id
  apply Scheduler.consistencyCheck_eq_ok
  · intro sh hsh n hn
    obtain ⟨e, he, rfl⟩ := List.mem_map.mp hsh
    have hk := h.known e he n hn
    rw [Scheduler.mem_keys_iff_get, h.agree] at hk
    rw [Scheduler.mem_keys_iff_get, hnew]
    simpa using hk
  · intro n
    rw [h.agree, hnew, Option.map_map]
    congr 1
    funext node
    simp [SchedulerNode.shift, refTotal, List.map_map, Function.comp_def]

theorem Consistent.mem_keys_iff (h : st.Consistent) (n : NodeId) :
    n ∈ st.scheduler.nodes.keys ↔ n ∈ st.nodes.keys := by
  rw [Scheduler.mem_keys_iff_get, h.agree, ← SortedMap.get_eq_none_iff st.nodes n |>.not_left]
  cases st.nodes.get n <;> simp

theorem Consistent.known_of_get (h : st.Consistent) {t : TenantShardId} {ts : TenantState}
    (hget : st.tenants.get t = some ts) : ts.intent.Known st.scheduler :=
  h.known (t, ts) ((SortedMap.get_eq_some_iff _ _ _).mp hget)

/-- One shard replaced by a balanced change of its intent and of the scheduler. -/
theorem Consistent.update (h : st.Consistent) {t : TenantShardId} {ts ts' : TenantState}
    (hget : st.tenants.get t = some ts) {s' : Scheduler}
    (hb : Balanced st.scheduler ts.intent s' ts'.intent) :
    Consistent ⟨st.nodes, st.tenants.insert t ts', s'⟩ where
  node_id := h.node_id
  known := by
    intro e he
    rcases (SortedMap.mem_insert_iff _ _ _ _).mp he with rfl | ⟨he, -⟩
    · exact hb.known
    · exact (h.known e he).mono (fun _ hn => hn) hb.mem_keys_iff
  agree := by
    intro n
    rw [hb.get_eq, h.agree, Option.map_map]
    congr 1
    funext node
    simp only [Function.comp, SchedulerNode.shift, refTotal,
      SortedMap.sum_insert_of_get (fun x : TenantState => (x.intent.refs n : ℤ)) hget]
    congr 1
    ring

/-- One shard removed, after a balanced change that left it with no references. -/
theorem Consistent.remove (h : st.Consistent) {t : TenantShardId} {ts : TenantState}
    (hget : st.tenants.get t = some ts) {s' : Scheduler} {i' : IntentState}
    (hb : Balanced st.scheduler ts.intent s' i') (hzero : ∀ n, i'.refs n = 0) :
    Consistent ⟨st.nodes, st.tenants.erase t, s'⟩ where
  node_id := h.node_id
  known := by
    intro e he
    exact (h.known e ((SortedMap.mem_erase_iff _ _ _).mp he).1).mono (fun _ hn => hn)
      hb.mem_keys_iff
  agree := by
    intro n
    rw [hb.get_eq, h.agree, Option.map_map]
    congr 1
    funext node
    simp only [Function.comp, SchedulerNode.shift, refTotal, hzero,
      SortedMap.sum_erase_of_get (fun x : TenantState => (x.intent.refs n : ℤ)) hget]
    congr 1
    ring

/-- A loop over the shards keeps the counts when its step is balanced on every shard. -/
theorem Consistent.updateTenants (h : st.Consistent)
    (f : TenantState → Scheduler → TenantState × Scheduler)
    (hf : ∀ e ∈ st.tenants.entries, ∀ s : Scheduler, e.2.intent.Known s →
      Balanced s e.2.intent (f e.2 s).2 (f e.2 s).1.intent) :
    Consistent ⟨st.nodes, (updateTenants f st.tenants st.scheduler).1,
      (updateTenants f st.tenants st.scheduler).2⟩ := by
  -- The loop visits each entry while it still holds its first value.
  have loop : ∀ (l : List (TenantShardId × TenantState)), l.Pairwise (fun a b => a.1 < b.1) →
      (∀ e ∈ l, e ∈ st.tenants.entries) →
      ∀ acc : SortedMap TenantShardId TenantState × Scheduler,
        Consistent ⟨st.nodes, acc.1, acc.2⟩ → (∀ e ∈ l, acc.1.get e.1 = some e.2) →
        Consistent ⟨st.nodes, (l.foldl (fun acc e =>
          let r := f e.2 acc.2
          (acc.1.insert e.1 r.1, r.2)) acc).1, (l.foldl (fun acc e =>
          let r := f e.2 acc.2
          (acc.1.insert e.1 r.1, r.2)) acc).2⟩ := by
    intro l
    induction l with
    | nil => intro _ _ acc hacc _; exact hacc
    | cons e l ih =>
      intro hl hmem acc hacc hget
      rw [List.pairwise_cons] at hl
      have he := hget e (List.mem_cons_self ..)
      have hb := hf e (hmem e (List.mem_cons_self ..)) acc.2 (hacc.known_of_get he)
      refine ih hl.2 (fun e' he' => hmem e' (List.mem_cons_of_mem _ he')) _
        (hacc.update he hb) (fun e' he' => ?_)
      rw [SortedMap.get_insert, if_neg (ne_of_gt (hl.1 e' he'))]
      exact hget e' (List.mem_cons_of_mem _ he')
  exact loop _ st.tenants.sorted (fun _ he => he) (st.tenants, st.scheduler) h
    (fun e he => (SortedMap.get_eq_some_iff _ _ _).mpr he)

/-- A new shard added, after a balanced change from the empty intent. -/
theorem Consistent.insertNew (h : st.Consistent) {t : TenantShardId} {ts' : TenantState}
    (hget : st.tenants.get t = none) {s' : Scheduler}
    (hb : Balanced st.scheduler IntentState.new s' ts'.intent) :
    Consistent ⟨st.nodes, st.tenants.insert t ts', s'⟩ where
  node_id := h.node_id
  known := by
    intro e he
    rcases (SortedMap.mem_insert_iff _ _ _ _).mp he with rfl | ⟨he, -⟩
    · exact hb.known
    · exact (h.known e he).mono (fun _ hn => hn) hb.mem_keys_iff
  agree := by
    intro n
    rw [hb.get_eq, h.agree, Option.map_map]
    congr 1
    funext node
    simp only [Function.comp, SchedulerNode.shift, refTotal,
      SortedMap.sum_insert_of_get_none (fun x : TenantState => (x.intent.refs n : ℤ)) hget]
    simp [IntentState.new, IntentState.refs_mk]

/-! ### Loading -/

/-- The nodes of the loaded map are the rows', each under its own id. -/
theorem foldl_insert_nodes (nodeRows : List NodePersistence) :
    ∀ m : SortedMap NodeId Node, (∀ e ∈ m.entries, e.2.id = e.1) →
      (∀ e ∈ (nodeRows.foldl (fun m n =>
          m.insert n.nodeId ⟨n.nodeId, .offline, n.schedulingPolicy⟩) m).entries, e.2.id = e.1) ∧
      ∀ n, n ∈ (nodeRows.foldl (fun m n =>
          m.insert n.nodeId ⟨n.nodeId, .offline, n.schedulingPolicy⟩) m).keys ↔
        n ∈ nodeRows.map (·.nodeId) ∨ n ∈ m.keys := by
  induction nodeRows with
  | nil => intro m hm; simpa using hm
  | cons row rows ih =>
    intro m hm
    obtain ⟨hid, hkeys⟩ := ih (m.insert row.nodeId ⟨row.nodeId, .offline, row.schedulingPolicy⟩)
      (fun e he => by
        rcases (SortedMap.mem_insert_iff _ _ _ _).mp he with rfl | ⟨he, -⟩
        · rfl
        · exact hm e he)
    refine ⟨hid, fun n => ?_⟩
    rw [List.foldl_cons, hkeys, SortedMap.mem_keys_insert_iff]
    simp only [List.map_cons, List.mem_cons]
    tauto

/-- Loading shard rows with new, distinct ids whose generations went to known nodes keeps the
counts. -/
theorem Consistent.foldl_loadShard (rows : List TenantShardPersistence) :
    ∀ {st : ServiceState}, st.Consistent → (rows.map (·.tenantShardId)).Nodup →
      (∀ tsp ∈ rows, st.tenants.get tsp.tenantShardId = none) →
      (∀ tsp ∈ rows, ∀ n ∈ generationNode tsp, n ∈ st.nodes.keys) →
      Consistent ⟨st.nodes, (rows.foldl loadShard (st.tenants, st.scheduler)).1,
        (rows.foldl loadShard (st.tenants, st.scheduler)).2⟩ := by
  induction rows with
  | nil => intro st h _ _ _; exact h
  | cons tsp rows ih =>
    intro st h hids hnew hgen
    rw [List.map_cons, List.nodup_cons] at hids
    -- The row's intent is a balanced change from the empty one.
    obtain ⟨r, hr, hb⟩ : ∃ r : IntentState × Scheduler,
        loadShard (st.tenants, st.scheduler) tsp = (st.tenants.insert tsp.tenantShardId
          ⟨tsp.tenantShardId, tsp.placementPolicy, r.1, SortedMap.empty, 0⟩, r.2) ∧
        Balanced st.scheduler IntentState.new r.2 r.1 := by
      refine ⟨_, rfl, ?_⟩
      split
      · rename_i nodeId hnode
        exact IntentState.setAttached_balanced (fun _ hn => by cases hn) (some nodeId)
          (fun n hn => (h.mem_keys_iff n).mpr (hgen tsp (List.mem_cons_self ..) n
            (hnode ▸ hn)))
      · exact Balanced.refl (fun _ hn => by cases hn)
    have h' : Consistent ⟨st.nodes, st.tenants.insert tsp.tenantShardId
        ⟨tsp.tenantShardId, tsp.placementPolicy, r.1, SortedMap.empty, 0⟩, r.2⟩ :=
      h.insertNew (hnew tsp (List.mem_cons_self ..)) hb
    rw [List.foldl_cons, hr]
    refine ih h' hids.2 (fun tsp' htsp' => ?_)
      (fun tsp' htsp' => hgen tsp' (List.mem_cons_of_mem _ htsp'))
    have hne : tsp'.tenantShardId ≠ tsp.tenantShardId := fun heq =>
      hids.1 (heq ▸ List.mem_map_of_mem htsp')
    rw [SortedMap.get_insert, if_neg hne]
    exact hnew tsp' (List.mem_cons_of_mem _ htsp')

/-- Loading keeps the counts when the shard rows have distinct ids and every generation was
issued to a node of the database. -/
theorem spawn_consistent (nodeRows : List NodePersistence) (shardRows : List TenantShardPersistence)
    (hids : (shardRows.map (·.tenantShardId)).Nodup)
    (hgen : ∀ tsp ∈ shardRows, ∀ n ∈ generationNode tsp, n ∈ nodeRows.map (·.nodeId)) :
    (spawn nodeRows shardRows).Consistent := by
  obtain ⟨hid, hkeys⟩ := foldl_insert_nodes nodeRows SortedMap.empty (fun e he => by simp at he)
  change ∀ e ∈ (loadNodes nodeRows).entries, e.2.id = e.1 at hid
  change ∀ n, n ∈ (loadNodes nodeRows).keys ↔ _ at hkeys
  -- Before any shard, the scheduler is the node map with zero counts.
  have h₀ : Consistent ⟨loadNodes nodeRows, SortedMap.empty,
      Scheduler.new ((loadNodes nodeRows).entries.map (·.2))⟩ := by
    refine ⟨hid, fun e he => by simp at he, fun n => ?_⟩
    simp only
    rw [get_new_of_node_id hid]
    simp [refTotal]
  exact h₀.foldl_loadShard shardRows hids (fun _ _ => rfl)
    (fun tsp htsp n hn => (hkeys n).mpr (Or.inl (hgen tsp htsp n hn)))

/-! ### The transitions that keep the counts -/

theorem Consistent.setPolicy (h : st.Consistent) (t : TenantShardId) (policy : PlacementPolicy)
    (hdup : ∀ ts, st.tenants.get t = some ts → ts.intent.NoDuplicates) :
    (st.setPolicy t policy).1.Consistent := by
  unfold ServiceState.setPolicy
  split
  · exact h
  · rename_i ts hget
    exact h.update hget
      (TenantState.schedule_balanced rfl (h.known_of_get hget) (hdup ts hget))

/-- The secondaries' part of a migration is balanced. -/
theorem migrateSecondaries_balanced {shard : TenantState} {s : Scheduler} {nodeId : NodeId}
    {r : IntentState × Scheduler} (hknown : shard.intent.Known s)
    (h : migrateSecondaries shard s nodeId = some r) : Balanced s shard.intent r.2 r.1 := by
  unfold migrateSecondaries at h
  split at h
  · cases h
    exact IntentState.clearSecondary_balanced hknown
  · have hremove := IntentState.removeSecondary_balanced hknown nodeId
    split at h
    · rename_i old hatt
      cases h
      -- The old attached node is known, and removing a secondary keeps the nodes.
      have hold : old ∈ s.nodes.keys :=
        hknown old (by simp [IntentState.allPageservers, hatt])
      exact hremove.trans (IntentState.pushSecondary_balanced hremove.known old
        ((hremove.mem_keys_iff old).mpr hold))
    · cases h
      exact hremove
  · cases h

theorem Consistent.tenantShardMigrate (h : st.Consistent) (t : TenantShardId) (nodeId : NodeId)
    (hnode : nodeId ∈ st.nodes.keys) : (st.tenantShardMigrate t nodeId).1.Consistent := by
  unfold ServiceState.tenantShardMigrate
  split
  · exact h
  · rename_i shard hget
    split
    · exact h
    · split
      · exact h
      · rename_i r hr
        have hdemote := migrateSecondaries_balanced (h.known_of_get hget) hr
        have hattach := IntentState.setAttached_balanced hdemote.known (some nodeId)
          (fun n hn => (Option.mem_some_iff.mp hn) ▸
            (hdemote.mem_keys_iff nodeId).mpr ((h.mem_keys_iff nodeId).mpr hnode))
        exact h.update hget (hdemote.trans hattach)

/-- A shard's step when a node goes offline is balanced, for an intent without duplicates. -/
theorem offlineShard_balanced {t : TenantState} {s : Scheduler} (nodeId : NodeId)
    (hknown : t.intent.Known s) (hdup : t.intent.NoDuplicates) :
    Balanced s t.intent (offlineShard nodeId t s).2 (offlineShard nodeId t s).1.intent := by
  have hnotify : Balanced s t.intent s (t.intent.notifyOffline nodeId).1 :=
    IntentState.balanced_of_refs_eq hknown
      (fun n hn => (IntentState.mem_allPageservers_notifyOffline nodeId n).mp hn)
      (IntentState.refs_notifyOffline nodeId)
  unfold offlineShard
  -- Whatever the observation becomes, the intent is notified and maybe rescheduled.
  split
  all_goals
    dsimp only
    split
    · exact hnotify.trans (TenantState.schedule_balanced rfl hnotify.known
        (IntentState.noDuplicates_notifyOffline hdup nodeId))
    · exact hnotify

/-- A node's new flag, in the node map and the scheduler together. -/
theorem Consistent.upsertNode (h : st.Consistent) {nodeId : NodeId} {node : Node}
    (hget : st.nodes.get nodeId = some node) (node' : Node) (hid : node'.id = nodeId) :
    Consistent ⟨st.nodes.insert nodeId node', st.tenants, st.scheduler.nodeUpsert node'⟩ := by
  have hsched : st.scheduler.nodes.get nodeId = some ⟨refTotal st.tenants nodeId, node.maySchedule⟩ := by
    rw [h.agree, hget]
    rfl
  have hagree : ∀ n, (st.scheduler.nodeUpsert node').nodes.get n =
      ((st.nodes.insert nodeId node').get n).map fun node =>
        (⟨refTotal st.tenants n, node.maySchedule⟩ : SchedulerNode) := by
    intro n
    rw [Scheduler.get_nodeUpsert, SortedMap.get_insert, hid]
    by_cases hn : n = nodeId
    · subst hn
      simp [hsched]
    · simp [hn, h.agree]
  refine ⟨fun e he => ?_, fun e he => ?_, hagree⟩
  · rcases (SortedMap.mem_insert_iff _ _ _ _).mp he with rfl | ⟨he, -⟩
    · exact hid
    · exact h.node_id e he
  · refine (h.known e he).mono (fun _ hn => hn) (fun n => ?_)
    rw [Scheduler.mem_keys_iff_get, Scheduler.mem_keys_iff_get, hagree, h.agree,
      SortedMap.get_insert]
    by_cases hn : n = nodeId
    · subst hn
      simp [hget]
    · simp [hn]

theorem Consistent.nodeConfigure (h : st.Consistent) (nodeId : NodeId)
    (availability : Option NodeAvailability) (scheduling : Option NodeSchedulingPolicy)
    (hdup : ∀ e ∈ st.tenants.entries, e.2.intent.NoDuplicates) :
    (st.nodeConfigure nodeId availability scheduling).1.Consistent := by
  unfold ServiceState.nodeConfigure
  split
  · exact h
  · rename_i node hget
    have hid : node.id = nodeId := h.node_id _ ((SortedMap.get_eq_some_iff _ _ _).mp hget)
    have hc := h.upsertNode hget { node with
      availability := availability.getD node.availability
      scheduling := scheduling.getD node.scheduling } hid
    dsimp only
    split
    · exact hc.updateTenants (offlineShard nodeId)
        (fun e he s hk => offlineShard_balanced nodeId hk (hdup e he))
    · exact hc

theorem Consistent.tenantDrop (h : st.Consistent) (shards : List TenantShardId) :
    (st.tenantDrop shards).Consistent := by
  unfold ServiceState.tenantDrop
  induction shards generalizing st with
  | nil => exact h
  | cons shardId shards ih =>
    rw [List.foldl_cons]
    apply ih
    split
    · rename_i shard hget
      exact h.remove hget (IntentState.clear_balanced (h.known_of_get hget))
        (IntentState.refs_clear shard.intent st.scheduler)
    · exact h

/-- A loop that changes each shard alone, without the scheduler, maps the shards. -/
theorem updateTenants_pure (g : TenantState → TenantState)
    (tenants : SortedMap TenantShardId TenantState) (s : Scheduler) :
    (updateTenants (fun t s => (g t, s)) tenants s).2 = s ∧
      (updateTenants (fun t s => (g t, s)) tenants s).1.entries = (tenants.mapVal g).entries := by
  have loop : ∀ (l : List (TenantShardId × TenantState)), l.Pairwise (fun a b => a.1 < b.1) →
      ∀ acc : SortedMap TenantShardId TenantState × Scheduler,
        (l.foldl (fun acc e =>
          let r := (g e.2, acc.2)
          (acc.1.insert e.1 r.1, r.2)) acc).2 = acc.2 ∧
        ∀ k, (l.foldl (fun acc e =>
          let r := (g e.2, acc.2)
          (acc.1.insert e.1 r.1, r.2)) acc).1.get k =
          if k ∈ l.map (·.1) then (SortedMap.lookupList k l).map g else acc.1.get k := by
    intro l
    induction l with
    | nil => intro _ acc; simp
    | cons e l ih =>
      intro hl acc
      rw [List.pairwise_cons] at hl
      obtain ⟨h2, hget⟩ := ih hl.2 (acc.1.insert e.1 (g e.2), acc.2)
      refine ⟨h2, fun k => ?_⟩
      rw [List.foldl_cons, hget, SortedMap.get_insert, SortedMap.lookupList_cons]
      by_cases hk : k = e.1
      · subst hk
        have hnot : e.1 ∉ l.map (·.1) := fun hm => by
          obtain ⟨e', he', hfst⟩ := List.mem_map.mp hm
          exact absurd (hfst ▸ hl.1 e' he') (lt_irrefl _)
        simp [hnot]
      · have hm' : k ∈ (e :: l).map (·.1) ↔ k ∈ l.map (·.1) := by simp [hk]
        by_cases hm : k ∈ l.map (·.1)
        · rw [if_pos hm, if_pos (hm'.mpr hm), if_neg (Ne.symm hk)]
        · rw [if_neg hm, if_neg (mt hm'.mp hm), if_neg hk]
  obtain ⟨h2, hget⟩ := loop tenants.entries tenants.sorted (tenants, s)
  refine ⟨h2, SortedMap.entries_eq_of_get_eq fun k => ?_⟩
  rw [updateTenants, hget, SortedMap.get_mapVal]
  split
  · rfl
  · rename_i hk
    rw [(SortedMap.get_eq_none_iff tenants k).mpr hk]
    rfl

theorem Consistent.nodeDrop (h : st.Consistent) (nodeId : NodeId) :
    (st.nodeDrop nodeId).Consistent := by
  obtain ⟨hsched, hentries⟩ := updateTenants_pure (fun t => t.derefNode nodeId) st.tenants
    st.scheduler
  have hrefs : ∀ n, n ≠ nodeId →
      refTotal (ServiceState.updateTenants (fun t s => (t.derefNode nodeId, s)) st.tenants
        st.scheduler).1 n =
        refTotal st.tenants n := by
    intro n hn
    simp [refTotal, hentries, TenantState.refs_derefNode, hn, Function.comp_def]
  refine ⟨fun e he => h.node_id e ((SortedMap.mem_erase_iff _ _ _).mp he).1, ?_, ?_⟩
  · intro e he n hn
    simp only [ServiceState.nodeDrop] at he
    rw [hentries, SortedMap.mapVal_entries] at he
    obtain ⟨e₀, he₀, rfl⟩ := List.mem_map.mp he
    -- A node the shard still names is not the dropped one, and was named before.
    have hpos := (IntentState.mem_allPageservers_iff_refs_pos _ _).mp hn
    rw [TenantState.refs_derefNode] at hpos
    have hne : n ≠ nodeId := fun heq => by simp [heq] at hpos
    rw [if_neg hne, ← IntentState.mem_allPageservers_iff_refs_pos] at hpos
    have hk := h.known e₀ he₀ n hpos
    simp only [ServiceState.nodeDrop, hsched]
    rw [Scheduler.mem_keys_iff_get, Scheduler.get_nodeRemove, if_neg hne,
      ← Scheduler.mem_keys_iff_get]
    exact hk
  · intro n
    simp only [ServiceState.nodeDrop, hsched]
    rw [Scheduler.get_nodeRemove, SortedMap.get_erase]
    by_cases hn : n = nodeId
    · simp [hn]
    · simp only [hn, if_false, h.agree, hrefs n hn]

/-! ### Runs without `Double` shards -/

/-- What a shard keeps along the runs below: it names no node twice, and its policy is not
`Double`, whose scheduling can name a node twice. -/
def ShardOk (t : TenantState) : Prop :=
  t.intent.NoDuplicates ∧ ∀ k, t.policy ≠ .double k

/-- The invariant of the runs below. -/
structure Sound (st : ServiceState) : Prop where
  consistent : st.Consistent
  shards : ∀ e ∈ st.tenants.entries, ShardOk e.2

/-- A loop over the shards keeps a property of shards that its step keeps. -/
theorem updateTenants_forall (P : TenantState → Prop)
    (f : TenantState → Scheduler → TenantState × Scheduler)
    {tenants : SortedMap TenantShardId TenantState} (s : Scheduler)
    (hP : ∀ e ∈ tenants.entries, P e.2) (hf : ∀ e ∈ tenants.entries, ∀ s, P (f e.2 s).1) :
    ∀ e ∈ (updateTenants f tenants s).1.entries, P e.2 := by
  have loop : ∀ (l : List (TenantShardId × TenantState)), (∀ e ∈ l, e ∈ tenants.entries) →
      ∀ acc : SortedMap TenantShardId TenantState × Scheduler, (∀ e ∈ acc.1.entries, P e.2) →
        ∀ e ∈ (l.foldl (fun acc e =>
          let r := f e.2 acc.2
          (acc.1.insert e.1 r.1, r.2)) acc).1.entries, P e.2 := by
    intro l
    induction l with
    | nil => intro _ acc hacc; exact hacc
    | cons e l ih =>
      intro hl acc hacc
      refine ih (fun e' he' => hl e' (List.mem_cons_of_mem _ he')) _ (fun e' he' => ?_)
      rcases (SortedMap.mem_insert_iff _ _ _ _).mp he' with rfl | ⟨he', -⟩
      · exact hf e (hl e (List.mem_cons_self ..)) acc.2
      · exact hacc e' he'
  exact loop _ (fun _ he => he) (tenants, s) hP

theorem tenantDrop_entries (st : ServiceState) (shards : List TenantShardId) :
    ∀ e ∈ (st.tenantDrop shards).tenants.entries, e ∈ st.tenants.entries := by
  unfold ServiceState.tenantDrop
  induction shards generalizing st with
  | nil => intro e he; exact he
  | cons shardId shards ih =>
    intro e he
    rw [List.foldl_cons] at he
    have he' := ih _ e he
    split at he'
    · exact ((SortedMap.mem_erase_iff _ _ _).mp he').1
    · exact he'

/-- The requests a run is made of. -/
inductive Request where
  | setPolicy (tenantShardId : TenantShardId) (policy : PlacementPolicy)
  | migrate (tenantShardId : TenantShardId) (nodeId : NodeId)
  | configure (nodeId : NodeId) (availability : Option NodeAvailability)
      (scheduling : Option NodeSchedulingPolicy)
  | tenantDrop (shards : List TenantShardId)
  | nodeDrop (nodeId : NodeId)

/-- The state after a request. -/
def handle (st : ServiceState) : Request → ServiceState
  | .setPolicy t policy => (st.setPolicy t policy).1
  | .migrate t nodeId => (st.tenantShardMigrate t nodeId).1
  | .configure nodeId availability scheduling =>
    (st.nodeConfigure nodeId availability scheduling).1
  | .tenantDrop shards => st.tenantDrop shards
  | .nodeDrop nodeId => st.nodeDrop nodeId

/-- The requests the run theorem covers: no policy is set to `Double`, and a shard migrates
only to a registered node. -/
def Request.Allowed (st : ServiceState) : Request → Prop
  | .setPolicy _ policy => ∀ k, policy ≠ .double k
  | .migrate _ nodeId => nodeId ∈ st.nodes.keys
  | _ => True

/-- A run of requests, each allowed in the state it meets. -/
def AllowedRun : ServiceState → List Request → Prop
  | _, [] => True
  | st, r :: rs => r.Allowed st ∧ AllowedRun (st.handle r) rs

/-- The state after a run of requests. -/
def run (st : ServiceState) (rs : List Request) : ServiceState :=
  rs.foldl handle st

theorem Sound.setPolicy (h : st.Sound) (t : TenantShardId) (policy : PlacementPolicy)
    (hpol : ∀ k, policy ≠ .double k) : (st.setPolicy t policy).1.Sound := by
  have hdup : ∀ ts, st.tenants.get t = some ts → ts.intent.NoDuplicates := fun ts hget =>
    (h.shards _ ((SortedMap.get_eq_some_iff _ _ _).mp hget)).1
  refine ⟨h.consistent.setPolicy t policy hdup, ?_⟩
  unfold ServiceState.setPolicy
  split
  · exact h.shards
  · rename_i ts hget
    intro e he
    rcases (SortedMap.mem_insert_iff _ _ _ _).mp he with rfl | ⟨he, -⟩
    · exact ⟨TenantState.schedule_noDuplicates hpol (hdup ts hget),
        fun k => by rw [TenantState.schedule_policy]; exact hpol k⟩
    · exact h.shards e he

theorem Sound.tenantShardMigrate (h : st.Sound) (t : TenantShardId) (nodeId : NodeId)
    (hnode : nodeId ∈ st.nodes.keys) : (st.tenantShardMigrate t nodeId).1.Sound := by
  refine ⟨h.consistent.tenantShardMigrate t nodeId hnode, ?_⟩
  unfold ServiceState.tenantShardMigrate
  split
  · exact h.shards
  · rename_i shard hget
    have hok := h.shards _ ((SortedMap.get_eq_some_iff _ _ _).mp hget)
    split
    · exact h.shards
    · split
      · exact h.shards
      · rename_i r hr
        intro e he
        rcases (SortedMap.mem_insert_iff _ _ _ _).mp he with rfl | ⟨he, -⟩
        · refine ⟨?_, hok.2⟩
          -- A shard that is not `Double` migrates with no secondaries left.
          unfold migrateSecondaries at hr
          split at hr
          · cases hr
            simp [TenantState.noDuplicates_iff]
          · exact absurd ‹_› (hok.2 _)
          · cases hr
        · exact h.shards e he

theorem Sound.nodeConfigure (h : st.Sound) (nodeId : NodeId)
    (availability : Option NodeAvailability) (scheduling : Option NodeSchedulingPolicy) :
    (st.nodeConfigure nodeId availability scheduling).1.Sound := by
  refine ⟨h.consistent.nodeConfigure nodeId availability scheduling
    (fun e he => (h.shards e he).1), ?_⟩
  unfold ServiceState.nodeConfigure
  split
  · exact h.shards
  · dsimp only
    split
    · refine updateTenants_forall ShardOk (offlineShard nodeId) _ h.shards (fun e he s => ?_)
      have hok := h.shards e he
      -- The notified intent has no duplicates, and rescheduling keeps that and the policy.
      have hnotified := IntentState.noDuplicates_notifyOffline hok.1 nodeId
      unfold offlineShard
      split
      all_goals
        dsimp only
        split
        · exact ⟨TenantState.schedule_noDuplicates hok.2 hnotified,
            fun k => by rw [TenantState.schedule_policy]; exact hok.2 k⟩
        · exact ⟨hnotified, hok.2⟩
    · exact h.shards

theorem Sound.tenantDrop (h : st.Sound) (shards : List TenantShardId) :
    (st.tenantDrop shards).Sound :=
  ⟨h.consistent.tenantDrop shards, fun e he => h.shards e (tenantDrop_entries st shards e he)⟩

theorem Sound.nodeDrop (h : st.Sound) (nodeId : NodeId) : (st.nodeDrop nodeId).Sound := by
  refine ⟨h.consistent.nodeDrop nodeId, ?_⟩
  obtain ⟨-, hentries⟩ := updateTenants_pure (fun t => t.derefNode nodeId) st.tenants
    st.scheduler
  intro e he
  simp only [ServiceState.nodeDrop] at he
  rw [hentries, SortedMap.mapVal_entries] at he
  obtain ⟨e₀, he₀, rfl⟩ := List.mem_map.mp he
  have hok := h.shards e₀ he₀
  exact ⟨TenantState.noDuplicates_derefNode hok.1 nodeId, hok.2⟩

/-- One allowed request keeps the invariant. -/
theorem Sound.handle (h : st.Sound) {r : Request} (hr : r.Allowed st) : (st.handle r).Sound := by
  cases r with
  | setPolicy t policy => exact h.setPolicy t policy hr
  | migrate t nodeId => exact h.tenantShardMigrate t nodeId hr
  | configure nodeId availability scheduling => exact h.nodeConfigure nodeId availability scheduling
  | tenantDrop shards => exact h.tenantDrop shards
  | nodeDrop nodeId => exact h.nodeDrop nodeId

/-- Every allowed run keeps the invariant. -/
theorem Sound.run (h : st.Sound) : ∀ {rs : List Request}, AllowedRun st rs → (st.run rs).Sound := by
  intro rs
  induction rs generalizing st with
  | nil => intro _; exact h
  | cons r rs ih =>
    intro hrs
    exact ih (h.handle hrs.1) hrs.2

/-- A loaded shard names at most its generation's node, under its row's policy. -/
theorem foldl_loadShard_shardOk (rows : List TenantShardPersistence)
    (hpol : ∀ tsp ∈ rows, ∀ k, tsp.placementPolicy ≠ .double k) :
    ∀ acc : SortedMap TenantShardId TenantState × Scheduler, (∀ e ∈ acc.1.entries, ShardOk e.2) →
      ∀ e ∈ (rows.foldl loadShard acc).1.entries, ShardOk e.2 := by
  induction rows with
  | nil => intro acc hacc; exact hacc
  | cons tsp rows ih =>
    intro acc hacc
    refine ih (fun tsp' h' => hpol tsp' (List.mem_cons_of_mem _ h')) _ (fun e he => ?_)
    unfold loadShard at he
    rcases (SortedMap.mem_insert_iff _ _ _ _).mp he with rfl | ⟨he, -⟩
    · refine ⟨?_, hpol tsp (List.mem_cons_self ..)⟩
      split <;> simp [TenantState.noDuplicates_iff, IntentState.new]
    · exact hacc e he

/-- Loaded from rows that name known nodes, with distinct ids and no `Double` policy, and
then driven by any allowed run, the service passes `consistency_check`. -/
theorem schedulerCheck_after_run (nodeRows : List NodePersistence)
    (shardRows : List TenantShardPersistence) (hids : (shardRows.map (·.tenantShardId)).Nodup)
    (hgen : ∀ tsp ∈ shardRows, ∀ n ∈ generationNode tsp, n ∈ nodeRows.map (·.nodeId))
    (hpol : ∀ tsp ∈ shardRows, ∀ k, tsp.placementPolicy ≠ .double k) (rs : List Request)
    (hrs : AllowedRun (spawn nodeRows shardRows) rs) :
    ((spawn nodeRows shardRows).run rs).schedulerCheck = .ok () := by
  refine (Sound.run ⟨spawn_consistent nodeRows shardRows hids hgen, ?_⟩ hrs).consistent.check
  exact foldl_loadShard_shardOk shardRows hpol _ (fun e he => by simp at he)

/-- Two nodes and one shard whose generation was issued to node 1, loaded and then driven by a
run that brings node 1 online, migrates the shard to node 2 and sets its policy to `Single`: the
service passes `consistency_check`. -/
theorem schedulerCheck_after_run_migrate :
    (([⟨7, 1, .single⟩] : List TenantShardPersistence).map (·.tenantShardId)).Nodup ∧
      (∀ tsp ∈ ([⟨7, 1, .single⟩] : List TenantShardPersistence), ∀ n ∈ generationNode tsp,
        n ∈ ([⟨1, .active⟩, ⟨2, .active⟩] : List NodePersistence).map (·.nodeId)) ∧
      (∀ tsp ∈ ([⟨7, 1, .single⟩] : List TenantShardPersistence), ∀ k,
        tsp.placementPolicy ≠ .double k) ∧
      AllowedRun (spawn [⟨1, .active⟩, ⟨2, .active⟩] [⟨7, 1, .single⟩])
        [.configure 1 (some .active) none, .migrate 7 2, .setPolicy 7 .single] ∧
      ((spawn [⟨1, .active⟩, ⟨2, .active⟩] [⟨7, 1, .single⟩]).run
        [.configure 1 (some .active) none, .migrate 7 2, .setPolicy 7 .single]).schedulerCheck =
          .ok () := by
  have hids : (([⟨7, 1, .single⟩] : List TenantShardPersistence).map (·.tenantShardId)).Nodup := by
    decide
  have hgen : ∀ tsp ∈ ([⟨7, 1, .single⟩] : List TenantShardPersistence), ∀ n ∈ generationNode tsp,
      n ∈ ([⟨1, .active⟩, ⟨2, .active⟩] : List NodePersistence).map (·.nodeId) := by
    decide
  have hpol : ∀ tsp ∈ ([⟨7, 1, .single⟩] : List TenantShardPersistence), ∀ k,
      tsp.placementPolicy ≠ .double k := by
    simp
  -- only the migration asks something of the state: that node 2 is registered
  have hrs : AllowedRun (spawn [⟨1, .active⟩, ⟨2, .active⟩] [⟨7, 1, .single⟩])
      [.configure 1 (some .active) none, .migrate 7 2, .setPolicy 7 .single] :=
    ⟨trivial, by unfold Request.Allowed; decide, fun k => by simp, trivial⟩
  exact ⟨hids, hgen, hpol, hrs, schedulerCheck_after_run _ _ hids hgen hpol _ hrs⟩

end ServiceState

/-! ## A startup that breaks the counts -/

/-- Two pageservers, and one shard of `Single` policy whose generation was issued to node 1. -/
def loadedTwoNodes : ServiceState :=
  ServiceState.spawn [⟨1, .active⟩, ⟨2, .active⟩] [⟨0, 1, .single⟩]

/-- At startup node 2 reports the shard attached, in a later generation, and node 1 reports
nothing. -/
def startedTwoNodes : ServiceState :=
  loadedTwoNodes.startupReconcile [(1, []), (2, [(0, some ⟨.attachedSingle, some 5⟩)])]

/-! ## A duplicate secondary, and the promotion that loses it -/

/-- The two nodes online, and the shard of `Double(1)` policy scheduled. -/
def doubledOnce : ServiceState :=
  let st := ServiceState.spawn [⟨1, .active⟩, ⟨2, .active⟩] [⟨0, 1, .double 1⟩]
  let st := (st.nodeConfigure 1 (some .active) none).1
  let st := (st.nodeConfigure 2 (some .active) none).1
  (st.setPolicy 0 (.double 1)).1

/-- The policy raised to `Double(2)`: the one node not attached is picked again. -/
def doubledTwice : ServiceState × Except String Unit :=
  doubledOnce.setPolicy 0 (.double 2)

/-- Node 1 goes offline: node 2 is promoted, and both its entries leave the secondaries. -/
def offlineAfterDouble : ServiceState :=
  (doubledTwice.1.nodeConfigure 1 (some .offline) none).1

/-- The counts pass the check after loading, and fail it after the startup reconciliation; they
pass it with the shard at `Double(1)`, `schedule` then returns `Ok` for `Double(2)` with node 2
named twice, and once node 1 goes offline they fail the check again. -/
theorem schedulerCheck_diverges :
    loadedTwoNodes.schedulerCheck = .ok () ∧
      (startedTwoNodes.tenants.get 0).map (·.intent) = some ⟨some 2, []⟩ ∧
      startedTwoNodes.schedulerCheck = .error "Inconsistent state on 1" ∧
      doubledOnce.schedulerCheck = .ok () ∧
      doubledTwice.2 = .ok () ∧
      (doubledTwice.1.tenants.get 0).map (·.intent) = some ⟨some 1, [2, 2]⟩ ∧
      offlineAfterDouble.schedulerCheck = .error "Inconsistent state on 2" := by
  decide

end NeonStorage.AttachmentService

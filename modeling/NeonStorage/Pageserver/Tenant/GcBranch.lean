import Mathlib
import NeonStorage.Lib.EStateM
import NeonStorage.Lib.Trace
import NeonStorage.Pageserver.Timeline.Gc

/-!
# Branch creation against garbage collection

`Tenant::branch_timeline_impl` (`pageserver/src/tenant.rs`) creates a timeline branched from a
source timeline at `start_lsn`, after checking `start_lsn` against the source's latest GC cutoff
and against the cutoff its `gc_info` plans.  `Tenant::refresh_gc_info_internal` plans the GC of
the source: `Timeline::update_gc_info` stores in its `gc_info` the branch points of its children
as `retain_lsns`, and the horizon and PITR cutoffs.  Both hold the tenant's `gc_cs` lock
throughout, so they never overlap.  `Timeline::gc` does not take `gc_cs`: it reads `gc_info`,
and then `gc_timeline` moves the latest GC cutoff forwards and removes the layers it collects.

The model keeps, for one source timeline, what these operations read and write: its `gc_info`,
its latest GC cutoff and its historic layers, the branch points of the timelines branched from
it, and what a GC of it has read of `gc_info` before it runs `gc_timeline` (one GC of a timeline
runs at a time, under its `gc_lock`).  A refresh and a branch creation are one step each; a GC
is two, its read and its run, so that other operations come between them in some runs.  The
values that come from outside (the last record LSN, the configured horizon, the answer of the
commit timestamp lookup, the disk consistent LSN, whether uploads are accepted) are arguments
of the steps.

A read of a branch at its ancestor LSN `s` goes to the source with the page-reconstruction chain
at `s + 1`.  The invariant `Tenant.Inv` says that such chains, and those at or above the latest
GC cutoff, are the chains of the map the run started from.  It holds over every run in which no
refresh plans a cutoff below that of a GC that has already read `gc_info`
(`branchpoints_stay_readable`).  Without that condition it fails: a GC that read `gc_info`
before a refresh lowered the planned cutoff removes, after a branch created under the lowered
plan, layers that reads of the branch need.  The last theorem gives such a run.
-/

namespace NeonStorage

/-- `GcInfo`: what a refresh plans for the GC of a timeline. -/
structure GcInfo where
  retainLsns : List Nat
  horizonCutoff : Nat
  pitrCutoff : Nat
deriving DecidableEq, Repr

/-- `LsnForTimestamp`: the answer of `find_lsn_for_timestamp`. -/
inductive LsnForTimestamp where
  | present (lsn : Nat)
  | future (lsn : Nat)
  | past (lsn : Nat)
  | noData (lsn : Nat)
deriving DecidableEq, Repr

/-- What `update_gc_info` finds for the start of the PITR window: none is configured (`pitr`
is zero), the window reaches back before the clock's epoch, `find_lsn_for_timestamp` answers,
or it fails. -/
inductive PitrLookup where
  | disabled
  | beforeEpoch
  | found (answer : LsnForTimestamp)
  | failed
deriving DecidableEq, Repr

/-- The part of `Timeline` that GC and branch creation read and write. -/
structure Timeline where
  gcInfo : GcInfo
  latestGcCutoffLsn : Nat
  layers : LayerMap

/-- What `Timeline::gc` reads of `gc_info` before it calls `gc_timeline`. -/
structure GcRead where
  horizonCutoff : Nat
  pitrCutoff : Nat
  retainLsns : List Nat
deriving DecidableEq, Repr

namespace GcRead

/-- The `new_gc_cutoff` of `Timeline::gc`. -/
def newGcCutoff (read : GcRead) : Nat :=
  min read.horizonCutoff read.pitrCutoff

/-- A GC with these values keeps the chains of reads at `lsn`: it collects below `lsn`, or
retains `lsn`. -/
def Spares (read : GcRead) (lsn : Nat) : Prop :=
  read.newGcCutoff ≤ lsn ∨ lsn ∈ read.retainLsns

end GcRead

namespace Timeline

/-- The planned GC cutoff that `branch_timeline_impl` checks against. -/
def plannedGcCutoff (self : Timeline) : Nat :=
  min self.gcInfo.pitrCutoff self.gcInfo.horizonCutoff

/-- The PITR cutoff of `Timeline::update_gc_info`: where no commit timestamp tells where the
window starts, it falls back to the latest GC cutoff, so as to remove nothing more. -/
def pitrCutoff (self : Timeline) (cutoffHorizon : Nat) : PitrLookup → Except String Nat
  | .disabled => .ok cutoffHorizon
  | .beforeEpoch => .ok self.latestGcCutoffLsn
  | .found (.present lsn) => .ok lsn
  | .found (.future _) => .ok cutoffHorizon
  | .found (.past _) => .ok self.latestGcCutoffLsn
  | .found (.noData _) => .ok self.latestGcCutoffLsn
  | .failed => .error "find_lsn_for_timestamp failed"

/-- `Timeline::update_gc_info`. -/
def updateGcInfo (self : Timeline) (retainLsns : List Nat) (cutoffHorizon : Nat)
    (pitr : PitrLookup) : Except String Timeline := do
  let pitrCutoff ← self.pitrCutoff cutoffHorizon pitr
  pure { self with gcInfo := { retainLsns, horizonCutoff := cutoffHorizon, pitrCutoff } }

/-- What `Timeline::gc` reads of `gc_info`: the horizon cutoff, no higher than the disk
consistent LSN, the PITR cutoff and the retained LSNs. -/
def readGcInfo (self : Timeline) (diskConsistentLsn : Nat) : GcRead where
  horizonCutoff := min self.gcInfo.horizonCutoff diskConsistentLsn
  pitrCutoff := self.gcInfo.pitrCutoff
  retainLsns := self.gcInfo.retainLsns

/-- `Timeline::gc` from its read of `gc_info` on: `gc_timeline` with the values read.  Unless the
cutoff moves forwards there is nothing to do; otherwise the cutoff moves before the layers are
scanned, and the layers collected are removed once the uploads scheduled for them are
accepted. -/
def gc (read : GcRead) (uploadOk : Bool) : EStateM String Timeline Unit := do
  let self ← get
  let newGcCutoff := read.newGcCutoff
  if self.latestGcCutoffLsn ≥ newGcCutoff then return
  (if ¬self.latestGcCutoffLsn ≤ newGcCutoff then
    throw "Cannot move GC cutoff LSN backwards" else pure ())
  set { self with latestGcCutoffLsn := newGcCutoff }
  let (_, layersToRemove) ← MonadExcept.ofExcept (gcTimeline self.latestGcCutoffLsn self.layers
    read.horizonCutoff read.pitrCutoff read.retainLsns newGcCutoff)
  if layersToRemove.isEmpty then return
  (if !uploadOk then throw "schedule_uploads failed" else pure ())
  match self.layers.batchUpdate (layersToRemove.map .removeHistoric) with
  | some layers => set { self with latestGcCutoffLsn := newGcCutoff, layers }
  | none => throw "unexpected retroactive insert"

end Timeline

/-- A tenant as GC and branch creation see one source timeline: the timeline, the branch points
of the timelines branched from it, and what a GC of it has read of `gc_info`, while that GC has
not yet run `gc_timeline`. -/
structure Tenant where
  timeline : Timeline
  branchpoints : List Nat
  gcInFlight : Option GcRead

namespace Tenant

/-- `Tenant::refresh_gc_info_internal` for the source timeline: a timeline with less WAL than
the horizon is left as it is (`checked_sub` fails). -/
def refreshGcInfoInternal (self : Tenant) (lastRecordLsn horizon : Nat) (pitr : PitrLookup) :
    Except String Tenant :=
  if lastRecordLsn < horizon then .ok self
  else do
    let timeline ← self.timeline.updateGcInfo self.branchpoints (lastRecordLsn - horizon) pitr
    pure { self with timeline }

/-- `Tenant::branch_timeline_impl`: the start LSN, by default the source's last record LSN, must
be at or above the latest GC cutoff and the planned one. -/
def branchTimelineImpl (self : Tenant) (startLsn : Option Nat) (lastRecordLsn : Nat) :
    Except String Tenant :=
  let startLsn := startLsn.getD lastRecordLsn
  if startLsn < self.timeline.latestGcCutoffLsn then
    .error "invalid branch start lsn: less than latest GC cutoff"
  else if startLsn < self.timeline.plannedGcCutoff then
    .error "invalid branch start lsn: less than planned GC cutoff"
  else .ok { self with branchpoints := self.branchpoints ++ [startLsn] }

/-- What happens on the tenant: a refresh of the GC plan, the read and the run of a GC of the
source timeline, and a branch creation, each with the values its environment gives it. -/
inductive Event where
  | refreshGcInfo (lastRecordLsn horizon : Nat) (pitr : PitrLookup)
  | gcStart (diskConsistentLsn : Nat)
  | gcRun (uploadOk : Bool)
  | branchTimeline (startLsn : Option Nat) (lastRecordLsn : Nat)
deriving DecidableEq, Repr

/-- One step on the tenant, with its result.  A GC starts only when none is in flight, the
other waiting on the timeline's `gc_lock`; a run with no GC in flight does nothing. -/
def step (self : Tenant) : Event → Except String Unit × Tenant
  | .refreshGcInfo lastRecordLsn horizon pitr =>
    match self.refreshGcInfoInternal lastRecordLsn horizon pitr with
    | .ok tenant => (.ok (), tenant)
    | .error e => (.error e, self)
  | .gcStart diskConsistentLsn =>
    match self.gcInFlight with
    | some _ => (.ok (), self)
    | none => (.ok (), { self with gcInFlight := some (self.timeline.readGcInfo diskConsistentLsn) })
  | .gcRun uploadOk =>
    match self.gcInFlight with
    | none => (.ok (), self)
    | some read =>
      let r := Timeline.gc read uploadOk self.timeline
      (r.value, { self with timeline := r.state, gcInFlight := none })
  | .branchTimeline startLsn lastRecordLsn =>
    match self.branchTimelineImpl startLsn lastRecordLsn with
    | .ok tenant => (.ok (), tenant)
    | .error e => (.error e, self)

/-- A refresh plans no cutoff below that of a GC that has read `gc_info` and not yet run. -/
def Event.Admissible (self : Tenant) : Event → Prop
  | .refreshGcInfo lastRecordLsn horizon pitr =>
    ∀ read ∈ self.gcInFlight, read.newGcCutoff ≤
      (self.step (.refreshGcInfo lastRecordLsn horizon pitr)).2.timeline.plannedGcCutoff
  | .gcStart _ => True
  | .gcRun _ => True
  | .branchTimeline _ _ => True

instance (self : Tenant) : (ev : Event) → Decidable (ev.Admissible self)
  | .refreshGcInfo .. => inferInstanceAs (Decidable (∀ read ∈ self.gcInFlight, _))
  | .gcStart _ => inferInstanceAs (Decidable True)
  | .gcRun _ => inferInstanceAs (Decidable True)
  | .branchTimeline _ _ => inferInstanceAs (Decidable True)

end Tenant

/-! ## Reads of the branches -/

/-- Reads at `lsn` find on `lm` the chains they find on `lm₀`. -/
def Readable (lm₀ lm : LayerMap) (lsn : Nat) : Prop :=
  ∀ key fuel, lm.searchChain key fuel (lsn + 1) = lm₀.searchChain key fuel (lsn + 1)

theorem Readable.trans {lm₀ lm lm' : LayerMap} {lsn : Nat} (h : Readable lm₀ lm lsn)
    (h' : Readable lm lm' lsn) : Readable lm₀ lm' lsn :=
  fun key fuel => (h' key fuel).trans (h key fuel)

namespace Timeline

theorem updateGcInfo_eq_ok {self t : Timeline} {retainLsns : List Nat} {cutoffHorizon : Nat}
    {pitr : PitrLookup} (h : self.updateGcInfo retainLsns cutoffHorizon pitr = .ok t) :
    ∃ pitrCutoff, t =
      { self with gcInfo := { retainLsns, horizonCutoff := cutoffHorizon, pitrCutoff } } := by
  unfold updateGcInfo at h
  obtain ⟨pitrCutoff, -, h⟩ := except_bind_eq_ok h
  cases h
  exact ⟨pitrCutoff, rfl⟩

/-- A GC reads a cutoff no higher than the planned one. -/
theorem readGcInfo_newGcCutoff_le (self : Timeline) (diskConsistentLsn : Nat) :
    (self.readGcInfo diskConsistentLsn).newGcCutoff ≤ self.plannedGcCutoff := by
  simp only [readGcInfo, GcRead.newGcCutoff, plannedGcCutoff]
  omega

/-- What a GC run does to a flushed map of well-formed layers: nothing, or it moves the latest
GC cutoff forwards to its own and leaves a flushed map of well-formed layers on which every read
it spares finds the chains it found before. -/
theorem gc_state {self : Timeline} {current : LayerKey → Option PersistentLayerDesc}
    (hf : self.layers.Flushed current) (hwf : ∀ lk l, current lk = some l → l.WellFormed)
    (read : GcRead) (uploadOk : Bool) :
    (gc read uploadOk self).state = self ∨
      self.latestGcCutoffLsn < read.newGcCutoff ∧
      ∃ layers current', (gc read uploadOk self).state =
          { self with latestGcCutoffLsn := read.newGcCutoff, layers } ∧
        layers.Flushed current' ∧ (∀ lk l, current' lk = some l → l.WellFormed) ∧
        ∀ lsn, read.Spares lsn → Readable self.layers layers lsn := by
  obtain ⟨result, R, hgc, lm', current', hlm', hf', hwf', hchain⟩ :=
    hf.gcTimeline_remove hwf self.latestGcCutoffLsn read.horizonCutoff read.pitrCutoff
      read.newGcCutoff read.retainLsns
  by_cases hle : read.newGcCutoff ≤ self.latestGcCutoffLsn
  · exact .inl (by simp [gc, hle])
  refine .inr ⟨not_le.mp hle, ?_⟩
  -- the layers stay when nothing is collected or the uploads are refused
  have hstate : (gc read uploadOk self).state = { self with latestGcCutoffLsn := read.newGcCutoff } ∨
      (gc read uploadOk self).state =
        { self with latestGcCutoffLsn := read.newGcCutoff, layers := lm' } := by
    simp only [gc, EStateM.get_bind_apply, ge_iff_le, hle, if_false, (not_le.mp hle).le,
      not_true_eq_false, EStateM.pure_bind_apply, EStateM.set_bind_apply, hgc,
      EStateM.ofExcept_ok_bind_apply]
    cases R.isEmpty <;> cases uploadOk <;> simp [hlm']
  rcases hstate with h | h
  · exact ⟨self.layers, current, h, hf, hwf, fun _ _ _ _ => rfl⟩
  · refine ⟨lm', current', h, hf', hwf', fun lsn hlsn key fuel => ?_⟩
    obtain ⟨chain, h₁, -, h₂⟩ := hchain key lsn hlsn fuel
    rw [h₁, h₂]

end Timeline

namespace Tenant

/-- A refresh that plans a timeline sets its `gc_info`, with the branch points as the retained
LSNs; otherwise it changes nothing. -/
theorem step_refreshGcInfo (self : Tenant) (lastRecordLsn horizon : Nat) (pitr : PitrLookup) :
    (self.step (.refreshGcInfo lastRecordLsn horizon pitr)).2 = self ∨
      ∃ g : GcInfo, g.retainLsns = self.branchpoints ∧
        (self.step (.refreshGcInfo lastRecordLsn horizon pitr)).2 =
          { self with timeline := { self.timeline with gcInfo := g } } := by
  simp only [step]
  split
  · rename_i tenant htenant
    unfold refreshGcInfoInternal at htenant
    split at htenant
    · cases htenant
      exact .inl rfl
    · obtain ⟨t, ht, hret⟩ := except_bind_eq_ok htenant
      cases hret
      obtain ⟨pitrCutoff, rfl⟩ := Timeline.updateGcInfo_eq_ok ht
      exact .inr ⟨_, rfl, rfl⟩
  · exact .inl rfl

/-- A branch is created only at a start LSN at or above the latest GC cutoff and the planned
one. -/
theorem branchTimelineImpl_eq_ok {self tenant : Tenant} {startLsn : Option Nat}
    {lastRecordLsn : Nat} (h : self.branchTimelineImpl startLsn lastRecordLsn = .ok tenant) :
    ∃ s, self.timeline.latestGcCutoffLsn ≤ s ∧ self.timeline.plannedGcCutoff ≤ s ∧
      tenant = { self with branchpoints := self.branchpoints ++ [s] } := by
  unfold branchTimelineImpl at h
  dsimp only at h
  split_ifs at h with hlatest hplanned
  cases h
  exact ⟨_, not_lt.mp hlatest, not_lt.mp hplanned, rfl⟩

/-- The invariant of a tenant whose run started on the map `lm₀`: the map stays flushed with
well-formed layers; reads at or above the latest GC cutoff, and reads of every branch, find the
chains of `lm₀`; a GC in flight collects no higher than the plan; and the plan and the GC in
flight spare every branch point. -/
structure Inv (lm₀ : LayerMap) (tenant : Tenant) : Prop where
  flushed : ∃ current, tenant.timeline.layers.Flushed current ∧
    ∀ lk l, current lk = some l → l.WellFormed
  aboveLatest : ∀ lsn, tenant.timeline.latestGcCutoffLsn ≤ lsn →
    Readable lm₀ tenant.timeline.layers lsn
  inFlight : ∀ read ∈ tenant.gcInFlight, read.newGcCutoff ≤ tenant.timeline.plannedGcCutoff
  planned : ∀ s ∈ tenant.branchpoints,
    tenant.timeline.plannedGcCutoff ≤ s ∨ s ∈ tenant.timeline.gcInfo.retainLsns
  spared : ∀ s ∈ tenant.branchpoints, ∀ read ∈ tenant.gcInFlight, read.Spares s
  readable : ∀ s ∈ tenant.branchpoints, Readable lm₀ tenant.timeline.layers s

variable {lm₀ : LayerMap} {self : Tenant}

theorem inv_start {t₀ : Timeline} {current : LayerKey → Option PersistentLayerDesc}
    (hf : t₀.layers.Flushed current) (hwf : ∀ lk l, current lk = some l → l.WellFormed) :
    Inv t₀.layers ⟨t₀, [], none⟩ where
  flushed := ⟨current, hf, hwf⟩
  aboveLatest _ _ _ _ := rfl
  inFlight := by simp
  planned := by simp
  spared := by simp
  readable := by simp

/-- A refresh retains every branch point; the admissibility of the step is what keeps a GC in
flight below the new plan. -/
theorem inv_refreshGcInfo (hinv : Inv lm₀ self) {lastRecordLsn horizon : Nat} {pitr : PitrLookup}
    (hadm : (Event.refreshGcInfo lastRecordLsn horizon pitr).Admissible self) :
    Inv lm₀ (self.step (.refreshGcInfo lastRecordLsn horizon pitr)).2 := by
  rcases step_refreshGcInfo self lastRecordLsn horizon pitr with h | ⟨g, hg, h⟩
  · rw [h]
    exact hinv
  · have hinFlight : ∀ read ∈ self.gcInFlight, read.newGcCutoff ≤
        (self.step (.refreshGcInfo lastRecordLsn horizon pitr)).2.timeline.plannedGcCutoff := hadm
    rw [h] at hinFlight ⊢
    exact
      { flushed := hinv.flushed
        aboveLatest := hinv.aboveLatest
        inFlight := hinFlight
        planned := fun s hs => .inr (hg ▸ hs)
        spared := hinv.spared
        readable := hinv.readable }

/-- A GC reads `gc_info`, which spares every branch point that the plan spares. -/
theorem inv_gcStart (hinv : Inv lm₀ self) (diskConsistentLsn : Nat) :
    Inv lm₀ (self.step (.gcStart diskConsistentLsn)).2 := by
  simp only [step]
  split
  · exact hinv
  · have hread := self.timeline.readGcInfo_newGcCutoff_le diskConsistentLsn
    refine ⟨hinv.flushed, hinv.aboveLatest, by simpa using hread, hinv.planned, ?_,
      hinv.readable⟩
    intro s hs read hr
    simp only [Option.mem_def, Option.some.injEq] at hr
    subst hr
    rcases hinv.planned s hs with h | h
    · exact .inl (hread.trans h)
    · exact .inr h

/-- A GC run keeps the chains of the reads it spares, among them the reads of every branch and
those at or above its new cutoff. -/
theorem inv_gcRun (hinv : Inv lm₀ self) (uploadOk : Bool) :
    Inv lm₀ (self.step (.gcRun uploadOk)).2 := by
  simp only [step]
  split
  · exact hinv
  · rename_i read hread
    obtain ⟨current, hf, hwf⟩ := hinv.flushed
    rcases Timeline.gc_state hf hwf read uploadOk with
      heq | ⟨hlt, layers, current', heq, hf', hwf', hspared⟩
    · rw [heq]
      exact ⟨⟨current, hf, hwf⟩, hinv.aboveLatest, by simp, hinv.planned, by simp, hinv.readable⟩
    · rw [heq]
      refine ⟨⟨current', hf', hwf'⟩, fun lsn hlsn => ?_, by simp, hinv.planned, by simp,
        fun s hs => (hinv.readable s hs).trans (hspared s (hinv.spared s hs read hread))⟩
      exact (hinv.aboveLatest lsn (by simp at hlsn; omega)).trans (hspared lsn (.inl hlsn))

/-- A branch is created at or above the latest GC cutoff and the plan, which is at or above the
cutoff of a GC in flight. -/
theorem inv_branchTimeline (hinv : Inv lm₀ self) (startLsn : Option Nat) (lastRecordLsn : Nat) :
    Inv lm₀ (self.step (.branchTimeline startLsn lastRecordLsn)).2 := by
  simp only [step]
  split
  · rename_i tenant htenant
    obtain ⟨s, hlatest, hplanned, rfl⟩ := branchTimelineImpl_eq_ok htenant
    refine ⟨hinv.flushed, hinv.aboveLatest, hinv.inFlight, ?_, ?_, ?_⟩ <;>
      intro s' hs' <;> rcases List.mem_append.mp hs' with hs' | hs'
    · exact hinv.planned s' hs'
    · exact .inl ((List.mem_singleton.mp hs') ▸ hplanned)
    · exact hinv.spared s' hs'
    · exact fun read hr => .inl ((hinv.inFlight read hr).trans ((List.mem_singleton.mp hs') ▸ hplanned))
    · exact hinv.readable s' hs'
    · exact (List.mem_singleton.mp hs') ▸ hinv.aboveLatest s hlatest
  · exact hinv

/-- The step lemma: an admissible step keeps the invariant. -/
theorem inv_step {ev : Event} (hinv : Inv lm₀ self) (hadm : ev.Admissible self) :
    Inv lm₀ (self.step ev).2 := by
  cases ev with
  | refreshGcInfo lastRecordLsn horizon pitr => exact inv_refreshGcInfo hinv hadm
  | gcStart diskConsistentLsn => exact inv_gcStart hinv diskConsistentLsn
  | gcRun uploadOk => exact inv_gcRun hinv uploadOk
  | branchTimeline startLsn lastRecordLsn => exact inv_branchTimeline hinv startLsn lastRecordLsn

/-- Over every run from a source timeline with a flushed map of well-formed layers and no
branches, in which no refresh plans a cutoff below that of a GC that has read `gc_info`: at
every step, the GC in flight spares every branch point, whenever the branch was created; and
reads of every branch find the chains of the map the run started from. -/
theorem branchpoints_stay_readable {t₀ : Timeline}
    {current : LayerKey → Option PersistentLayerDesc} (hf : t₀.layers.Flushed current)
    (hwf : ∀ lk l, current lk = some l → l.WellFormed) (evs : List Event)
    (hadm : ∀ tr ∈ trace step ⟨t₀, [], none⟩ evs, tr.input.Admissible tr.before) :
    ∀ tr ∈ trace step ⟨t₀, [], none⟩ evs,
      (∀ s ∈ tr.before.branchpoints, ∀ read ∈ tr.before.gcInFlight, read.Spares s) ∧
      ∀ s ∈ tr.after.branchpoints, Readable t₀.layers tr.after.timeline.layers s := by
  have hrun := mem_trace_invariant (Inv t₀.layers) (fun tenant ev => ev.Admissible tenant)
    (fun _ _ hadm hinv => inv_step hinv hadm) _ evs (inv_start hf hwf) hadm
  intro tr htr
  exact ⟨(hrun tr htr).1.spared, (hrun tr htr).2.readable⟩

/-- Over the image, the delta above it and the newer image of `branch_during_gc_loses_layers`,
a run that plans the GC at 100, starts it, branches at 100 and runs the GC: every step spares
the branch points and keeps the branches readable. -/
theorem branchpoints_stay_readable_planned :
    ∃ lm, LayerMap.new.batchUpdate
        [.insertHistoric ⟨⟨⟨0, 0, 0, 0, 0, 0⟩, ⟨0, 0, 0, 0, 0, 10⟩⟩, ⟨10, 11⟩, false, 0⟩,
          .insertHistoric ⟨⟨⟨0, 0, 0, 0, 0, 0⟩, ⟨0, 0, 0, 0, 0, 10⟩⟩, ⟨11, 20⟩, true, 0⟩,
          .insertHistoric ⟨⟨⟨0, 0, 0, 0, 0, 0⟩, ⟨0, 0, 0, 0, 0, 10⟩⟩, ⟨90, 91⟩, false, 0⟩] = some lm ∧
      (∀ tr ∈ trace step ⟨⟨⟨[], 0, 0⟩, 0, lm⟩, [], none⟩
        [.refreshGcInfo 100 0 (.found (.present 100)), .gcStart 100, .branchTimeline (some 100) 100,
          .gcRun true], tr.input.Admissible tr.before) ∧
      ∀ tr ∈ trace step ⟨⟨⟨[], 0, 0⟩, 0, lm⟩, [], none⟩
        [.refreshGcInfo 100 0 (.found (.present 100)), .gcStart 100, .branchTimeline (some 100) 100,
          .gcRun true],
        (∀ s ∈ tr.before.branchpoints, ∀ read ∈ tr.before.gcInFlight, read.Spares s) ∧
        ∀ s ∈ tr.after.branchpoints, Readable lm tr.after.timeline.layers s := by
  obtain ⟨lm, hlm, hf⟩ := LayerMap.flushed_new.batchUpdate
    ([.insertHistoric ⟨⟨⟨0, 0, 0, 0, 0, 0⟩, ⟨0, 0, 0, 0, 0, 10⟩⟩, ⟨10, 11⟩, false, 0⟩,
          .insertHistoric ⟨⟨⟨0, 0, 0, 0, 0, 0⟩, ⟨0, 0, 0, 0, 0, 10⟩⟩, ⟨11, 20⟩, true, 0⟩,
          .insertHistoric ⟨⟨⟨0, 0, 0, 0, 0, 0⟩, ⟨0, 0, 0, 0, 0, 10⟩⟩, ⟨90, 91⟩, false, 0⟩] : List LayerMapUpdate)
  -- the run the map computes admits every step
  have hcomp : ∃ lm₀, LayerMap.new.batchUpdate
      [.insertHistoric ⟨⟨⟨0, 0, 0, 0, 0, 0⟩, ⟨0, 0, 0, 0, 0, 10⟩⟩, ⟨10, 11⟩, false, 0⟩,
          .insertHistoric ⟨⟨⟨0, 0, 0, 0, 0, 0⟩, ⟨0, 0, 0, 0, 0, 10⟩⟩, ⟨11, 20⟩, true, 0⟩,
          .insertHistoric ⟨⟨⟨0, 0, 0, 0, 0, 0⟩, ⟨0, 0, 0, 0, 0, 10⟩⟩, ⟨90, 91⟩, false, 0⟩] = some lm₀ ∧
      ∀ tr ∈ trace step ⟨⟨⟨[], 0, 0⟩, 0, lm₀⟩, [], none⟩
        [.refreshGcInfo 100 0 (.found (.present 100)), .gcStart 100, .branchTimeline (some 100) 100,
          .gcRun true], tr.input.Admissible tr.before :=
    ⟨_, rfl, by decide⟩
  obtain ⟨lm₀, hlm₀, hadm⟩ := hcomp
  rw [hlm] at hlm₀
  cases hlm₀
  exact ⟨lm, hlm, hadm, branchpoints_stay_readable hf
    (wellFormed_foldl_apply (by decide)) _ hadm⟩

/-- A GC reads `gc_info` planned with cutoff 100 and nothing to retain.  A refresh that finds no
commit timestamp for the PITR window then plans the PITR cutoff at the latest GC cutoff, 0, a
step the run lemma does not admit, and a branch at 60 passes both checks of
`branch_timeline_impl`.  The GC then runs with the cutoff it read: it moves the latest GC cutoff
to 100, above the branch point, and removes the image at 10 and the delta from 11 to 20 that
reads of the branch at 60 go through, which then find nothing. -/
theorem branch_during_gc_loses_layers :
    let keys : Range Key := ⟨⟨0, 0, 0, 0, 0, 0⟩, ⟨0, 0, 0, 0, 0, 10⟩⟩
    let image₁ : PersistentLayerDesc := ⟨keys, ⟨10, 11⟩, false, 0⟩
    let delta : PersistentLayerDesc := ⟨keys, ⟨11, 20⟩, true, 0⟩
    let image₂ : PersistentLayerDesc := ⟨keys, ⟨90, 91⟩, false, 0⟩
    let key : Key := ⟨0, 0, 0, 0, 0, 5⟩
    ∃ lm, LayerMap.new.batchUpdate
        [.insertHistoric image₁, .insertHistoric delta, .insertHistoric image₂] = some lm ∧
      let t₀ : Timeline :=
        { gcInfo := { retainLsns := [], horizonCutoff := 0, pitrCutoff := 0 }
          latestGcCutoffLsn := 0, layers := lm }
      let run := trace step ⟨t₀, [], none⟩
        [.refreshGcInfo 100 0 (.found (.present 100)), .gcStart 100,
          .refreshGcInfo 100 0 (.found (.past 0)), .branchTimeline (some 60) 100, .gcRun true]
      run.map (·.output) = [.ok (), .ok (), .ok (), .ok (), .ok ()] ∧
      run.map (fun tr => decide (tr.input.Admissible tr.before)) =
        [true, true, false, true, true] ∧
      lm.searchChain key 2 61 = .ok [⟨delta, 11⟩, ⟨image₁, 10⟩] ∧
      run.getLast?.map (fun tr => (tr.before.gcInFlight, tr.after.branchpoints,
          tr.after.timeline.latestGcCutoffLsn, tr.after.timeline.layers.searchChain key 2 61)) =
        some (some ⟨100, 100, []⟩, [60], 100, .ok []) := by
  intro keys image₁ delta image₂ key
  exact ⟨_, rfl, by decide⟩

end Tenant

end NeonStorage

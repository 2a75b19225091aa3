import NeonStorage.Pageserver.LayerMap.Historic

/-!
# Batched layer-map updates against the naive reference

`LayerMap::batch_update` (`pageserver/src/tenant/layer_map.rs`) hands out a
`BatchedUpdates`: its `insert_historic` and `remove_historic` buffer updates in the
`BufferedHistoricLayerCoverage`, and dropping it flushes them with `rebuild`.

The naive reference answers a query at LSN `x` and key `k` by searching the layers that
are current after all updates: among those of the kind whose key range holds `k` and
which start at or below `x`, the one with the greatest `lsn.end`, the least `LayerKey`
among equals.  `getVersion_query_naive` states that after any sequence of batches no
re-insertion panics, the coverage is readable, and every query of every version answers
as the reference does.

The proof has three parts: laying a sorted list of layers leaves at every key its best
covering layer (`bestCover_coverOf`); the buffered coverage keeps the invariant
`BufferedHistoricLayerCoverage.Inv` through every update and every rebuild; and a version
denotes exactly the current layers that start at or below the queried LSN.
-/

namespace NeonStorage

variable {V : Type}

open SortedMap LayerCoverage

/-! ## Updates and the naive reference -/

/-- One call on a `BatchedUpdates`, with the `LayerKey` the layer map derives from the
layer's descriptor. -/
inductive LayerUpdate (V : Type) where
  | insertHistoric (layerKey : LayerKey) (value : V)
  | removeHistoric (layerKey : LayerKey)
deriving Repr

namespace LayerUpdate

def layerKey : LayerUpdate V → LayerKey
  | insertHistoric layerKey _ => layerKey
  | removeHistoric layerKey => layerKey

/-- What an update does to the current layers, a partial map from `LayerKey`. -/
def apply (current : LayerKey → Option V) : LayerUpdate V → LayerKey → Option V
  | insertHistoric layerKey value => Function.update current layerKey (some value)
  | removeHistoric layerKey => Function.update current layerKey none

end LayerUpdate

/-- A property of every inserted layer holds of every current layer. -/
theorem LayerUpdate.foldl_apply_forall {P : LayerKey → V → Prop} {current : LayerKey → Option V}
    (h : ∀ lk v, current lk = some v → P lk v) (us : List (LayerUpdate V))
    (hus : ∀ u ∈ us, ∀ lk v, u = .insertHistoric lk v → P lk v) :
    ∀ lk v, us.foldl LayerUpdate.apply current lk = some v → P lk v := by
  induction us generalizing current with
  | nil => exact h
  | cons u us ih =>
    refine ih (fun lk v hv => ?_) (fun u' hu' => hus u' (List.mem_cons_of_mem _ hu'))
    cases u with
    | insertHistoric lk' v' =>
      by_cases hk : lk = lk'
      · subst hk
        simp only [LayerUpdate.apply, Function.update_self, Option.some.injEq] at hv
        subst hv
        exact hus _ List.mem_cons_self lk v' rfl
      · rw [LayerUpdate.apply, Function.update_of_ne hk] at hv
        exact h lk v hv
    | removeHistoric lk' =>
      by_cases hk : lk = lk'
      · subst hk
        simp [LayerUpdate.apply] at hv
      · rw [LayerUpdate.apply, Function.update_of_ne hk] at hv
        exact h lk v hv

/-- Removing a list of layers leaves every other layer as it was. -/
theorem LayerUpdate.foldl_apply_remove (current : LayerKey → Option V) (ks : List LayerKey)
    (lk : LayerKey) :
    (ks.map (@LayerUpdate.removeHistoric V)).foldl LayerUpdate.apply current lk =
      if lk ∈ ks then none else current lk := by
  induction ks generalizing current with
  | nil => simp
  | cons k ks ih =>
    rw [List.map_cons, List.foldl_cons, ih]
    by_cases hk : lk = k
    · subst hk
      simp [LayerUpdate.apply]
    · by_cases hks : lk ∈ ks
      · simp [hks]
      · simp [hk, hks, LayerUpdate.apply]

/-- The layers current after a sequence of updates, applied in order. -/
def currentLayers (updates : List (LayerUpdate V)) : LayerKey → Option V :=
  updates.foldl LayerUpdate.apply fun _ => none

/-- The layer is of the kind and its key range holds `k`. -/
def LayerKey.Covers (lk : LayerKey) (isImage : Bool) (k : Int) : Prop :=
  lk.isImage = isImage ∧ lk.key.start ≤ k ∧ k < lk.key.end

instance (lk : LayerKey) (isImage : Bool) (k : Int) : Decidable (lk.Covers isImage k) :=
  inferInstanceAs (Decidable (_ ∧ _ ∧ _))

/-- A candidate of the naive reference: a current layer with its value, of the kind,
covering `k` and starting at or below `x`. -/
def Candidate (current : LayerKey → Option V) (isImage : Bool) (x : Nat) (k : Int)
    (lk : LayerKey) (v : V) : Prop :=
  current lk = some v ∧ lk.Covers isImage k ∧ lk.lsn.start ≤ x

/-- The naive answer among the layers `P` admits: the value of the one with the greatest
`lsn.end`, the least `LayerKey` among equals; `none` when there is none. -/
def NaiveAnswer (P : LayerKey → V → Prop) : Option V → Prop
  | none => ∀ lk v, ¬ P lk v
  | some v => ∃ lk, P lk v ∧ ∀ lk' v', P lk' v' →
      lk'.lsn.end < lk.lsn.end ∨ (lk'.lsn.end = lk.lsn.end ∧ lk ≤ lk')

/-- The naive answer is unique where each layer has one value. -/
theorem NaiveAnswer.unique {P : LayerKey → V → Prop} (hP : ∀ lk v w, P lk v → P lk w → v = w)
    {a b : Option V} (ha : NaiveAnswer P a) (hb : NaiveAnswer P b) : a = b := by
  cases a with
  | none =>
    cases b with
    | none => rfl
    | some w =>
      obtain ⟨lk, hw, -⟩ := hb
      exact absurd hw (ha lk w)
  | some v =>
    cases b with
    | none =>
      obtain ⟨lk, hv, -⟩ := ha
      exact absurd hv (hb lk v)
    | some w =>
      obtain ⟨lk₁, hv, h₁⟩ := ha
      obtain ⟨lk₂, hw, h₂⟩ := hb
      -- each is at least as good as the other, so they are the same layer
      have heq : lk₁ = lk₂ := by
        rcases h₁ lk₂ w hw with h | ⟨h, h'⟩ <;> rcases h₂ lk₁ v hv with g | ⟨g, g'⟩
        · omega
        · omega
        · omega
        · exact le_antisymm h' g'
      subst heq
      rw [hP lk₁ v w hv hw]

/-- Dropping layers other than the one that answers keeps the answer. -/
theorem NaiveAnswer.restrict {P P' : LayerKey → V → Prop} (hle : ∀ lk v, P' lk v → P lk v)
    {a : Option V} (h : NaiveAnswer P a) (hkeep : ∀ lk v, a = some v → P lk v → P' lk v) :
    NaiveAnswer P' a := by
  cases a with
  | none => exact fun lk v hv => h lk v (hle lk v hv)
  | some v =>
    obtain ⟨lk, hlk, hbest⟩ := h
    exact ⟨lk, hkeep lk v rfl hlk, fun lk' v' hv' => hbest lk' v' (hle lk' v' hv')⟩

/-- The answer ends at least as late as every layer the reference admits. -/
theorem NaiveAnswer.exists_le {P : LayerKey → V → Prop} {v : V} (h : NaiveAnswer P (some v)) :
    ∃ lk, P lk v ∧ ∀ lk' v', P lk' v' → lk'.lsn.end ≤ lk.lsn.end := by
  obtain ⟨lk, hlk, hbest⟩ := h
  refine ⟨lk, hlk, fun lk' v' hv' => ?_⟩
  rcases hbest lk' v' hv' with hlt | ⟨heq, -⟩
  · exact hlt.le
  · exact heq.le

theorem candidate_functional {current : LayerKey → Option V} {isImage : Bool} {x : Nat}
    {k : Int} : ∀ lk v w, Candidate current isImage x k lk v →
      Candidate current isImage x k lk w → v = w := by
  rintro lk v w ⟨hv, -⟩ ⟨hw, -⟩
  exact Option.some_injective _ (hv.symm.trans hw)

/-! ## The coverage of a sorted list of layers -/

section BestCover

/-- What `coverOf` holds at `k` for the layers of `L`: the greatest `lsn.end` among the
layers of the kind covering `k`, with the value of the least such layer. -/
def BestCover (L : List (LayerKey × V)) (isImage : Bool) (k : Int) : Option (Nat × V) → Prop
  | none => ∀ e ∈ L, ¬ e.1.Covers isImage k
  | some (h, v) => ∃ e ∈ L, e.1.Covers isImage k ∧ e.1.lsn.end = h ∧ e.2 = v ∧
      ∀ e' ∈ L, e'.1.Covers isImage k → e'.1.lsn.end < h ∨ (e'.1.lsn.end = h ∧ e.1 ≤ e'.1)

theorem coverOf_append_singleton_apply (L : List (LayerKey × V)) (lk : LayerKey) (v : V)
    (isImage : Bool) (k : Int) :
    coverOf (L ++ [(lk, v)]) isImage k =
      if lk.Covers isImage k ∧ needsCover lk.lsn.end (coverOf L isImage k) = true then
        some (lk.lsn.end, v) else coverOf L isImage k := by
  rw [coverOf_append_singleton]
  by_cases hk : lk.isImage = isImage
  · simp [hk, raise, LayerKey.Covers, and_assoc]
  · simp [hk, LayerKey.Covers]

namespace BestCover

variable {L : List (LayerKey × V)} {isImage : Bool} {k : Int}

/-- A layer that raises the cover ends above every covering layer before it. -/
theorem lt_of_needsCover {c : Option (Nat × V)} (h : BestCover L isImage k c) {lsnEnd : Nat}
    (hn : needsCover lsnEnd c = true) : ∀ e ∈ L, e.1.Covers isImage k → e.1.lsn.end < lsnEnd := by
  intro e he hc
  cases c with
  | none => exact absurd hc (h e he)
  | some p =>
    obtain ⟨m, w⟩ := p
    obtain ⟨e₀, he₀, hc₀, hm₀, hw₀, hbest⟩ := h
    have hm : m < lsnEnd := by simpa [needsCover] using hn
    rcases hbest e he hc with hlt | ⟨heq, -⟩ <;> omega

/-- A covering layer that raises the cover becomes the best. -/
theorem snoc_raise {c : Option (Nat × V)} (h : BestCover L isImage k c) {lk : LayerKey} (v : V)
    (hc : lk.Covers isImage k) (hn : needsCover lk.lsn.end c = true) :
    BestCover (L ++ [(lk, v)]) isImage k (some (lk.lsn.end, v)) := by
  refine ⟨(lk, v), by simp, hc, rfl, rfl, fun e' he' hc' => ?_⟩
  rcases List.mem_append.mp he' with he' | he'
  · exact Or.inl (h.lt_of_needsCover hn e' he' hc')
  · rw [List.mem_singleton.mp he']
    exact Or.inr ⟨rfl, le_rfl⟩

/-- A covering layer that does not raise the cover ends at most as high as the best, and
lies above it in `LayerKey` order. -/
theorem snoc_keep {m : Nat} {w : V} (h : BestCover L isImage k (some (m, w))) {lk : LayerKey}
    (v : V) (hlt : ∀ e ∈ L, e.1 < lk) (hn : ¬ m < lk.lsn.end) :
    BestCover (L ++ [(lk, v)]) isImage k (some (m, w)) := by
  obtain ⟨e, he, hc, hm, hw, hbest⟩ := h
  refine ⟨e, List.mem_append_left _ he, hc, hm, hw, fun e' he' hc' => ?_⟩
  rcases List.mem_append.mp he' with he' | he'
  · exact hbest e' he' hc'
  · rw [List.mem_singleton.mp he']
    rcases Nat.lt_or_eq_of_le (not_lt.mp hn) with h' | h'
    · exact Or.inl h'
    · exact Or.inr ⟨h', (hlt e he).le⟩

/-- A layer that does not cover `k` changes nothing there. -/
theorem snoc_of_not_covers {c : Option (Nat × V)} (h : BestCover L isImage k c) {lk : LayerKey}
    (v : V) (hc : ¬ lk.Covers isImage k) : BestCover (L ++ [(lk, v)]) isImage k c := by
  cases c with
  | none =>
    intro e he
    rcases List.mem_append.mp he with he | he
    · exact h e he
    · rw [List.mem_singleton.mp he]
      exact hc
  | some p =>
    obtain ⟨m, w⟩ := p
    obtain ⟨e, he, hce, hm, hw, hbest⟩ := h
    refine ⟨e, List.mem_append_left _ he, hce, hm, hw, fun e' he' hc' => ?_⟩
    rcases List.mem_append.mp he' with he' | he'
    · exact hbest e' he' hc'
    · rw [List.mem_singleton.mp he'] at hc'
      exact absurd hc' hc

end BestCover

/-- Laying a sorted list of layers in order leaves, at every key, its best covering layer:
a later layer raises the cover only when it ends strictly higher, so among equal ends the
least layer stays. -/
theorem bestCover_coverOf {L : List (LayerKey × V)} (hL : L.Pairwise (fun a b => a.1 < b.1))
    (isImage : Bool) (k : Int) : BestCover L isImage k (coverOf L isImage k) := by
  induction L using List.reverseRecOn with
  | nil =>
    rw [coverOf_nil]
    intro e he
    simp at he
  | append_singleton L e ih =>
    obtain ⟨lk, v⟩ := e
    have hsplit := List.pairwise_append.mp hL
    have hlt : ∀ e ∈ L, e.1 < lk := fun e he => hsplit.2.2 e he (lk, v) (by simp)
    have ih := ih hsplit.1
    rw [coverOf_append_singleton_apply]
    by_cases hc : lk.Covers isImage k
    · cases hcov : coverOf L isImage k with
      | none =>
        rw [hcov] at ih
        simp only [hc, needsCover, and_self, ↓reduceIte]
        exact ih.snoc_raise v hc rfl
      | some p =>
        obtain ⟨m, w⟩ := p
        rw [hcov] at ih
        by_cases hm : m < lk.lsn.end
        · simp only [hc, needsCover, hm, decide_true, and_self, ↓reduceIte]
          exact ih.snoc_raise v hc (by simpa [needsCover] using hm)
        · simp only [hc, needsCover, hm, decide_false, Bool.false_eq_true, and_false, ↓reduceIte]
          exact ih.snoc_keep v hlt hm
    · simp only [hc, false_and, ↓reduceIte]
      exact ih.snoc_of_not_covers v hc

/-- The best cover answers as the naive reference over the same layers. -/
theorem naiveAnswer_of_bestCover {P : LayerKey → V → Prop} {L : List (LayerKey × V)}
    {isImage : Bool} {k : Int} (hP : ∀ lk v, P lk v ↔ (lk, v) ∈ L ∧ lk.Covers isImage k)
    {c : Option (Nat × V)} (h : BestCover L isImage k c) : NaiveAnswer P (c.map (·.2)) := by
  cases c with
  | none =>
    intro lk v hlv
    obtain ⟨hmem, hc⟩ := (hP lk v).mp hlv
    exact h (lk, v) hmem hc
  | some p =>
    obtain ⟨m, w⟩ := p
    obtain ⟨⟨lk, v⟩, he, hc, rfl, rfl, hbest⟩ := h
    refine ⟨lk, (hP lk v).mpr ⟨he, hc⟩, fun lk' v' hlv' => ?_⟩
    obtain ⟨hmem', hc'⟩ := (hP lk' v').mp hlv'
    exact hbest (lk', v') hmem' hc'

end BestCover

/-! ## The buffered coverage and its invariant -/

namespace BufferedHistoricLayerCoverage

/-- `insert_historic_noflush` and `remove_historic_noflush`, on the historic part of the
layer map. -/
def applyUpdate (self : BufferedHistoricLayerCoverage V) :
    LayerUpdate V → BufferedHistoricLayerCoverage V
  | .insertHistoric layerKey value => self.insert layerKey value
  | .removeHistoric layerKey => self.remove layerKey

/-- A `BatchedUpdates` session: its calls in order, then `flush_updates` on drop. -/
def batchUpdate (self : BufferedHistoricLayerCoverage V) (updates : List (LayerUpdate V)) :
    Option (BufferedHistoricLayerCoverage V) :=
  (updates.foldl applyUpdate self).rebuild

theorem get_foldl_applyBufferEntry {l : List (LayerKey × Option V)}
    (hl : l.Pairwise (fun a b => a.1 < b.1)) (layers : SortedMap LayerKey V) (lk : LayerKey) :
    (l.foldl applyBufferEntry layers).get lk = (lookupList lk l).getD (layers.get lk) := by
  induction l generalizing layers with
  | nil => rfl
  | cons e rest ih =>
    obtain ⟨k, op⟩ := e
    rw [List.pairwise_cons] at hl
    rw [List.foldl_cons, ih hl.2, lookupList_cons]
    by_cases hk : k = lk
    · subst hk
      -- the buffer is sorted, so no later entry has the key
      rw [lookupList_of_forall_lt (fun e he => hl.1 e he)]
      cases op <;> simp [applyBufferEntry, get_insert, get_erase]
    · cases op <;> simp [applyBufferEntry, get_insert, get_erase, hk, Ne.symm hk]

/-- After the `retain` loop a layer is the buffered one, if any, and the old one otherwise. -/
theorem get_applyBuffer (buffer : SortedMap LayerKey (Option V)) (layers : SortedMap LayerKey V)
    (lk : LayerKey) : (applyBuffer buffer layers).get lk = (buffer.get lk).getD (layers.get lk) :=
  get_foldl_applyBufferEntry buffer.sorted layers lk

theorem applyBuffer_nonneg {buffer : SortedMap LayerKey (Option V)} {layers : SortedMap LayerKey V}
    (hb : ∀ e ∈ buffer.entries, e.1.KeyNonneg) (hl : ∀ e ∈ layers.entries, e.1.KeyNonneg) :
    ∀ e ∈ (applyBuffer buffer layers).entries, e.1.KeyNonneg := by
  rintro ⟨lk, v⟩ he
  rw [← get_eq_some_iff, get_applyBuffer] at he
  cases hbuf : buffer.get lk with
  | none =>
    rw [hbuf, Option.getD_none, get_eq_some_iff] at he
    exact hl _ he
  | some op =>
    rw [get_eq_some_iff] at hbuf
    exact hb _ hbuf

/-- The invariant of a buffered coverage whose current layers are `current`: the historic
coverage is built from `layers`, the buffer overrides `layers` to give `current`, and every
key range is non-negative. -/
structure Inv (st : BufferedHistoricLayerCoverage V) (current : LayerKey → Option V) :
    Prop where
  historic : HistoricInv st.historicCoverage st.layers.entries
  lookup : ∀ lk, current lk = (st.buffer.get lk).getD (st.layers.get lk)
  layersNonneg : ∀ e ∈ st.layers.entries, e.1.KeyNonneg
  bufferNonneg : ∀ e ∈ st.buffer.entries, e.1.KeyNonneg

theorem inv_new : Inv (new : BufferedHistoricLayerCoverage V) fun _ => none where
  historic := historicInv_new
  lookup := fun _ => rfl
  layersNonneg := fun e he => by simp [new] at he
  bufferNonneg := fun e he => by simp [new] at he

namespace Inv

variable {self : BufferedHistoricLayerCoverage V} {current : LayerKey → Option V}

/-- Buffering an insertion or a removal sets the current value at its key. -/
theorem bufferInsert (h : Inv self current) (lk : LayerKey) (op : Option V)
    (hk : lk.KeyNonneg) :
    Inv { self with buffer := self.buffer.insert lk op } (Function.update current lk op) where
  historic := h.historic
  lookup := fun lk' => by
    by_cases hl : lk' = lk
    · subst hl
      simp [get_insert]
    · simp [get_insert, hl, h.lookup lk']
  layersNonneg := h.layersNonneg
  bufferNonneg := fun e he => by
    rcases (mem_insert_iff _ _ _ e).mp he with rfl | ⟨he, -⟩
    · exact hk
    · exact h.bufferNonneg e he

theorem applyUpdate (h : Inv self current) (u : LayerUpdate V) (hu : u.layerKey.KeyNonneg) :
    Inv (self.applyUpdate u) (u.apply current) := by
  cases u with
  | insertHistoric lk v => exact h.bufferInsert lk (some v) hu
  | removeHistoric lk => exact h.bufferInsert lk none hu

theorem foldl_applyUpdate (h : Inv self current) (us : List (LayerUpdate V))
    (hus : ∀ u ∈ us, u.layerKey.KeyNonneg) :
    Inv (us.foldl BufferedHistoricLayerCoverage.applyUpdate self)
      (us.foldl LayerUpdate.apply current) := by
  induction us generalizing self current with
  | nil => exact h
  | cons u us ih =>
    exact ih (h.applyUpdate u (hus u (List.mem_cons_self ..)))
      (fun u' hu' => hus u' (List.mem_cons_of_mem _ hu'))

/-- A rebuild never panics: it empties the buffer and keeps the invariant.  It trims the
history at the least buffered `lsn.start`, below which the buffer changes no layer, and
re-inserts the layers from there on, which lie above the kept ones. -/
theorem rebuild (h : Inv self current) :
    ∃ st, self.rebuild = some st ∧ Inv st current ∧ st.buffer.entries = [] := by
  cases hfirst : self.buffer.first with
  | none =>
    exact ⟨self, by simp only [BufferedHistoricLayerCoverage.rebuild, hfirst], h,
      first_eq_none hfirst⟩
  | some e =>
    obtain ⟨lk₀, op₀⟩ := e
    set since := lk₀.lsn.start with hsince
    set layers := applyBuffer self.buffer self.layers with hlayers
    have hafter : ∀ e ∈ self.buffer.entries, since ≤ e.1.lsn.start :=
      fun e he => LayerKey.lsn_start_le_of_le ((first_eq_some hfirst).2 e he)
    have hnonneg : ∀ e ∈ layers.entries, e.1.KeyNonneg :=
      applyBuffer_nonneg h.bufferNonneg h.layersNonneg
    have hbelow : layers.entries.filter (fun l => l.1.lsn.start < since) =
        self.layers.entries.filter (fun l => l.1.lsn.start < since) := by
      refine filter_eq_of_get_eq (fun lk : LayerKey => lk.lsn.start < since) (fun lk hlk => ?_)
      have hnone : self.buffer.get lk = none := by
        rw [get_eq_none_iff, mem_keys_iff]
        rintro ⟨e, he, rfl⟩
        exact absurd hlk (not_lt.mpr (hafter e he))
      rw [hlayers, get_applyBuffer, hnone, Option.getD_none]
    have hsplit : layers.entries.filter (fun l => l.1.lsn.start < since) ++
        layers.rangeFrom (LayerKey.rebuildBound since) = layers.entries := by
      have hcongr : layers.entries.filter (fun l => l.1.lsn.start < since) =
          layers.entries.filter (fun l => l.1 < LayerKey.rebuildBound since) := by
        refine List.filter_congr (fun l hl => ?_)
        rw [decide_eq_decide, ← not_le, ← not_le, LayerKey.rebuildBound_le_iff (hnonneg l hl)]
      rw [hcongr]
      exact filter_lt_append_filter_le layers.sorted _
    have htrim := h.historic.trim since
    rw [← hbelow] at htrim
    obtain ⟨hc', hfold, hinv'⟩ := htrim.foldlM_insert (layers.rangeFrom (LayerKey.rebuildBound since))
      (by rw [hsplit]; exact layers.sorted)
    refine ⟨⟨hc', SortedMap.empty, layers⟩, ?_, ⟨hsplit ▸ hinv', fun lk => ?_, hnonneg, by simp⟩, rfl⟩
    · simp only [BufferedHistoricLayerCoverage.rebuild, hfirst]
      rw [← hlayers, ← hsince, hfold, Option.map_some]
    · rw [h.lookup lk, get_empty, Option.getD_none, hlayers, get_applyBuffer]

/-- A `BatchedUpdates` session never panics, empties the buffer and keeps the invariant. -/
theorem batchUpdate (h : Inv self current) (us : List (LayerUpdate V))
    (hus : ∀ u ∈ us, u.layerKey.KeyNonneg) :
    ∃ st, self.batchUpdate us = some st ∧ Inv st (us.foldl LayerUpdate.apply current) ∧
      st.buffer.entries = [] :=
  (h.foldl_applyUpdate us hus).rebuild

/-- Any sequence of sessions never panics. -/
theorem foldlM_batchUpdate (h : Inv self current) (hbuf : self.buffer.entries = [])
    (batches : List (List (LayerUpdate V))) (hkeys : ∀ u ∈ batches.flatten, u.layerKey.KeyNonneg) :
    ∃ st, batches.foldlM BufferedHistoricLayerCoverage.batchUpdate self = some st ∧
      Inv st (batches.flatten.foldl LayerUpdate.apply current) ∧ st.buffer.entries = [] := by
  induction batches generalizing self current with
  | nil => exact ⟨self, rfl, h, hbuf⟩
  | cons b bs ih =>
    obtain ⟨st₁, h₁, hinv₁, hbuf₁⟩ :=
      h.batchUpdate b (fun u hu => hkeys u (List.mem_flatten_of_mem List.mem_cons_self hu))
    obtain ⟨st, hrun, hinv, hbuf'⟩ := ih hinv₁ hbuf₁
      (fun u hu => hkeys u (by simp only [List.flatten_cons]; exact List.mem_append_right _ hu))
    refine ⟨st, ?_, by simpa [List.flatten_cons, List.foldl_append] using hinv, hbuf'⟩
    rw [List.foldlM_cons, h₁]
    exact hrun

/-- With the buffer empty, every query of the version at `x` answers as the naive
reference: the version denotes the current layers that start at or below the greatest
recorded LSN at or below `x`, and no current layer starts in between. -/
theorem getVersion_query (h : Inv self current) (hbuf : self.buffer.entries = []) (x : Nat)
    (isImage : Bool) (k : Int) :
    NaiveAnswer (Candidate current isImage x k)
      ((self.historicCoverage.getVersion x).bind fun t => (t.coverage isImage).query k) := by
  have hcur : ∀ lk v, current lk = some v ↔ (lk, v) ∈ self.layers.entries := by
    intro lk v
    have hnone : self.buffer.get lk = none := by
      rw [get_eq_none_iff, keys, hbuf]
      simp
    rw [h.lookup lk, hnone, Option.getD_none, get_eq_some_iff]
  -- a current layer's `lsn.start` is a recorded version
  have hrec : ∀ lk v, (lk, v) ∈ self.layers.entries →
      ∃ e ∈ self.historicCoverage.historic.entries, e.1 = lk.lsn.start := fun lk v hl =>
    (mem_keys_iff _ _).mp ((h.historic.keys _).mpr ⟨(lk, v), hl, rfl⟩)
  cases hv : self.historicCoverage.historic.floor x with
  | none =>
    have hnil : self.historicCoverage.getVersion x = none := by
      simp [HistoricLayerCoverage.getVersion, hv]
    rw [hnil]
    rintro lk v ⟨hl, -, hx⟩
    obtain ⟨e, he, hes⟩ := hrec lk v ((hcur lk v).mp hl)
    exact absurd hx (not_le.mpr (hes ▸ floor_eq_none hv e he))
  | some e =>
    obtain ⟨he, hex, hmax⟩ := floor_eq_some hv
    have hsome : self.historicCoverage.getVersion x = some e.2 := by
      simp [HistoricLayerCoverage.getVersion, hv]
    have hquery : (e.2.coverage isImage).query k =
        (coverOf (self.layers.entries.filter fun l => l.1.lsn.start ≤ e.1) isImage k).map (·.2) := by
      rw [query_eq, h.historic.version e he isImage k]
    rw [hsome, Option.bind_some, hquery]
    refine naiveAnswer_of_bestCover (fun lk v => ?_) (bestCover_coverOf (h.historic.sorted.filter _) _ _)
    simp only [Candidate, List.mem_filter, decide_eq_true_eq, hcur]
    constructor
    · rintro ⟨hl, hc, hx⟩
      obtain ⟨e', he', hes⟩ := hrec lk v hl
      exact ⟨⟨hl, hes ▸ hmax e' he' (hes ▸ hx)⟩, hc⟩
    · rintro ⟨⟨hl, hle⟩, hc⟩
      exact ⟨hl, hc, le_trans hle hex⟩

end Inv

end BufferedHistoricLayerCoverage

/-- Every sequence of `BatchedUpdates` sessions from the empty layer map: no rebuild
panics, the coverage is readable, and at every LSN, of both kinds and at every key, the
version answers as the naive reference over the layers current after all updates. -/
theorem getVersion_query_naive (batches : List (List (LayerUpdate V)))
    (hkeys : ∀ u ∈ batches.flatten, u.layerKey.KeyNonneg) :
    ∃ st, batches.foldlM BufferedHistoricLayerCoverage.batchUpdate
        BufferedHistoricLayerCoverage.new = some st ∧
      st.get = .ok st.historicCoverage ∧
      ∀ x isImage k, NaiveAnswer (Candidate (currentLayers batches.flatten) isImage x k)
        ((st.historicCoverage.getVersion x).bind fun t => (t.coverage isImage).query k) := by
  obtain ⟨st, hrun, hinv, hbuf⟩ :=
    BufferedHistoricLayerCoverage.inv_new.foldlM_batchUpdate rfl batches hkeys
  refine ⟨st, hrun, by simp [BufferedHistoricLayerCoverage.get, hbuf], fun x isImage k => ?_⟩
  exact hinv.getVersion_query hbuf x isImage k

/-- Two sessions over image and delta layers whose LSN ranges overlap and interleave, the
second inserting below the first and removing one of its layers. -/
theorem getVersion_query_naive_interleaved :
    (∀ u ∈ [[LayerUpdate.insertHistoric ⟨⟨0, 10⟩, ⟨5, 6⟩, true⟩ (1 : Nat),
        .insertHistoric ⟨⟨5, 20⟩, ⟨3, 8⟩, false⟩ 2],
      [.insertHistoric ⟨⟨0, 20⟩, ⟨1, 6⟩, false⟩ 3,
        .removeHistoric ⟨⟨0, 10⟩, ⟨5, 6⟩, true⟩]].flatten, u.layerKey.KeyNonneg) ∧
    ∃ st, [[LayerUpdate.insertHistoric ⟨⟨0, 10⟩, ⟨5, 6⟩, true⟩ (1 : Nat),
        .insertHistoric ⟨⟨5, 20⟩, ⟨3, 8⟩, false⟩ 2],
      [.insertHistoric ⟨⟨0, 20⟩, ⟨1, 6⟩, false⟩ 3,
        .removeHistoric ⟨⟨0, 10⟩, ⟨5, 6⟩, true⟩]].foldlM BufferedHistoricLayerCoverage.batchUpdate
        BufferedHistoricLayerCoverage.new = some st ∧
      st.get = .ok st.historicCoverage ∧
      ∀ x isImage k, NaiveAnswer (Candidate (currentLayers [[LayerUpdate.insertHistoric
          ⟨⟨0, 10⟩, ⟨5, 6⟩, true⟩ (1 : Nat), .insertHistoric ⟨⟨5, 20⟩, ⟨3, 8⟩, false⟩ 2],
        [.insertHistoric ⟨⟨0, 20⟩, ⟨1, 6⟩, false⟩ 3,
          .removeHistoric ⟨⟨0, 10⟩, ⟨5, 6⟩, true⟩]].flatten) isImage x k)
        ((st.historicCoverage.getVersion x).bind fun t => (t.coverage isImage).query k) :=
  ⟨by decide, getVersion_query_naive _ (by decide)⟩

end NeonStorage

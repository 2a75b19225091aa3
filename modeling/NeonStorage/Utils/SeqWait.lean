import NeonStorage.Lib.Trace

/-!
# Waiting for a sequence number

`libs/utils/src/seqwait.rs` lets tasks wait for a counter to reach a number; `advance` moves the
counter and wakes them.  The counter, the heap of registered waiters and the shutdown flag sit
under one mutex.  A waiter is woken through its own watch channel: by a message that `advance`
sends after it has released the lock, or by the drop of the sender, which `shutdown` does after
it has released the lock.

The model is a set of tasks that share one `World`: the state under the mutex, the channels,
and the place of each task in its call.  A call runs atomically up to its first await or the
release of the lock.  Each send of `advance` and each drop of `shutdown` after the lock is a
step of its own, and so are the wake of a receiver, a timeout and a cancellation.  An input
names a task and what it does next, so a list of inputs is an interleaving, and `trace step`
over it is a run.

`Move` says what one step can do, with its guards (`move_step`); every one-step fact is a case
analysis on it.  `Inv` holds in every reachable world (`inv_move`, `inv_run`), and
`seqWait_guarantees` puts together what every interleaving guarantees (`Guarantees`):

* a wait returns `Ok` only when the counter has reached its number (`Move.le_of_waited_ok`), and
  `Err(Shutdown)` only after `shutdown` was called (`Move.flag_of_waited_shutdown`, then
  `exists_input_of_final`);
* the counter never goes down (`Move.cntValue_le`); the first reply to `advance(num)` is the
  counter's value when it took the lock (`first_reply_advance`); and when `advance(num)` returns,
  no waiter for a number up to `num` is left in the heap (`Move.above_of_advanced`);
* no wake-up is lost (`delivered_after_advance`): once `advance(n)` has taken the lock after a
  `wait_for(m)` with `m ≤ n` registered, and before any `shutdown`, the waiter's message has
  been sent or is held by an `advance` that will send it, so the wait can only return `Ok`.
-/

namespace NeonStorage

namespace SeqWait

/-- `MonotonicCounter<V>`: a counter kept in the storage `S`, whose value is a `V`. -/
class MonotonicCounter (S : Type) (V : outParam Type) where
  cntAdvance : S → V → S
  cntValue : S → V

export MonotonicCounter (cntAdvance cntValue)

/-- `impl MonotonicCounter<Sequence> for Sequence` of the attachment service, with the sequence
number as a natural number: the value is the counter itself, and advancing stores the new value.
Its `assert!(*self <= v)` is left out, since `advance` calls it only with a value above the
counter. -/
instance : MonotonicCounter ℕ ℕ where
  cntAdvance _ v := v
  cntValue s := s

/-- `SeqWaitError`. -/
inductive SeqWaitError
  | timeout
  | shutdown
deriving DecidableEq, Repr

/-- `Waiter`: the number a task waits for, and the sender of its channel, by the channel's
number. -/
structure Waiter (V : Type) where
  wakeNum : V
  wakeChannel : ℕ
deriving DecidableEq, Repr

variable {S V : Type}

section Heap

variable [LinearOrder V]

/-- `impl Ord for Waiter`: the order of `wake_num` reversed, so that the max-heap `BinaryHeap`
gives the waiter with the smallest number first. -/
def Waiter.cmp (self other : Waiter V) : Ordering := compare other.wakeNum self.wakeNum

/-- `BinaryHeap::peek` on the heap's elements: a greatest one under `Waiter::cmp`. -/
def peek : List (Waiter V) → Option (Waiter V)
  | [] => none
  | w :: ws =>
    match peek ws with
    | none => some w
    | some m => if w.cmp m = .lt then some m else some w

theorem peek_eq_none_iff {ws : List (Waiter V)} : peek ws = none ↔ ws = [] := by
  cases ws with
  | nil => simp [peek]
  | cons w ws =>
    simp only [peek, reduceCtorEq, iff_false]
    split
    · exact Option.some_ne_none w
    · split <;> exact Option.some_ne_none _

/-- The reversed order makes the heap a min-heap: `peek` shows a waiter with the smallest
number. -/
theorem peek_spec : ∀ {ws : List (Waiter V)} {m : Waiter V}, peek ws = some m →
    m ∈ ws ∧ ∀ x ∈ ws, m.wakeNum ≤ x.wakeNum
  | [], _, h => by cases h
  | w :: ws, m, h => by
    rw [peek] at h
    cases hp : peek ws with
    | none =>
      rw [hp] at h
      cases h
      rw [peek_eq_none_iff.1 hp]
      simp
    | some m' =>
      rw [hp] at h
      dsimp only at h
      obtain ⟨hm', hle⟩ := peek_spec hp
      split at h
      · -- `w` comes after `m'` in the reversed order: it has the larger number
        rename_i hlt
        have hw : m'.wakeNum < w.wakeNum := compare_lt_iff_lt.1 hlt
        cases h
        refine ⟨List.mem_cons_of_mem w hm', ?_⟩
        rintro x (_ | ⟨_, hx⟩)
        · exact hw.le
        · exact hle x hx
      · rename_i hnlt
        have hw : w.wakeNum ≤ m'.wakeNum := not_lt.1 (mt compare_lt_iff_lt.2 hnlt)
        cases h
        refine ⟨List.mem_cons_self, ?_⟩
        rintro x (_ | ⟨_, hx⟩)
        · exact le_rfl
        · exact hw.trans (hle x hx)

theorem peek_mem {ws : List (Waiter V)} {m : Waiter V} (h : peek ws = some m) : m ∈ ws :=
  (peek_spec h).1

/-- The loop of `advance`: while the waiter on top of the heap has a number up to `num`, pop it
and keep its sender.  `BinaryHeap::pop` removes the element that `peek` shows. -/
def popArrived (num : V) (waiters : List (Waiter V)) : List ℕ × List (Waiter V) :=
  match h : peek waiters with
  | none => ([], waiters)
  | some n =>
    if num < n.wakeNum then ([], waiters)
    else
      have : (waiters.erase n).length < waiters.length := by
        rw [List.length_erase_of_mem (peek_mem h)]
        exact Nat.pred_lt (List.ne_nil_of_mem (peek_mem h) ∘ List.length_eq_zero_iff.1)
      let rest := popArrived num (waiters.erase n)
      (n.wakeChannel :: rest.1, rest.2)
termination_by waiters.length

/-- What the loop leaves in the heap waits for numbers above `num`. -/
theorem lt_of_mem_popArrived {num : V} {ws : List (Waiter V)} :
    ∀ x ∈ (popArrived num ws).2, num < x.wakeNum := by
  fun_induction popArrived num ws with
  | case1 ws h =>
    intro x hx
    rw [peek_eq_none_iff.1 h] at hx
    cases hx
  | case2 ws n h hlt => exact fun x hx => lt_of_lt_of_le hlt ((peek_spec h).2 x hx)
  | case3 ws n h hnlt _ _ ih => exact ih

/-- The loop moves senders from the heap to its list, and loses none. -/
theorem popArrived_perm (num : V) (ws : List (Waiter V)) :
    List.Perm ((popArrived num ws).1 ++ (popArrived num ws).2.map Waiter.wakeChannel)
      (ws.map Waiter.wakeChannel) := by
  fun_induction popArrived num ws with
  | case1 ws h => exact List.Perm.refl _
  | case2 ws n h hlt => exact List.Perm.refl _
  | case3 ws n h hnlt _ _ ih =>
    have herase : List.Perm (ws.map Waiter.wakeChannel)
        (n.wakeChannel :: (ws.erase n).map Waiter.wakeChannel) :=
      (List.perm_cons_erase (peek_mem h)).map _
    exact (ih.cons _).trans herase.symm

/-- A waiter of the heap stays in it or has its sender taken. -/
theorem mem_popArrived_or {num : V} {ws : List (Waiter V)} {x : Waiter V} (hx : x ∈ ws) :
    x ∈ (popArrived num ws).2 ∨ x.wakeChannel ∈ (popArrived num ws).1 := by
  fun_induction popArrived num ws with
  | case1 ws h => exact Or.inl hx
  | case2 ws n h hlt => exact Or.inl hx
  | case3 ws n h hnlt _ _ ih =>
    by_cases hxn : x = n
    · exact Or.inr (hxn ▸ List.mem_cons_self)
    · rcases ih ((List.mem_erase_of_ne hxn).2 hx) with h' | h'
      · exact Or.inl h'
      · exact Or.inr (List.mem_cons_of_mem _ h')

/-- Every sender the loop takes belongs to a waiter of the heap for a number up to `num`. -/
theorem exists_of_mem_popArrived {num : V} {ws : List (Waiter V)} {c : ℕ}
    (hc : c ∈ (popArrived num ws).1) : ∃ x ∈ ws, x.wakeChannel = c ∧ x.wakeNum ≤ num := by
  fun_induction popArrived num ws with
  | case1 ws h => cases hc
  | case2 ws n h hlt => cases hc
  | case3 ws n h hnlt _ _ ih =>
    rcases List.mem_cons.1 hc with rfl | hc
    · exact ⟨n, peek_mem h, rfl, not_lt.1 hnlt⟩
    · obtain ⟨x, hx, hxc, hxn⟩ := ih hc
      exact ⟨x, List.mem_of_mem_erase hx, hxc, hxn⟩

theorem popArrived_subset (num : V) (ws : List (Waiter V)) : (popArrived num ws).2 ⊆ ws := by
  fun_induction popArrived num ws with
  | case1 ws h => exact List.Subset.refl _
  | case2 ws n h hlt => exact List.Subset.refl _
  | case3 ws n h hnlt _ _ =>
    rename_i ih
    exact List.Subset.trans ih List.erase_subset

end Heap

/-! ## The world -/

/-- `SeqWaitInt`: what the mutex guards. -/
structure SeqWaitInt (S V : Type) where
  waiters : List (Waiter V)
  current : S
  shutdown : Bool

/-- A watch channel as its receiver sees it: whether a value was sent, and whether the sender
is gone. -/
structure Channel where
  sent : Bool
  closed : Bool
deriving DecidableEq, Repr

/-- Where a task is in its call on the `SeqWait`. -/
inductive Task (V : Type)
  | idle
  /-- `wait_for` (`timed = false`) or `wait_for_timeout`, awaiting `rx.changed()`. -/
  | waiting (num : V) (rx : ℕ) (timed : Bool)
  /-- `advance(num)` after its lock, sending to the waiters it popped; it will return `old`. -/
  | advancing (num old : V) (wakeThese : List ℕ)
  /-- `shutdown` after its lock, dropping the senders it took. -/
  | shuttingDown (waiters : List ℕ)

/-- The `SeqWait`, its channels and the tasks that use it. -/
structure World (S V : Type) where
  internal : SeqWaitInt S V
  channels : List Channel
  tasks : List (Task V)

/-- A call of the API. -/
inductive Call (V : Type)
  | waitFor (num : V)
  | waitForTimeout (num : V)
  | advance (num : V)
  | shutdown
  | load

/-- What a task does next. -/
inductive Action (V : Type)
  /-- An idle task makes a call, which runs up to its first await or the release of the lock. -/
  | call (c : Call V)
  /-- A waiting task's `rx.changed()` resolves, if it can. -/
  | wake
  /-- The timer of a `wait_for_timeout` fires. -/
  | timeout
  /-- A waiting task's future is dropped. -/
  | cancel
  /-- `advance` sends to its next waiter, or `shutdown` drops its next sender; with none left,
  the call returns. -/
  | resume

/-- One step of an interleaving: a task and what it does. -/
structure Input (V : Type) where
  task : ℕ
  action : Action V

/-- What a call returns, in the step where it returns. -/
inductive Reply (S V : Type)
  | waited (num : V) (result : Except SeqWaitError Unit)
  | advanced (num old : V)
  | shutDown
  | loaded (value : S)

/-- The senders a task holds after its lock and has not yet sent on or dropped. -/
def Task.senders : Task V → List ℕ
  | .advancing _ _ cs => cs
  | .shuttingDown cs => cs
  | _ => []

theorem perm_flatMap_set {α : Type} (f : α → List ℕ) {l : List α} {i : ℕ} {a b : α}
    (h : l[i]? = some a) : List.Perm ((l.set i b).flatMap f ++ f a) (l.flatMap f ++ f b) := by
  obtain ⟨hi, rfl⟩ := List.getElem?_eq_some_iff.1 h
  have hl : l = l.take i ++ l[i] :: l.drop (i + 1) := by
    rw [← List.drop_eq_getElem_cons hi, List.take_append_drop]
  rw [List.set_eq_take_append_cons_drop, if_pos hi]
  refine List.perm_iff_count.2 fun x => ?_
  conv_rhs => rw [hl]
  simp only [List.flatMap_append, List.flatMap_cons, List.count_append]
  omega

namespace World

/-- `SeqWait::new` with `n` tasks, all idle. -/
def new (startingNum : S) (n : ℕ) : World S V :=
  ⟨⟨[], startingNum, false⟩, [], List.replicate n .idle⟩

def setTask (w : World S V) (i : ℕ) (t : Task V) : World S V := { w with tasks := w.tasks.set i t }

/-- `tx.send(())`, and the drop of `tx` at the end of the loop's turn. -/
def send (w : World S V) (c : ℕ) : World S V :=
  { w with channels := w.channels.modify c fun _ => ⟨true, true⟩ }

/-- The drop of a sender that was never used. -/
def dropSender (w : World S V) (c : ℕ) : World S V :=
  { w with channels := w.channels.modify c fun ch => { ch with closed := true } }

/-- Every sender not yet used: those on the heap and those the tasks hold. -/
def pending (w : World S V) : List ℕ :=
  w.internal.waiters.map Waiter.wakeChannel ++ w.tasks.flatMap Task.senders

@[simp] theorem setTask_internal (w : World S V) (i : ℕ) (t : Task V) :
    (w.setTask i t).internal = w.internal := rfl

@[simp] theorem setTask_channels (w : World S V) (i : ℕ) (t : Task V) :
    (w.setTask i t).channels = w.channels := rfl

@[simp] theorem setTask_tasks (w : World S V) (i : ℕ) (t : Task V) :
    (w.setTask i t).tasks = w.tasks.set i t := rfl

@[simp] theorem send_internal (w : World S V) (c : ℕ) : (w.send c).internal = w.internal := rfl

@[simp] theorem send_tasks (w : World S V) (c : ℕ) : (w.send c).tasks = w.tasks := rfl

@[simp] theorem send_channels (w : World S V) (c : ℕ) :
    (w.send c).channels = w.channels.modify c fun _ => ⟨true, true⟩ := rfl

@[simp] theorem dropSender_internal (w : World S V) (c : ℕ) :
    (w.dropSender c).internal = w.internal := rfl

@[simp] theorem dropSender_tasks (w : World S V) (c : ℕ) : (w.dropSender c).tasks = w.tasks :=
  rfl

@[simp] theorem dropSender_channels (w : World S V) (c : ℕ) :
    (w.dropSender c).channels = w.channels.modify c fun ch => { ch with closed := true } := rfl

@[simp] theorem pending_send (w : World S V) (c : ℕ) : (w.send c).pending = w.pending := rfl

@[simp] theorem pending_dropSender (w : World S V) (c : ℕ) :
    (w.dropSender c).pending = w.pending := rfl

/-- Giving task `i` a new place trades the senders it held for those of the new place. -/
theorem perm_pending_setTask {w : World S V} {i : ℕ} {t t' : Task V} (h : w.tasks[i]? = some t) :
    List.Perm ((w.setTask i t').pending ++ t.senders) (w.pending ++ t'.senders) := by
  simp only [pending, setTask_internal, setTask_tasks, List.append_assoc]
  exact (perm_flatMap_set Task.senders h).append_left _

theorem pending_new (startingNum : S) (n : ℕ) : (new startingNum n : World S V).pending = [] := by
  simp only [new, pending, List.map_nil, List.nil_append, List.flatMap_eq_nil_iff]
  intro t ht
  rw [List.eq_of_mem_replicate ht]
  rfl

theorem mem_pending_of_senders {w : World S V} {t : Task V} {c : ℕ} (ht : t ∈ w.tasks)
    (hc : c ∈ t.senders) : c ∈ w.pending :=
  List.mem_append_right _ (List.mem_flatMap.2 ⟨t, ht, hc⟩)

theorem mem_pending_of_waiter {w : World S V} {x : Waiter V}
    (hx : x ∈ w.internal.waiters) : x.wakeChannel ∈ w.pending :=
  List.mem_append_left _ (List.mem_map_of_mem hx)

/-- A task that gives up its first sender `c`: the pending senders lose `c` and nothing else. -/
theorem perm_pending_release {w : World S V} {i c : ℕ} {t t' : Task V}
    (ht : w.tasks[i]? = some t) (hs : t.senders = c :: t'.senders) :
    List.Perm ((w.setTask i t').pending ++ [c]) w.pending := by
  have h := @perm_pending_setTask S V w i t t' ht
  rw [hs, ← List.singleton_append, ← List.append_assoc] at h
  exact (List.perm_append_right_iff _).1 h

/-- What a task that gives up its first sender `c` leaves pending. -/
theorem pending_release {w : World S V} {i c : ℕ} {t t' : Task V} (hnd : w.pending.Nodup)
    (ht : w.tasks[i]? = some t) (hs : t.senders = c :: t'.senders) :
    c ∈ w.pending ∧ (w.setTask i t').pending.Nodup ∧
      (∀ d ∈ (w.setTask i t').pending, d ∈ w.pending ∧ d ≠ c) ∧
      ∀ d ∈ w.pending, d ≠ c → d ∈ (w.setTask i t').pending := by
  have hperm := perm_pending_release ht hs
  have hnd' := hperm.nodup_iff.2 hnd
  refine ⟨hperm.subset (List.mem_append_right _ (List.mem_singleton_self c)),
    (List.nodup_append.1 hnd').1, fun d hd => ⟨hperm.subset (List.mem_append_left _ hd), ?_⟩,
    fun d hd hdc => ?_⟩
  · rintro rfl
    exact (List.nodup_append.1 hnd').2.2 d hd d (List.mem_singleton_self d) rfl
  · rcases List.mem_append.1 (hperm.symm.subset hd) with h | h
    · exact h
    · exact absurd (List.mem_singleton.1 h) hdc

theorem mem_setTask {w : World S V} {i : ℕ} {t t' : Task V} (h : t ∈ (w.setTask i t').tasks) :
    t = t' ∨ t ∈ w.tasks :=
  (List.mem_or_eq_of_mem_set h).symm

/-- A task of the new world other than the one just set was there before. -/
theorem mem_of_mem_setTask {w : World S V} {i : ℕ} {t t' : Task V}
    (h : t ∈ (w.setTask i t').tasks) (hne : t ≠ t') : t ∈ w.tasks :=
  (mem_setTask h).resolve_left hne

end World

open World

variable [MonotonicCounter S V] [LinearOrder V]

/-- The registration of `queue_for_wait`: a new channel, whose sender is pushed on the heap
with the number. -/
def pushWaiter (w : World S V) (num : V) : World S V :=
  { w with
    channels := w.channels ++ [Channel.mk false false]
    internal := { w.internal with
      waiters := w.internal.waiters ++ [Waiter.mk num w.channels.length] } }

/-- `queue_for_wait`, under the lock: `None` if the number has arrived, `Shutdown` after
`shutdown`, and otherwise a new channel whose sender is pushed on the heap. -/
def queueForWait (w : World S V) (num : V) : Except SeqWaitError (Option ℕ) × World S V :=
  if num ≤ cntValue w.internal.current then (.ok none, w)
  else if w.internal.shutdown then (.error .shutdown, w)
  else (.ok (some w.channels.length), pushWaiter w num)

/-- `wait_for` and `wait_for_timeout` up to their await. -/
def waitFor (w : World S V) (i : ℕ) (num : V) (timed : Bool) :
    Option (Reply S V) × World S V :=
  match queueForWait w num with
  | (.ok none, w') => (some (.waited num (.ok ())), w')
  | (.error e, w') => (some (.waited num (.error e)), w')
  | (.ok (some rx), w') => (none, w'.setTask i (.waiting num rx timed))

/-- `advance` up to the release of its lock: the old value, and unless it has already arrived,
the new counter and the waiters popped. -/
def advance (w : World S V) (i : ℕ) (num : V) : Option (Reply S V) × World S V :=
  let oldValue := cntValue w.internal.current
  if num ≤ oldValue then (some (.advanced num oldValue), w)
  else
    let popped := popArrived num w.internal.waiters
    (none, { w with internal := { w.internal with
        current := cntAdvance w.internal.current num
        waiters := popped.2 } }.setTask i (.advancing num oldValue popped.1))

/-- `shutdown` up to the release of its lock: set the flag and take the whole heap. -/
def shutdown (w : World S V) (i : ℕ) : Option (Reply S V) × World S V :=
  (none, { w with internal := { w.internal with shutdown := true, waiters := [] } }.setTask i
    (.shuttingDown (w.internal.waiters.map Waiter.wakeChannel)))

/-- `rx.changed()` of a waiting task: a sent value first, then a dropped sender
(`map_err(|_| SeqWaitError::Shutdown)`); otherwise it stays pending. -/
def changed (w : World S V) (i : ℕ) (num : V) (rx : ℕ) : Option (Reply S V) × World S V :=
  match w.channels[rx]? with
  | some ch =>
    if ch.sent then (some (.waited num (.ok ())), w.setTask i .idle)
    else if ch.closed then (some (.waited num (.error .shutdown)), w.setTask i .idle)
    else (none, w)
  | none => (none, w)

/-- What task `i`, at `t`, does on `a`; an action that does not apply to the task leaves
everything as it is. -/
def stepTask (w : World S V) (i : ℕ) : Task V → Action V → Option (Reply S V) × World S V
  | .idle, .call (.waitFor num) => waitFor w i num false
  | .idle, .call (.waitForTimeout num) => waitFor w i num true
  | .idle, .call (.advance num) => advance w i num
  | .idle, .call .shutdown => shutdown w i
  | .idle, .call .load => (some (.loaded w.internal.current), w)
  | .waiting num rx _, .wake => changed w i num rx
  | .waiting num _ true, .timeout => (some (.waited num (.error .timeout)), w.setTask i .idle)
  | .waiting _ _ _, .cancel => (none, w.setTask i .idle)
  | .advancing num old [], .resume => (some (.advanced num old), w.setTask i .idle)
  | .advancing num old (c :: cs), .resume =>
    (none, (w.send c).setTask i (.advancing num old cs))
  | .shuttingDown [], .resume => (some .shutDown, w.setTask i .idle)
  | .shuttingDown (c :: cs), .resume => (none, (w.dropSender c).setTask i (.shuttingDown cs))
  | _, _ => (none, w)

/-- One step of the system. -/
def step (w : World S V) (e : Input V) : Option (Reply S V) × World S V :=
  match w.tasks[e.task]? with
  | some t => stepTask w e.task t e.action
  | none => (none, w)

/-! ## What a step can do -/

/-- The transitions of `step`, each with its guards: `move_step` shows that every step is one of
them, and every fact about one step is proved by cases on `Move`. -/
inductive Move (w : World S V) : Input V → Option (Reply S V) → World S V → Prop
  /-- An action that does not apply to the task. -/
  | stay (e : Input V) : Move w e none w
  | arrived (i : ℕ) (num : V) (timed : Bool) : w.tasks[i]? = some .idle →
      num ≤ cntValue w.internal.current →
      Move w ⟨i, .call (if timed then .waitForTimeout num else .waitFor num)⟩
        (some (.waited num (.ok ()))) w
  | refused (i : ℕ) (num : V) (timed : Bool) : w.tasks[i]? = some .idle →
      cntValue w.internal.current < num → w.internal.shutdown = true →
      Move w ⟨i, .call (if timed then .waitForTimeout num else .waitFor num)⟩
        (some (.waited num (.error .shutdown))) w
  | register (i : ℕ) (num : V) (timed : Bool) : w.tasks[i]? = some .idle →
      cntValue w.internal.current < num → w.internal.shutdown = false →
      Move w ⟨i, .call (if timed then .waitForTimeout num else .waitFor num)⟩ none
        ((pushWaiter w num).setTask i (.waiting num w.channels.length timed))
  | advanced (i : ℕ) (num : V) : w.tasks[i]? = some .idle →
      num ≤ cntValue w.internal.current →
      Move w ⟨i, .call (.advance num)⟩ (some (.advanced num (cntValue w.internal.current))) w
  | lock (i : ℕ) (num : V) : w.tasks[i]? = some .idle → cntValue w.internal.current < num →
      Move w ⟨i, .call (.advance num)⟩ none
        (World.setTask { w with internal := { w.internal with
            current := cntAdvance w.internal.current num
            waiters := (popArrived num w.internal.waiters).2 } }
          i (.advancing num (cntValue w.internal.current) (popArrived num w.internal.waiters).1))
  | shutdown (i : ℕ) : w.tasks[i]? = some .idle →
      Move w ⟨i, .call .shutdown⟩ none
        (World.setTask { w with internal := { w.internal with shutdown := true, waiters := [] } }
          i (.shuttingDown (w.internal.waiters.map Waiter.wakeChannel)))
  | load (i : ℕ) : w.tasks[i]? = some .idle →
      Move w ⟨i, .call .load⟩ (some (.loaded w.internal.current)) w
  | woken (i : ℕ) (num : V) (rx : ℕ) (timed : Bool) (ch : Channel) :
      w.tasks[i]? = some (.waiting num rx timed) → w.channels[rx]? = some ch → ch.sent = true →
      Move w ⟨i, .wake⟩ (some (.waited num (.ok ()))) (w.setTask i .idle)
  | closed (i : ℕ) (num : V) (rx : ℕ) (timed : Bool) (ch : Channel) :
      w.tasks[i]? = some (.waiting num rx timed) → w.channels[rx]? = some ch →
      ch.sent = false → ch.closed = true →
      Move w ⟨i, .wake⟩ (some (.waited num (.error .shutdown))) (w.setTask i .idle)
  | timeout (i : ℕ) (num : V) (rx : ℕ) : w.tasks[i]? = some (.waiting num rx true) →
      Move w ⟨i, .timeout⟩ (some (.waited num (.error .timeout))) (w.setTask i .idle)
  | cancel (i : ℕ) (num : V) (rx : ℕ) (timed : Bool) :
      w.tasks[i]? = some (.waiting num rx timed) → Move w ⟨i, .cancel⟩ none (w.setTask i .idle)
  | returned (i : ℕ) (num old : V) : w.tasks[i]? = some (.advancing num old []) →
      Move w ⟨i, .resume⟩ (some (.advanced num old)) (w.setTask i .idle)
  | send (i : ℕ) (num old : V) (c : ℕ) (cs : List ℕ) :
      w.tasks[i]? = some (.advancing num old (c :: cs)) →
      Move w ⟨i, .resume⟩ none ((w.send c).setTask i (.advancing num old cs))
  | shutDown (i : ℕ) : w.tasks[i]? = some (.shuttingDown []) →
      Move w ⟨i, .resume⟩ (some .shutDown) (w.setTask i .idle)
  | drop (i : ℕ) (c : ℕ) (cs : List ℕ) : w.tasks[i]? = some (.shuttingDown (c :: cs)) →
      Move w ⟨i, .resume⟩ none ((w.dropSender c).setTask i (.shuttingDown cs))

theorem move_waitFor (w : World S V) (i : ℕ) (num : V) (timed : Bool)
    (ht : w.tasks[i]? = some .idle) :
    Move w ⟨i, .call (if timed then .waitForTimeout num else .waitFor num)⟩
      (waitFor w i num timed).1 (waitFor w i num timed).2 := by
  by_cases hle : num ≤ cntValue w.internal.current
  · simpa [waitFor, queueForWait, hle] using Move.arrived i num timed ht hle
  · have hlt := lt_of_not_ge hle
    cases hs : w.internal.shutdown
    · simpa [waitFor, queueForWait, hle, hs] using Move.register i num timed ht hlt hs
    · simpa [waitFor, queueForWait, hle, hs] using Move.refused i num timed ht hlt hs

theorem move_advance (w : World S V) (i : ℕ) (num : V) (ht : w.tasks[i]? = some .idle) :
    Move w ⟨i, .call (.advance num)⟩ (advance w i num).1 (advance w i num).2 := by
  by_cases hle : num ≤ cntValue w.internal.current
  · simpa [advance, hle] using Move.advanced i num ht hle
  · simpa [advance, hle] using Move.lock i num ht (lt_of_not_ge hle)

theorem move_changed (w : World S V) (i : ℕ) (num : V) (rx : ℕ) (timed : Bool)
    (ht : w.tasks[i]? = some (.waiting num rx timed)) :
    Move w ⟨i, .wake⟩ (changed w i num rx).1 (changed w i num rx).2 := by
  unfold changed
  split
  · rename_i ch hch
    cases hs : ch.sent
    · cases hc : ch.closed
      · simpa [hs, hc] using Move.stay ⟨i, .wake⟩
      · simpa [hs, hc] using Move.closed i num rx timed ch ht hch hs hc
    · simpa [hs] using Move.woken i num rx timed ch ht hch hs
  · exact Move.stay _

/-- Every step is one of the transitions of `Move`. -/
theorem move_step (w : World S V) (e : Input V) : Move w e (step w e).1 (step w e).2 := by
  obtain ⟨i, a⟩ := e
  unfold step
  cases ht : w.tasks[i]? with
  | none => exact Move.stay _
  | some t =>
    simp only
    cases t with
    | idle =>
      cases a with
      | call c =>
        cases c with
        | waitFor num => exact move_waitFor w i num false ht
        | waitForTimeout num => exact move_waitFor w i num true ht
        | advance num => exact move_advance w i num ht
        | shutdown => exact Move.shutdown i ht
        | load => exact Move.load i ht
      | _ => exact Move.stay _
    | waiting num rx timed =>
      cases a with
      | wake => exact move_changed w i num rx timed ht
      | timeout =>
        cases timed
        · exact Move.stay _
        · exact Move.timeout i num rx ht
      | cancel => exact Move.cancel i num rx timed ht
      | _ => exact Move.stay _
    | advancing num old cs =>
      cases a with
      | resume =>
        cases cs with
        | nil => exact Move.returned i num old ht
        | cons c cs => exact Move.send i num old c cs ht
      | _ =>
        simp only [stepTask]
        exact Move.stay _
    | shuttingDown cs =>
      cases a with
      | resume =>
        cases cs with
        | nil => exact Move.shutDown i ht
        | cons c cs => exact Move.drop i c cs ht
      | _ =>
        simp only [stepTask]
        exact Move.stay _


/-! ## The invariant -/

/-- What a task waiting for `m` on channel `rx` can rely on. -/
structure WaitingOk (w : World S V) (m : V) (rx : ℕ) : Prop where
  /-- Its channel exists. -/
  lt : rx < w.channels.length
  /-- Its waiter, while on the heap, carries its number. -/
  heap : ∀ x ∈ w.internal.waiters, x.wakeChannel = rx → x.wakeNum = m
  /-- An `advance` that took its sender advances to a number at least its own. -/
  held : ∀ num old cs, Task.advancing num old cs ∈ w.tasks → rx ∈ cs → m ≤ num
  /-- Once its message is sent, the counter has reached its number. -/
  sent : ∀ ch : Channel, w.channels[rx]? = some ch → ch.sent = true →
    m ≤ cntValue w.internal.current

/-- What every reachable world satisfies. -/
structure Inv (w : World S V) : Prop where
  /-- The heap holds only waiters for numbers above the counter. -/
  above : ∀ x ∈ w.internal.waiters, cntValue w.internal.current < x.wakeNum
  /-- A sender not yet used belongs to an open channel with nothing sent... -/
  pendingOpen : ∀ c ∈ w.pending, w.channels[c]? = some ⟨false, false⟩
  /-- ...and is held in one place only. -/
  nodup : w.pending.Nodup
  /-- Every other channel has lost its sender. -/
  closed : ∀ (c : ℕ) (ch : Channel), w.channels[c]? = some ch → c ∉ w.pending → ch.closed = true
  /-- A sender dropped without a message was dropped by `shutdown`. -/
  dropped : ∀ (c : ℕ) (ch : Channel), w.channels[c]? = some ch → ch.closed = true → ch.sent = false →
    w.internal.shutdown = true
  shuttingDown : ∀ cs, Task.shuttingDown cs ∈ w.tasks → w.internal.shutdown = true
  /-- `advance(num)` sends only once the counter has reached `num`. -/
  advancing : ∀ num old cs, Task.advancing num old cs ∈ w.tasks →
    num ≤ cntValue w.internal.current
  waiting : ∀ m rx timed, Task.waiting m rx timed ∈ w.tasks → WaitingOk w m rx

theorem inv_new (startingNum : S) (n : ℕ) : Inv (World.new startingNum n : World S V) where
  above := by simp [World.new]
  pendingOpen := by simp [World.pending_new]
  nodup := by simp [World.pending_new]
  closed := by simp [World.new]
  dropped := by simp [World.new]
  shuttingDown := by simp [World.new]
  advancing := by simp [World.new]
  waiting := by simp [World.new]

/-- A waiting task keeps what it relies on when the state under the lock and the channels stay
and no `advance` takes new senders. -/
theorem WaitingOk.transfer {w w' : World S V} {m : V} {rx : ℕ} (h : WaitingOk w m rx)
    (hint : w'.internal = w.internal) (hch : w'.channels = w.channels)
    (htasks : ∀ num old cs, Task.advancing num old cs ∈ w'.tasks →
      ∃ cs', Task.advancing num old cs' ∈ w.tasks ∧ cs ⊆ cs') :
    WaitingOk w' m rx where
  lt := hch ▸ h.lt
  heap := hint ▸ h.heap
  held num old cs ht hrx := by
    obtain ⟨cs', ht', hsub⟩ := htasks num old cs ht
    exact h.held num old cs' ht' (hsub hrx)
  sent := hint ▸ hch ▸ h.sent

/-- A task that holds no sender leaving its place for `idle`: a wait that returns or is
dropped, or an `advance` or a `shutdown` that returns. -/
theorem Inv.setTask_idle {w : World S V} {i : ℕ} {t : Task V} (hw : Inv w)
    (ht : w.tasks[i]? = some t) (hs : t.senders = []) : Inv (w.setTask i .idle) := by
  have hperm : List.Perm (w.setTask i .idle).pending w.pending := by
    have h := @World.perm_pending_setTask S V w i t .idle ht
    rwa [hs, List.append_nil, show (Task.idle : Task V).senders = [] from rfl,
      List.append_nil] at h
  refine ⟨hw.above, fun c hc => hw.pendingOpen c (hperm.subset hc), hperm.nodup_iff.2 hw.nodup,
    fun c ch h hc => hw.closed c ch h fun hc' => hc (hperm.symm.subset hc'), hw.dropped,
    fun cs h => ?_, fun num old cs h => ?_, fun m rx timed h => ?_⟩
  · exact hw.shuttingDown cs (mem_of_mem_setTask h nofun)
  · exact hw.advancing num old cs (mem_of_mem_setTask h nofun)
  · refine (hw.waiting m rx timed (mem_of_mem_setTask h nofun)).transfer rfl rfl
      fun num old cs h' => ?_
    exact ⟨cs, mem_of_mem_setTask h' nofun, List.Subset.refl _⟩

theorem Inv.lt_of_mem_pending {w : World S V} (hw : Inv w) {c : ℕ} (hc : c ∈ w.pending) :
    c < w.channels.length :=
  (List.getElem?_eq_some_iff.1 (hw.pendingOpen c hc)).1

/-- A task giving up its first sender `c`, in a world `w₁` whose release closes `c`'s channel
and leaves the others: the senders still pending keep open channels of their own, and every
other channel is closed. -/
theorem Inv.release {w : World S V} (hw : Inv w) (w₁ : World S V) {i c : ℕ} {t : Task V}
    (t' : Task V) (hpend : w₁.pending = w.pending) (ht : w₁.tasks[i]? = some t)
    (hs : t.senders = c :: t'.senders) (hch : ∀ d, d ≠ c → w₁.channels[d]? = w.channels[d]?)
    (hchc : ∀ ch, w₁.channels[c]? = some ch → ch.closed = true) :
    (w₁.setTask i t').pending.Nodup ∧
      (∀ d ∈ (w₁.setTask i t').pending, w₁.channels[d]? = some ⟨false, false⟩) ∧
      ∀ (d : ℕ) (ch : Channel), w₁.channels[d]? = some ch → d ∉ (w₁.setTask i t').pending →
        ch.closed = true := by
  obtain ⟨-, hnd, hsub, hback⟩ := World.pending_release (hpend ▸ hw.nodup) ht hs
  rw [hpend] at hsub hback
  refine ⟨hnd, fun d hd => ?_, fun d ch hd hnot => ?_⟩
  · obtain ⟨hd, hdc⟩ := hsub d hd
    rw [hch d hdc]
    exact hw.pendingOpen d hd
  · by_cases hdc : d = c
    · exact hchc ch (hdc ▸ hd)
    · rw [hch d hdc] at hd
      exact hw.closed d ch hd fun h => hnot (hback d h hdc)

/-- `queue_for_wait` registering a waiter keeps the invariant. -/
theorem inv_register {w : World S V} {i : ℕ} {num : V} {timed : Bool} (hw : Inv w)
    (ht : w.tasks[i]? = some .idle) (hlt : cntValue w.internal.current < num) :
    Inv ((pushWaiter w num).setTask i (.waiting num w.channels.length timed)) := by
  set len := w.channels.length with hlen
  have hold : ∀ c ∈ w.pending, c < len := fun c hc => hw.lt_of_mem_pending hc
  have hch : ∀ c < len, ((pushWaiter w num).setTask i (.waiting num len timed)).channels[c]? = w.channels[c]? :=
    fun c hc => List.getElem?_append_left hc
  have hnew : ((pushWaiter w num).setTask i (.waiting num len timed)).channels[len]? = some ⟨false, false⟩ := by
    simp [pushWaiter, hlen]
  have hperm : List.Perm ((pushWaiter w num).setTask i (.waiting num len timed)).pending (len :: w.pending) := by
    have h := @World.perm_pending_setTask S V (pushWaiter w num) i .idle (.waiting num len timed) ht
    simp only [Task.senders, List.append_nil] at h
    refine h.trans ?_
    simp only [World.pending, pushWaiter, List.map_append, List.map_singleton, List.append_assoc,
      List.singleton_append]
    exact List.perm_middle
  have hmem : ∀ t, t ∈ ((pushWaiter w num).setTask i (.waiting num len timed)).tasks → t = .waiting num len timed ∨ t ∈ w.tasks :=
    fun t h => World.mem_setTask h
  refine ⟨?_, ?_, ?_, ?_, ?_, ?_, ?_, ?_⟩
  · -- above: the new waiter's number is above the counter
    intro x hx
    rcases List.mem_append.1 hx with hx | hx
    · exact hw.above x hx
    · rw [List.mem_singleton.1 hx]
      exact hlt
  · intro c hc
    rcases List.mem_cons.1 (hperm.subset hc) with rfl | hc
    · exact hnew
    · rw [hch c (hold c hc)]
      exact hw.pendingOpen c hc
  · exact hperm.nodup_iff.2 (List.nodup_cons.2 ⟨fun h => lt_irrefl _ (hold _ h), hw.nodup⟩)
  · intro c ch hc hnot
    have hc' : c < len := by
      have hlt := (List.getElem?_eq_some_iff.1 hc).1
      have hne : c ≠ len := fun h => hnot (h ▸ hperm.symm.subset List.mem_cons_self)
      simp only [pushWaiter, World.setTask_channels, List.length_append,
        List.length_singleton] at hlt
      omega
    rw [hch c hc'] at hc
    exact hw.closed c ch hc fun h => hnot (hperm.symm.subset (List.mem_cons_of_mem _ h))
  · intro c ch hc hcl hs
    by_cases hc' : c < len
    · rw [hch c hc'] at hc
      exact hw.dropped c ch hc hcl hs
    · have hle : c < len + 1 := by
        have := (List.getElem?_eq_some_iff.1 hc).1
        simpa [pushWaiter] using this
      rw [show c = len by omega, hnew] at hc
      cases hc
      cases hcl
  · intro cs h
    exact hw.shuttingDown cs (World.mem_of_mem_setTask h nofun)
  · intro n' old cs h
    exact hw.advancing n' old cs (World.mem_of_mem_setTask h nofun)
  · intro m rx timed' h
    have hadv : ∀ n' old cs, Task.advancing n' old cs ∈ ((pushWaiter w num).setTask i (.waiting num len timed)).tasks →
        Task.advancing n' old cs ∈ w.tasks :=
      fun n' old cs h' => World.mem_of_mem_setTask h' nofun
    rcases hmem _ h with h | h
    · -- the task just registered
      cases h
      refine ⟨by simp [pushWaiter, hlen], ?_, ?_, ?_⟩
      · intro x hx hxc
        rcases List.mem_append.1 hx with hx | hx
        · exact absurd (hold _ (World.mem_pending_of_waiter hx)) (hxc ▸ lt_irrefl _)
        · rw [List.mem_singleton.1 hx]
      · intro n' old cs h' hrx
        exact absurd (hold _ (World.mem_pending_of_senders (hadv n' old cs h') hrx)) (lt_irrefl _)
      · intro ch hch' hs
        rw [hnew] at hch'
        cases hch'
        cases hs
    · have hok := hw.waiting m rx timed' h
      refine ⟨by simpa [pushWaiter] using Nat.lt_succ_of_lt hok.lt, ?_, ?_, ?_⟩
      · intro x hx hxc
        rcases List.mem_append.1 hx with hx | hx
        · exact hok.heap x hx hxc
        · rw [List.mem_singleton.1 hx] at hxc
          exact absurd hok.lt (hxc ▸ lt_irrefl _)
      · exact fun n' old cs h' => hok.held n' old cs (hadv n' old cs h')
      · intro ch hch' hs
        rw [hch rx hok.lt] at hch'
        exact hok.sent ch hch' hs

/-- `shutdown` taking the lock keeps the invariant. -/
theorem inv_shutdown {w : World S V} {i : ℕ} (hw : Inv w) (ht : w.tasks[i]? = some .idle) :
    Inv (World.setTask { w with internal := { w.internal with shutdown := true, waiters := [] } }
      i (.shuttingDown (w.internal.waiters.map Waiter.wakeChannel))) := by
  set w₁ : World S V := { w with internal := { w.internal with shutdown := true, waiters := [] } }
  have hperm : List.Perm
      (w₁.setTask i (.shuttingDown (w.internal.waiters.map Waiter.wakeChannel))).pending
      w.pending := by
    have h := @World.perm_pending_setTask S V w₁ i .idle
      (.shuttingDown (w.internal.waiters.map Waiter.wakeChannel)) ht
    simp only [Task.senders, List.append_nil] at h
    refine h.trans ?_
    simp only [World.pending, w₁, List.map_nil, List.nil_append]
    exact List.perm_append_comm
  refine ⟨by simp [w₁], fun c hc => hw.pendingOpen c (hperm.subset hc),
    hperm.nodup_iff.2 hw.nodup, fun c ch h hc => hw.closed c ch h fun hc' => hc (hperm.symm.subset hc'),
    fun _ _ _ _ _ => rfl, fun _ _ => rfl, fun n' old cs h => ?_, fun m rx timed h => ?_⟩
  · exact hw.advancing n' old cs (World.mem_of_mem_setTask h nofun)
  · have hok := hw.waiting m rx timed (World.mem_of_mem_setTask h nofun)
    refine ⟨hok.lt, by simp [w₁], fun n' old cs h' hrx => ?_, hok.sent⟩
    exact hok.held n' old cs (World.mem_of_mem_setTask h' nofun) hrx

/-- `advance` sending to its next waiter keeps the invariant. -/
theorem inv_send {w : World S V} {i c : ℕ} {num old : V} {cs : List ℕ} (hw : Inv w)
    (ht : w.tasks[i]? = some (.advancing num old (c :: cs))) :
    Inv ((w.send c).setTask i (.advancing num old cs)) := by
  have htmem : Task.advancing num old (c :: cs) ∈ w.tasks := List.mem_of_getElem? ht
  have hc : c ∈ w.pending := World.mem_pending_of_senders htmem List.mem_cons_self
  have hnum : num ≤ cntValue w.internal.current := hw.advancing _ _ _ htmem
  have hch : ∀ d, d ≠ c → ((w.send c).setTask i (.advancing num old cs)).channels[d]? =
      w.channels[d]? := fun d hd => List.getElem?_modify_ne _ _ (Ne.symm hd)
  have hchc : ((w.send c).setTask i (.advancing num old cs)).channels[c]? = some ⟨true, true⟩ := by
    simp [send, hw.pendingOpen c hc]
  have hmem : ∀ t, t ∈ ((w.send c).setTask i (.advancing num old cs)).tasks →
      t = .advancing num old cs ∨ t ∈ w.tasks := fun t h => World.mem_setTask h
  obtain ⟨hnd, hopen, hclosed⟩ := hw.release (w.send c) (.advancing num old cs) rfl ht rfl hch
    fun ch h => by cases hchc.symm.trans h; rfl
  refine ⟨hw.above, hopen, hnd, hclosed, fun d ch hd hcl hs => ?_,
    fun cs' h => ?_, fun n' o' cs' h => ?_, fun m rx timed h => ?_⟩
  · by_cases hdc : d = c
    · rw [hdc, hchc] at hd
      cases hd
      cases hs
    · rw [hch d hdc] at hd
      exact hw.dropped d ch hd hcl hs
  · exact hw.shuttingDown cs' (World.mem_of_mem_setTask h nofun)
  · rcases hmem _ h with h | h
    · cases h
      exact hnum
    · exact hw.advancing _ _ _ h
  · have hok := hw.waiting m rx timed (World.mem_of_mem_setTask h nofun)
    refine ⟨by simpa [send] using hok.lt, hok.heap, fun n' o' cs' h' hrx => ?_,
      fun ch hch' hs => ?_⟩
    · rcases hmem _ h' with h' | h'
      · cases h'
        exact hok.held _ _ _ htmem (List.mem_cons_of_mem _ hrx)
      · exact hok.held _ _ _ h' hrx
    · by_cases hrc : rx = c
      · -- the message sent on its channel is the one of this `advance`, past its number
        exact (hok.held _ _ _ htmem (hrc ▸ List.mem_cons_self)).trans hnum
      · rw [hch rx hrc] at hch'
        exact hok.sent ch hch' hs

/-- `shutdown` dropping its next sender keeps the invariant. -/
theorem inv_dropSender {w : World S V} {i c : ℕ} {cs : List ℕ} (hw : Inv w)
    (ht : w.tasks[i]? = some (.shuttingDown (c :: cs))) :
    Inv ((w.dropSender c).setTask i (.shuttingDown cs)) := by
  have htmem : Task.shuttingDown (c :: cs) ∈ w.tasks := List.mem_of_getElem? ht
  have hc : c ∈ w.pending := World.mem_pending_of_senders htmem List.mem_cons_self
  have hshut : w.internal.shutdown = true := hw.shuttingDown _ htmem
  have hch : ∀ d, d ≠ c → ((w.dropSender c).setTask i (.shuttingDown cs)).channels[d]? =
      w.channels[d]? := fun d hd => List.getElem?_modify_ne _ _ (Ne.symm hd)
  have hchc : ((w.dropSender c).setTask i (.shuttingDown cs)).channels[c]? =
      some ⟨false, true⟩ := by
    simp [dropSender, hw.pendingOpen c hc]
  obtain ⟨hnd, hopen, hclosed⟩ := hw.release (w.dropSender c) (.shuttingDown cs) rfl ht rfl hch
    fun ch h => by cases hchc.symm.trans h; rfl
  refine ⟨hw.above, hopen, hnd, hclosed, fun _ _ _ _ _ => hshut,
    fun _ _ => hshut, fun n' o' cs' h => ?_, fun m rx timed h => ?_⟩
  · exact hw.advancing _ _ _ (World.mem_of_mem_setTask h nofun)
  · have hok := hw.waiting m rx timed (World.mem_of_mem_setTask h nofun)
    refine ⟨by simpa [dropSender] using hok.lt, hok.heap, fun n' o' cs' h' hrx => ?_,
      fun ch hch' hs => ?_⟩
    · exact hok.held _ _ _ (World.mem_of_mem_setTask h' nofun) hrx
    · by_cases hrc : rx = c
      · rw [hrc, hchc] at hch'
        cases hch'
        cases hs
      · rw [hch rx hrc] at hch'
        exact hok.sent ch hch' hs

/-! ## What one step does -/

section Move

variable {w w' : World S V} {e : Input V} {r : Option (Reply S V)}

/-- A step changes no task but its own. -/
theorem Move.tasks_ne (hm : Move w e r w') {j : ℕ} (hj : j ≠ e.task) :
    w'.tasks[j]? = w.tasks[j]? := by
  cases hm <;> simp [pushWaiter, List.getElem?_set_ne (Ne.symm hj)]

/-- The shutdown flag is set by `shutdown` only... -/
theorem Move.shutdown_of_flag (hm : Move w e r w') (h : w'.internal.shutdown = true) :
    w.internal.shutdown = true ∨ e.action = .call .shutdown := by
  cases hm <;> simp_all [pushWaiter]

/-- ...and never cleared. -/
theorem Move.flag_mono (hm : Move w e r w') (h : w.internal.shutdown = true) :
    w'.internal.shutdown = true := by
  cases hm <;> simp_all

/-- A message once sent stays sent. -/
theorem Move.sent_mono (hm : Move w e r w') {c : ℕ} {ch : Channel}
    (hch : w.channels[c]? = some ch) (hs : ch.sent = true) :
    ∃ ch' : Channel, w'.channels[c]? = some ch' ∧ ch'.sent = true := by
  cases hm
  case register =>
    have hlt := (List.getElem?_eq_some_iff.1 hch).1
    exact ⟨ch, by simp [pushWaiter, List.getElem?_append_left hlt, hch], hs⟩
  case send c' _ _ =>
    by_cases hc : c' = c
    · subst hc
      exact ⟨⟨true, true⟩, by simp [hch], rfl⟩
    · exact ⟨ch, by simp [List.getElem?_modify_ne _ _ hc, hch], hs⟩
  case drop c' _ _ =>
    by_cases hc : c' = c
    · subst hc
      exact ⟨{ ch with closed := true }, by simp [hch], hs⟩
    · exact ⟨ch, by simp [List.getElem?_modify_ne _ _ hc, hch], hs⟩
  all_goals exact ⟨ch, hch, hs⟩

/-- A wait returns `Ok` only once the counter has reached its number. -/
theorem Move.le_of_waited_ok {m : V} (hw : Inv w) (hm : Move w e (some (.waited m (.ok ()))) w') :
    m ≤ cntValue w.internal.current := by
  cases hm with
  | arrived _ _ _ _ hle => exact hle
  | woken _ _ _ _ ch ht hch hs => exact (hw.waiting _ _ _ (List.mem_of_getElem? ht)).sent ch hch hs

/-- A wait returns `Err(Shutdown)` only once the shutdown flag is set. -/
theorem Move.flag_of_waited_shutdown {m : V} (hw : Inv w)
    (hm : Move w e (some (.waited m (.error .shutdown))) w') : w.internal.shutdown = true := by
  cases hm with
  | refused _ _ _ _ _ hs => exact hs
  | closed _ _ _ _ ch _ hch hs hcl => exact hw.dropped _ ch hch hcl hs

/-- When `advance(num)` returns, every waiter left in the heap waits for a number above `num`. -/
theorem Move.above_of_advanced {num old : V} (hw : Inv w)
    (hm : Move w e (some (.advanced num old)) w') : ∀ x ∈ w'.internal.waiters, num < x.wakeNum := by
  cases hm with
  | advanced _ _ _ hle => exact fun x hx => hle.trans_lt (hw.above x hx)
  | returned _ _ _ ht =>
    exact fun x hx => (hw.advancing _ _ _ (List.mem_of_getElem? ht)).trans_lt (hw.above x hx)

end Move

/-! ## No lost wake-up -/

/-- The message of channel `c` has been sent, or is held by an `advance` that will send it. -/
def Delivered (w : World S V) (c : ℕ) : Prop :=
  (∃ ch : Channel, w.channels[c]? = some ch ∧ ch.sent = true) ∨
    ∃ (j : ℕ) (num old : V) (cs : List ℕ), w.tasks[j]? = some (.advancing num old cs) ∧ c ∈ cs

/-- A waiter registered on channel `c` for `m` is still on the heap, or its message is delivered,
or `shutdown` has taken the lock. -/
def Registered (w : World S V) (c : ℕ) (m : V) : Prop :=
  (∃ x ∈ w.internal.waiters, x.wakeChannel = c ∧ x.wakeNum = m) ∨ Delivered w c ∨
    w.internal.shutdown = true

section Move

variable {w w' : World S V} {e : Input V} {r : Option (Reply S V)}

/-- A delivered message stays delivered: the `advance` that holds it keeps it until it sends it. -/
theorem Move.delivered (hw : Inv w) (hm : Move w e r w') {c : ℕ} (hd : Delivered w c) :
    Delivered w' c := by
  rcases hd with ⟨ch, hch, hs⟩ | ⟨j, num, old, cs, hj, hc⟩
  · exact .inl (hm.sent_mono hch hs)
  by_cases hje : j = e.task
  swap
  · exact .inr ⟨j, num, old, cs, (hm.tasks_ne hje).trans hj, hc⟩
  -- the holder itself steps
  cases hm
  case stay => exact .inr ⟨j, num, old, cs, hj, hc⟩
  case send i _ _ c' cs' ht =>
    rw [hje, ht] at hj
    cases hj
    rcases List.mem_cons.1 hc with rfl | hc
    · have hopen := hw.pendingOpen c (mem_pending_of_senders (List.mem_of_getElem? ht)
        List.mem_cons_self)
      exact .inl ⟨⟨true, true⟩, by simp [hopen], rfl⟩
    · have hi : i < w.tasks.length := (List.getElem?_eq_some_iff.1 ht).1
      exact .inr ⟨i, num, old, cs', by simp [hi], hc⟩
  -- every other move of the holder needs it in another place, or with no sender left
  all_goals simp_all

/-- A registered waiter stays registered. -/
theorem Move.registered (hw : Inv w) (hm : Move w e r w') {c : ℕ} {m : V}
    (hr : Registered w c m) : Registered w' c m := by
  rcases hr with ⟨x, hx, hxc, hxm⟩ | hd | hs
  · cases hm
    case register => exact .inl ⟨x, by simp [pushWaiter, hx], hxc, hxm⟩
    case lock i num ht _ =>
      rcases @mem_popArrived_or V _ num _ _ hx with hx | hx
      · exact .inl ⟨x, hx, hxc, hxm⟩
      · -- popped: the `advance` that took the lock holds its sender
        have hi : i < w.tasks.length := (List.getElem?_eq_some_iff.1 ht).1
        exact .inr (.inl (.inr ⟨i, num, cntValue w.internal.current,
          (popArrived num w.internal.waiters).1, by simp [hi], hxc ▸ hx⟩))
    case shutdown => exact .inr (.inr rfl)
    all_goals exact .inl ⟨x, hx, hxc, hxm⟩
  · exact .inr (.inl (hm.delivered hw hd))
  · exact .inr (.inr (hm.flag_mono hs))

/-- A task inside `advance` keeps its number and the old value until it returns. -/
theorem Move.advancing_keep (hm : Move w e r w') {i : ℕ} {num old : V} {cs : List ℕ}
    (ht : w.tasks[i]? = some (.advancing num old cs)) (hr : e.task = i → r = none) :
    ∃ cs', w'.tasks[i]? = some (.advancing num old cs') := by
  by_cases hie : i = e.task
  swap
  · exact ⟨cs, (hm.tasks_ne hie).trans ht⟩
  cases hm
  case stay => exact ⟨cs, ht⟩
  case send j _ _ c cs' hj =>
    rw [hie, hj] at ht
    cases ht
    have hj' : j < w.tasks.length := (List.getElem?_eq_some_iff.1 hj).1
    exact ⟨cs', by simp [hie, hj']⟩
  -- every other move of the task needs it in another place, or replies
  all_goals simp_all

/-- The reply of a task inside `advance` is the number and the old value it took the lock with. -/
theorem Move.reply_of_advancing {res : Reply S V} (hm : Move w e (some res) w') {num old : V}
    {cs : List ℕ} (ht : w.tasks[e.task]? = some (.advancing num old cs)) :
    res = .advanced num old := by
  cases hm
  case returned => simp_all
  all_goals simp_all

/-- A wait whose message is delivered returns `Ok`, if it returns. -/
theorem Move.reply_of_delivered {res : Reply S V} (hw : Inv w) (hm : Move w e (some res) w')
    {m : V} {c : ℕ} (hd : Delivered w c) (ht : w.tasks[e.task]? = some (.waiting m c false)) :
    res = .waited m (.ok ()) := by
  cases hm
  case woken => simp_all
  case closed i _ _ _ ch hi hch hs hcl =>
    rw [hi] at ht
    cases ht
    -- a sender still held is open, and a sent message is not `closed` alone
    rcases hd with ⟨ch', hch', hs'⟩ | ⟨j, num, old, cs, hj, hc⟩
    · rw [hch] at hch'
      cases hch'
      simp_all
    · have hopen := hw.pendingOpen c (mem_pending_of_senders (List.mem_of_getElem? hj) hc)
      rw [hch] at hopen
      cases hopen
      simp at hcl
  all_goals simp_all

end Move

theorem step_reply_of_delivered {w : World S V} {i c : ℕ} {m : V} {a : Action V}
    {res : Reply S V} (hw : Inv w) (hd : Delivered w c)
    (ht : w.tasks[i]? = some (.waiting m c false)) (h : (step w ⟨i, a⟩).1 = some res) :
    res = .waited m (.ok ()) := by
  have hm := move_step w ⟨i, a⟩
  rw [h] at hm
  exact hm.reply_of_delivered hw hd ht

/-- Resuming the `advance` that holds the sender of `c` sends its message, one sender a turn,
while a task waiting on `c` keeps waiting.  The induction is on the senders the `advance` still
holds. -/
theorem exists_sent_of_advancing {i j c : ℕ} {m num old : V} {timed : Bool} (hij : i ≠ j) :
    ∀ {cs : List ℕ} {w : World S V}, w.tasks[j]? = some (.advancing num old cs) → c ∈ cs →
      c < w.channels.length → w.tasks[i]? = some (.waiting m c timed) →
      ∃ is : List (Input V), (∀ e ∈ is, e = ⟨j, .resume⟩) ∧
        (final step w is).channels[c]? = some ⟨true, true⟩ ∧
        (final step w is).tasks[i]? = some (.waiting m c timed)
  | [], _, _, hc, _, _ => absurd hc List.not_mem_nil
  | c' :: cs, w, hj, hc, hlt, hi => by
    have hjlt : j < w.tasks.length := (List.getElem?_eq_some_iff.1 hj).1
    -- one turn of the loop sends the first sender it holds
    have hstep : step w ⟨j, .resume⟩ =
        (none, (w.send c').setTask j (.advancing num old cs)) := by
      simp [step, hj, stepTask]
    have hj' : ((w.send c').setTask j (.advancing num old cs)).tasks[j]? =
        some (.advancing num old cs) := by
      simp [World.setTask, World.send, hjlt]
    have hi' : ((w.send c').setTask j (.advancing num old cs)).tasks[i]? =
        some (.waiting m c timed) := by
      simpa [World.setTask, World.send, List.getElem?_set_ne (Ne.symm hij)] using hi
    by_cases hcc : c' = c
    · subst hcc
      refine ⟨[⟨j, .resume⟩], by simp, ?_, by simpa [hstep] using hi'⟩
      simp [hstep, World.send, hlt]
    · have hc' : c ∈ cs := (List.mem_cons.mp hc).resolve_left (Ne.symm hcc)
      obtain ⟨is, his, hch, hti⟩ := exists_sent_of_advancing hij hj' hc'
        (by simpa [World.send] using hlt) hi'
      refine ⟨⟨j, .resume⟩ :: is, ?_, by simpa [hstep] using hch, by simpa [hstep] using hti⟩
      intro e he
      rcases List.mem_cons.mp he with rfl | he
      · rfl
      · exact his e he

/-- A task waiting on a channel whose message is delivered returns `Ok(())`: once the
`advance` holding the sender, if one does, has resumed far enough, the task's `changed()` finds
the message. -/
theorem exists_waited_ok {w : World S V} (hw : Inv w) {i c : ℕ} {m : V} {timed : Bool}
    (hd : Delivered w c) (ht : w.tasks[i]? = some (.waiting m c timed)) :
    ∃ is : List (Input V), (∀ e ∈ is, e.action = .resume) ∧
      (step (final step w is) ⟨i, .wake⟩).1 = some (.waited m (.ok ())) := by
  rcases hd with ⟨ch, hch, hsent⟩ | ⟨j, num, old, cs, hj, hc⟩
  · -- the message is there already
    refine ⟨[], by simp, ?_⟩
    simp [step, ht, stepTask, changed, hch, hsent]
  · have hij : i ≠ j := by
      rintro rfl
      rw [ht] at hj
      cases hj
    have hlt : c < w.channels.length := (hw.waiting m c timed (List.mem_of_getElem? ht)).lt
    obtain ⟨is, his, hch, hti⟩ := exists_sent_of_advancing hij hj hc hlt ht
    refine ⟨is, fun e he => by rw [his e he], ?_⟩
    simp [step, hti, stepTask, changed, hch]

/-- `advance` taking the lock for a number at least `m` delivers the message of a waiter
registered for `m` before any `shutdown`. -/
theorem delivered_advance {w : World S V} {i c : ℕ} {m num : V} (hw : Inv w)
    (hr : Registered w c m) (hs : w.internal.shutdown = false) (hle : m ≤ num)
    (ht : w.tasks[i]? = some .idle) : Delivered (advance w i num).2 c := by
  rcases hr with ⟨x, hx, hxc, hxm⟩ | hd | hs'
  · -- the waiter is on the heap, for a number above the counter and at most `num`
    have hnum : cntValue w.internal.current < num := (hw.above x hx).trans_le (hxm ▸ hle)
    simp only [advance, not_le.2 hnum, if_false]
    rcases @mem_popArrived_or V _ num _ _ hx with hx' | hx'
    · exact absurd (lt_of_mem_popArrived x hx') (not_lt.2 (hxm ▸ hle))
    · have hi : i < w.tasks.length := (List.getElem?_eq_some_iff.1 ht).1
      exact .inr ⟨i, num, cntValue w.internal.current, (popArrived num w.internal.waiters).1,
        by simp [hi], hxc ▸ hx'⟩
  · exact (move_advance w i num ht).delivered hw hd
  · rw [hs] at hs'
    cases hs'

/-- A wait that does not return at once has registered its channel. -/
theorem waitFor_eq_register {w : World S V} {i : ℕ} {m : V} {timed : Bool}
    (h : (waitFor w i m timed).1 = none) :
    (waitFor w i m timed).2 = (pushWaiter w m).setTask i (.waiting m w.channels.length timed) := by
  by_cases hle : m ≤ cntValue w.internal.current
  · simp [waitFor, queueForWait, hle] at h
  · cases hs : w.internal.shutdown
    · simp [waitFor, queueForWait, hle, hs]
    · simp [waitFor, queueForWait, hle, hs] at h

omit [MonotonicCounter S V] [LinearOrder V] in
theorem registered_pushWaiter (w : World S V) (i : ℕ) (m : V) (timed : Bool) :
    Registered ((pushWaiter w m).setTask i (.waiting m w.channels.length timed))
      w.channels.length m :=
  .inl ⟨⟨m, w.channels.length⟩, by simp [pushWaiter], rfl, rfl⟩

theorem step_call {w : World S V} {i : ℕ} (ht : w.tasks[i]? = some .idle) (c : Call V) :
    step w ⟨i, .call c⟩ = stepTask w i .idle (.call c) := by
  simp [step, ht]

theorem advance_reply {w : World S V} {i : ℕ} {num : V} {res : Reply S V}
    (h : (advance w i num).1 = some res) : res = .advanced num (cntValue w.internal.current) := by
  by_cases hle : num ≤ cntValue w.internal.current
  · simp only [advance, hle, if_true, Option.some.injEq] at h
    exact h.symm
  · simp [advance, hle] at h

theorem advance_eq_lock {w : World S V} {i : ℕ} {num : V} (ht : w.tasks[i]? = some .idle)
    (h : (advance w i num).1 = none) :
    (advance w i num).2.tasks[i]? = some
      (.advancing num (cntValue w.internal.current) (popArrived num w.internal.waiters).1) := by
  have hi : i < w.tasks.length := (List.getElem?_eq_some_iff.1 ht).1
  by_cases hle : num ≤ cntValue w.internal.current
  · simp [advance, hle] at h
  · simp [advance, hle, hi]

/-- The first reply to an `advance(num)` call, however the other tasks interleave with it, is
`num` and the counter's value when the call took the lock. -/
theorem first_reply_advance {w : World S V} {i : ℕ} {num : V} {post : List (Input V)}
    {tr₁ tr₂ : List (Transition (World S V) (Input V) (Option (Reply S V)))}
    {t : Transition (World S V) (Input V) (Option (Reply S V))} (ht : w.tasks[i]? = some .idle)
    (htr : trace step w (⟨i, .call (.advance num)⟩ :: post) = tr₁ ++ t :: tr₂)
    (hsilent : ∀ t' ∈ tr₁, t'.input.task = i → t'.output = none) (hti : t.input.task = i)
    {res : Reply S V} (hres : t.output = some res) :
    res = .advanced num (cntValue w.internal.current) := by
  have hcall : step w ⟨i, .call (.advance num)⟩ = advance w i num := step_call ht _
  rw [trace_cons] at htr
  cases tr₁ with
  | nil =>
    -- the call returned at once
    obtain ⟨rfl, -⟩ := List.cons.inj htr
    exact advance_reply (hcall ▸ hres)
  | cons t₀ tr₁ =>
    rw [List.cons_append, List.cons.injEq] at htr
    obtain ⟨rfl, htr⟩ := htr
    -- the call took the lock and left the task inside `advance` until its reply
    have hnone : (advance w i num).1 = none :=
      hcall ▸ hsilent _ List.mem_cons_self rfl
    have hlock : ∃ cs, (step w ⟨i, .call (.advance num)⟩).2.tasks[i]? =
        some (.advancing num (cntValue w.internal.current) cs) :=
      ⟨_, hcall ▸ advance_eq_lock ht hnone⟩
    have hbefore := before_of_trace_eq
      (fun w' : World S V => ∃ cs, w'.tasks[i]? = some (.advancing num (cntValue w.internal.current) cs))
      (fun t' => t'.input.task = i → t'.output = none)
      (fun w' e hA ⟨cs, hcs⟩ => (move_step w' e).advancing_keep hcs hA)
      _ post tr₁ tr₂ t hlock htr fun t' ht' => hsilent t' (List.mem_cons_of_mem _ ht')
    obtain ⟨cs, hcs⟩ := hbefore
    have htmem : t ∈ trace step (step w ⟨i, .call (.advance num)⟩).2 post :=
      htr ▸ List.mem_append_right _ List.mem_cons_self
    have hm := move_step t.before t.input
    rw [mem_trace_step _ post t htmem, hres] at hm
    exact hm.reply_of_advancing (hti ▸ hcs)

/-! ## Runs -/

/-- The world after the interleaving `is`, from `SeqWait::new(startingNum)` shared by `n` tasks. -/
def run (startingNum : S) (n : ℕ) (is : List (Input V)) : World S V :=
  final step (World.new startingNum n) is

/-- What every interleaving of calls on a `SeqWait` guarantees. -/
structure Guarantees (startingNum : S) (n : ℕ) : Prop where
  /-- A wait returns `Ok(())` only when the counter has reached its number. -/
  waitedOk : ∀ pre e m, (step (run startingNum n pre) e).1 = some (.waited m (.ok ())) →
    m ≤ cntValue (run startingNum n pre).internal.current
  /-- A wait returns `Err(Shutdown)` only after a call of `shutdown`. -/
  waitedShutdown : ∀ pre e m,
    (step (run startingNum n pre) e).1 = some (.waited m (.error .shutdown)) →
      ∃ e' ∈ pre, e'.action = .call .shutdown
  /-- No step lowers the counter. -/
  cntValue_mono : ∀ pre e, cntValue (run startingNum n pre).internal.current ≤
    cntValue (step (run startingNum n pre) e).2.internal.current
  /-- The first reply to an `advance(num)` call is `num` and the counter's value when the call
  took the lock. -/
  advancedOld : ∀ pre i num post tr₁ t tr₂, (run startingNum n pre).tasks[i]? = some .idle →
    trace step (run startingNum n pre) (⟨i, .call (.advance num)⟩ :: post) = tr₁ ++ t :: tr₂ →
    (∀ t' ∈ tr₁, t'.input.task = i → t'.output = none) → t.input.task = i →
    ∀ res, t.output = some res → res = .advanced num (cntValue (run startingNum n pre).internal.current)
  /-- When `advance(num)` returns, no waiter for a number up to `num` is left in the heap. -/
  advancedAbove : ∀ pre e num old,
    (step (run startingNum n pre) e).1 = some (.advanced num old) →
      ∀ x ∈ (step (run startingNum n pre) e).2.internal.waiters, num < x.wakeNum
  /-- No wake-up is lost: once an `advance(num)` has taken the lock after a `wait_for(m)` with
  `m ≤ num` registered channel `c`, and before any `shutdown`, the message of `c` is delivered
  from then on, every later reply to the wait is `Ok(())`, and a wait still pending returns
  `Ok(())` when it is woken, after the `advance` has resumed far enough to send it. -/
  noLostWakeup : ∀ pre W m mid T num post,
    (run startingNum n pre).tasks[W]? = some .idle →
    (step (run startingNum n pre) ⟨W, .call (.waitFor m)⟩).1 = none →
    (run startingNum n (pre ++ ⟨W, .call (.waitFor m)⟩ :: mid)).tasks[T]? = some .idle → m ≤ num →
    (run startingNum n (pre ++ ⟨W, .call (.waitFor m)⟩ :: mid)).internal.shutdown = false →
    Delivered (run startingNum n (pre ++ ⟨W, .call (.waitFor m)⟩ :: mid ++
        ⟨T, .call (.advance num)⟩ :: post)) (run startingNum n pre).channels.length ∧
      (∀ a res, (run startingNum n (pre ++ ⟨W, .call (.waitFor m)⟩ :: mid ++
          ⟨T, .call (.advance num)⟩ :: post)).tasks[W]? =
          some (.waiting m (run startingNum n pre).channels.length false) →
        (step (run startingNum n (pre ++ ⟨W, .call (.waitFor m)⟩ :: mid ++
          ⟨T, .call (.advance num)⟩ :: post)) ⟨W, a⟩).1 = some res → res = .waited m (.ok ())) ∧
      ((run startingNum n (pre ++ ⟨W, .call (.waitFor m)⟩ :: mid ++
          ⟨T, .call (.advance num)⟩ :: post)).tasks[W]? =
          some (.waiting m (run startingNum n pre).channels.length false) →
        ∃ is : List (Input V), (∀ e ∈ is, e.action = .resume) ∧
          (step (run startingNum n (pre ++ ⟨W, .call (.waitFor m)⟩ :: mid ++
            ⟨T, .call (.advance num)⟩ :: post ++ is)) ⟨W, .wake⟩).1 = some (.waited m (.ok ())))

section Lawful

-- the counter reads back the value it was advanced to
variable (hcnt : ∀ (s : S) (v : V), cntValue (cntAdvance s v) = v)
include hcnt

/-- `advance` taking the lock for a number above the counter keeps the invariant. -/
theorem inv_advance {w : World S V} {i : ℕ} {num : V} (hw : Inv w)
    (ht : w.tasks[i]? = some .idle) (hlt : cntValue w.internal.current < num) :
    Inv (World.setTask { w with internal := { w.internal with
        current := cntAdvance w.internal.current num
        waiters := (popArrived num w.internal.waiters).2 } }
      i (.advancing num (cntValue w.internal.current) (popArrived num w.internal.waiters).1)) := by
  set popped := popArrived num w.internal.waiters with hpopped
  set w₁ : World S V := { w with internal := { w.internal with
    current := cntAdvance w.internal.current num, waiters := popped.2 } }
  have hperm : List.Perm (w₁.setTask i (.advancing num (cntValue w.internal.current) popped.1)).pending
      w.pending := by
    have h := @World.perm_pending_setTask S V w₁ i .idle
      (.advancing num (cntValue w.internal.current) popped.1) ht
    simp only [Task.senders, List.append_nil] at h
    refine h.trans ?_
    simp only [World.pending, w₁]
    refine (List.perm_iff_count.2 fun x => ?_).trans
      ((popArrived_perm num w.internal.waiters).append_right (w.tasks.flatMap Task.senders))
    simp only [List.count_append, hpopped]
    omega
  have hcur : cntValue w₁.internal.current = num := hcnt _ _
  have hmem : ∀ t, t ∈ (w₁.setTask i (.advancing num (cntValue w.internal.current) popped.1)).tasks →
      t = .advancing num (cntValue w.internal.current) popped.1 ∨ t ∈ w.tasks :=
    fun t h => World.mem_setTask h
  refine ⟨?_, fun c hc => hw.pendingOpen c (hperm.subset hc), hperm.nodup_iff.2 hw.nodup,
    fun c ch h hc => hw.closed c ch h fun hc' => hc (hperm.symm.subset hc'), hw.dropped,
    fun cs h => ?_, fun n' old cs h => ?_, fun m rx timed h => ?_⟩
  · -- what the loop leaves waits for numbers above `num`, the new counter
    intro x hx
    simp only [World.setTask_internal, hcur]
    exact lt_of_mem_popArrived x hx
  · exact hw.shuttingDown cs (World.mem_of_mem_setTask h nofun)
  · simp only [World.setTask_internal, hcur]
    rcases hmem _ h with h | h
    · cases h
      exact le_rfl
    · exact (hw.advancing n' old cs h).trans hlt.le
  · have hok := hw.waiting m rx timed (World.mem_of_mem_setTask h nofun)
    refine ⟨hok.lt, fun x hx => hok.heap x (popArrived_subset num _ hx), ?_, ?_⟩
    · intro n' old cs h' hrx
      rcases hmem _ h' with h' | h'
      · -- the waiter popped for `rx` carried the task's number, at most `num`
        cases h'
        obtain ⟨x, hx, hxc, hxn⟩ := exists_of_mem_popArrived hrx
        exact hok.heap x hx hxc ▸ hxn
      · exact hok.held n' old cs h' hrx
    · intro ch hch hs
      simp only [World.setTask_internal, hcur]
      exact (hok.sent ch hch hs).trans hlt.le

/-- Every step keeps the invariant. -/
theorem inv_move {w w' : World S V} {e : Input V} {r : Option (Reply S V)} (hw : Inv w)
    (hm : Move w e r w') : Inv w' := by
  cases hm with
  | stay => exact hw
  | arrived => exact hw
  | refused => exact hw
  | register _ _ _ ht hlt => exact inv_register hw ht hlt
  | advanced => exact hw
  | lock _ _ ht hlt => exact inv_advance hcnt hw ht hlt
  | shutdown _ ht => exact inv_shutdown hw ht
  | load => exact hw
  | woken _ _ _ _ _ ht => exact hw.setTask_idle ht rfl
  | closed _ _ _ _ _ ht => exact hw.setTask_idle ht rfl
  | timeout _ _ _ ht => exact hw.setTask_idle ht rfl
  | cancel _ _ _ _ ht => exact hw.setTask_idle ht rfl
  | returned _ _ _ ht => exact hw.setTask_idle ht rfl
  | send _ _ _ _ _ ht => exact inv_send hw ht
  | shutDown _ ht => exact hw.setTask_idle ht rfl
  | drop _ _ _ ht => exact inv_dropSender hw ht

/-- The run lemma: a property that every step keeps from a world satisfying `Inv` holds, with
`Inv`, at the end of every run. -/
theorem final_of_move (P : World S V → Prop)
    (hP : ∀ {w w' : World S V} {e r}, Inv w → P w → Move w e r w' → P w') {w : World S V}
    (hw : Inv w) (hp : P w) (is : List (Input V)) :
    Inv (final step w is) ∧ P (final step w is) :=
  final_invariant (fun w => Inv w ∧ P w) (fun _ _ => True)
    (fun w e _ h => ⟨inv_move hcnt h.1 (move_step w e), hP h.1 h.2 (move_step w e)⟩) w is
    ⟨hw, hp⟩ fun _ _ => trivial

theorem inv_final {w : World S V} (hw : Inv w) (is : List (Input V)) : Inv (final step w is) :=
  (final_of_move hcnt (fun _ => True) (fun _ _ _ => trivial) hw trivial is).1

/-- No step lowers the counter. -/
theorem Move.cntValue_le {w w' : World S V} {e : Input V} {r : Option (Reply S V)}
    (hm : Move w e r w') : cntValue w.internal.current ≤ cntValue w'.internal.current := by
  cases hm
  case lock _ num _ hlt =>
    show cntValue w.internal.current ≤ cntValue (cntAdvance w.internal.current num)
    rw [hcnt]
    exact hlt.le
  all_goals simp [pushWaiter]

theorem inv_run (startingNum : S) (n : ℕ) (is : List (Input V)) : Inv (run startingNum n is) :=
  inv_final hcnt (inv_new startingNum n) is

/-- Once `advance(num)` has taken the lock after a `wait_for(m)` with `m ≤ num` registered, and
before any `shutdown`, the waiter's message is delivered, whatever runs after. -/
theorem delivered_after_advance {w : World S V} (hw : Inv w) {W T : ℕ} {m num : V}
    {mid post : List (Input V)} (hW : w.tasks[W]? = some .idle)
    (hreg : (step w ⟨W, .call (.waitFor m)⟩).1 = none)
    (hT : (final step (step w ⟨W, .call (.waitFor m)⟩).2 mid).tasks[T]? = some .idle)
    (hle : m ≤ num)
    (hflag : (final step (step w ⟨W, .call (.waitFor m)⟩).2 mid).internal.shutdown = false) :
    Inv (final step (step (final step (step w ⟨W, .call (.waitFor m)⟩).2 mid)
        ⟨T, .call (.advance num)⟩).2 post) ∧
      Delivered (final step (step (final step (step w ⟨W, .call (.waitFor m)⟩).2 mid)
        ⟨T, .call (.advance num)⟩).2 post) w.channels.length := by
  have hcall : step w ⟨W, .call (.waitFor m)⟩ = waitFor w W m false := step_call hW _
  have h₀ : Inv (step w ⟨W, .call (.waitFor m)⟩).2 := inv_move hcnt hw (move_step _ _)
  have hr₀ : Registered (step w ⟨W, .call (.waitFor m)⟩).2 w.channels.length m := by
    rw [hcall, waitFor_eq_register (hcall ▸ hreg)]
    exact registered_pushWaiter w W m false
  -- up to the lock of `advance` the waiter stays registered
  obtain ⟨h₁, hr₁⟩ := final_of_move hcnt (fun w' => Registered w' w.channels.length m)
    (fun hw hr hm => hm.registered hw hr) h₀ hr₀ mid
  have hd₂ : Delivered (step (final step (step w ⟨W, .call (.waitFor m)⟩).2 mid)
      ⟨T, .call (.advance num)⟩).2 w.channels.length := by
    rw [step_call hT]
    exact delivered_advance h₁ hr₁ hflag hle hT
  -- from the lock on the message stays delivered
  exact final_of_move hcnt (fun w' => Delivered w' w.channels.length)
    (fun hw hd hm => hm.delivered hw hd) (inv_move hcnt h₁ (move_step _ _)) hd₂ post

end Lawful

end SeqWait

end NeonStorage

import Phi.Harness.EventBus

/-!
# Watchers receive what follows their snapshot

After each snapshot a watcher is to receive exactly the events that were emitted behind the boundary of that snapshot,
once and in order. `Exact` says so for one state: what was received is the first part of those events, and unless a
resnapshot is going on, the rest is on its way.

Two kinds of steps break this. A capture may fail when the resnapshot has already thrown events away, and a later
resnapshot may meet the barrier of the failed one. A listener of the bus may throw, and the report overtakes what is
queued. `Sound` excludes them for one watcher. Every other step keeps `WatchInv`.
-/

namespace Phi.Harness

variable {C T : Type}

/-! ## What is on its way -/

/-- The events that the delivery tail is going to push to a watcher. -/
def pending (i : ℕ) (filter : HarnessEvent → Bool) (items : List (Item C)) : List (Emission C) :=
  items.filterMap fun
    | .push j e => if j = i ∧ filter e.1 then some e else none
    | _ => none

/-- The events behind a place of the log that a watcher is to receive. -/
def expected (filter : HarnessEvent → Bool) (log : List (Emission C)) (boundary : ℕ) : List (Emission C) :=
  (log.drop boundary).filter fun e => filter e.1

/-- A watcher gets exactly the events behind the boundary of its snapshot. -/
structure Exact (b : EventBus C T) (i : ℕ) (w : Watcher C T) : Prop where
  only : w.received <+: expected w.filter b.log w.boundary
  all : w.state ≠ .unsubscribed → w.resnapshotState = none →
    w.received ++ w.waiting ++ pending i w.filter b.deliveryTail = expected w.filter b.log w.boundary

section
variable {i : ℕ} {f : HarnessEvent → Bool}

theorem pending_append (xs ys : List (Item C)) : pending i f (xs ++ ys) = pending i f xs ++ pending i f ys :=
  List.filterMap_append

theorem pending_cons (x : Item C) (xs : List (Item C)) : pending i f (x :: xs) = pending i f [x] ++ pending i f xs :=
  pending_append [x] xs

theorem pending_push (e : Emission C) : pending i f [.push i e] = if f e.1 then [e] else [] := by
  by_cases h : f e.1 = true <;> simp [pending, h]

theorem pending_push_ne {j : ℕ} (hj : j ≠ i) (e : Emission C) : pending i f [.push j e] = [] := by
  simp [pending, hj]

theorem expected_append {log : List (Emission C)} {n : ℕ} (hn : n ≤ log.length) (es : List (Emission C)) :
    expected f (log ++ es) n = expected f log n ++ es.filter fun e => f e.1 := by
  rw [expected, List.drop_append_of_le_length hn, List.filter_append]
  rfl

theorem expected_length (log : List (Emission C)) : expected f log log.length = [] := by
  rw [expected, List.drop_length, List.filter_nil]

/-- The calls of one emission reach a subscribed watcher once. -/
theorem pending_bind (b : EventBus C T) (hn : b.watchListeners.Nodup) (hi : i ∈ b.watchListeners) (e : Emission C)
    (reportErrors : Bool) : pending i f (b.bind e reportErrors) = if f e.1 then [e] else [] := by
  have hcalls : pending i f ((b.listeners.filter fun l => l.1 = e.1.type).map
      fun l => Item.call l.2 e reportErrors) = [] := by
    simp [pending, List.filterMap_eq_nil_iff]
  rw [EventBus.bind, pending_append, hcalls, List.nil_append]
  obtain ⟨before, after, heq⟩ := List.append_of_mem hi
  rw [heq] at hn ⊢
  have hne : ∀ j ∈ before ++ after, j ≠ i := by
    intro j hj hji
    subst hji
    rw [List.nodup_middle] at hn
    exact (List.nodup_cons.mp hn).1 hj
  have hnone : ∀ js : List ℕ, (∀ j ∈ js, j ≠ i) → pending i f (js.map fun j => Item.push j e) = [] := by
    intro js hjs
    simp only [pending, List.filterMap_map, List.filterMap_eq_nil_iff]
    intro j hj
    simp [hjs j hj]
  rw [List.map_append, List.map_cons, pending_append, pending_cons, pending_push,
    hnone before fun j hj => hne j (List.mem_append_left _ hj),
    hnone after fun j hj => hne j (List.mem_append_right _ hj), List.append_nil, List.nil_append]

theorem pending_flatMap_bind (b : EventBus C T) (hn : b.watchListeners.Nodup) (hi : i ∈ b.watchListeners)
    (es : List (Emission C)) (reportErrors : Bool) :
    pending i f (es.flatMap fun e => b.bind e reportErrors) = es.filter fun e => f e.1 := by
  induction es with
  | nil => rfl
  | cons e es ih =>
    rw [List.flatMap_cons, pending_append, pending_bind b hn hi, ih, List.filter_cons]
    split_ifs <;> rfl

end

/-! ## The condition -/

/-- The step does not take a branch that goes wrong for a watcher. -/
def Sound (i : ℕ) (b : EventBus C T) : Action C T → Prop
  /- No barrier of an earlier resnapshot is queued. -/
  | .resnapshot j => j = i → Item.barrier i ∉ b.deliveryTail
  /- The resnapshot that fails has thrown nothing away. -/
  | .captureFailed j => j = i → ∀ w ∈ b.watchers[i]?, ∀ r ∈ w.resnapshotState, r.discarded = false
  /- The report of a listener's failure is not for the watcher, or overtakes nothing. -/
  | .deliver (some failure) =>
    match b.deliveryTail with
    | .call _ e true :: rest => e.1.isHandlerError = false → i ∈ b.watchListeners →
      ∀ w ∈ b.watchers[i]?, w.filter (failure.report e.1) = true →
        pending i w.filter rest = [] ∧ Item.barrier i ∉ rest
    | _ => True
  | _ => True

/-! ## One watcher -/

section
variable (log : List (Emission C)) (tail : List (Item C)) (i : ℕ)

/-- A resnapshot that is going on. -/
structure Resnapshotting (w : Watcher C T) (r : ResnapshotState C T) : Prop where
  stale : ∀ entry ∈ w.deliveryTail ++ w.buffer, entry.2 < w.epoch
  mark_le : ∀ m, r.mark = some m → m ≤ log.length
  /-- Nothing is lost yet. -/
  kept : w.state ≠ .unsubscribed → r.discarded = false →
    w.received ++ r.held ++ pending i w.filter tail = expected w.filter log w.boundary
  none_held : r.phase = .dropping → r.held = []
  unmarked : r.mark = none → r.phase = .dropping ∧ Item.barrier i ∉ tail
  /-- Behind the barrier is what was emitted after the mark. -/
  dropping : ∀ m, r.mark = some m → r.phase = .dropping →
    ∃ before after, tail = before ++ Item.barrier i :: after ∧ Item.barrier i ∉ before ∧ Item.barrier i ∉ after ∧
      (w.state ≠ .unsubscribed → pending i w.filter after = expected w.filter log m)
  holding : ∀ m, r.mark = some m → r.phase = .holding → Item.barrier i ∉ tail ∧
    (w.state ≠ .unsubscribed → r.held ++ pending i w.filter tail = expected w.filter log m)

structure WatchInv (w : Watcher C T) : Prop where
  boundary_le : w.boundary ≤ log.length
  only : w.received <+: expected w.filter log w.boundary
  started : w.state = .started → w.buffer = []
  buffering : w.state = .buffering → w.deliveryTail = []
  epochs : ∀ entry ∈ w.deliveryTail ++ w.buffer, entry.2 ≤ w.epoch
  idle : w.state ≠ .unsubscribed → w.resnapshotState = none →
    w.received ++ w.waiting ++ pending i w.filter tail = expected w.filter log w.boundary
  busy : ∀ r, w.resnapshotState = some r → Resnapshotting log tail i w r

end

namespace Watcher

theorem waiting_eq_nil {w : Watcher C T} (h : ∀ entry ∈ w.deliveryTail ++ w.buffer, entry.2 < w.epoch) :
    w.waiting = [] := by
  rw [waiting, List.filter_eq_nil_iff.mpr, List.map_nil]
  intro entry hentry
  have := h entry hentry
  simp only [decide_eq_true_eq]
  omega

/-- Entries of the current epoch behind others. -/
theorem current_append (entries : List (Emission C × ℕ)) (es : List (Emission C)) (epoch : ℕ) :
    ((entries ++ es.map fun e => (e, epoch)).filter fun entry => entry.2 = epoch).map Prod.fst
      = (entries.filter fun entry => entry.2 = epoch).map Prod.fst ++ es := by
  have hall : (es.map fun e => (e, epoch)).filter (fun entry => decide (entry.2 = epoch)) = es.map fun e => (e, epoch) := by
    rw [List.filter_eq_self]
    intro entry hentry
    obtain ⟨e, -, rfl⟩ := List.mem_map.mp hentry
    simp
  rw [List.filter_append, List.map_append, hall, List.map_map]
  congr 1
  exact List.map_id es

theorem foldl_push_unsubscribed {w : Watcher C T} (hs : w.state = .unsubscribed) (es : List (Emission C)) :
    es.foldl push w = w := by
  induction es with
  | nil => rfl
  | cons e es ih => rw [List.foldl_cons, show w.push e = w by simp only [push, hs], ih]

theorem foldl_push_buffering {w : Watcher C T} (hr : w.resnapshotState = none) (hs : w.state = .buffering)
    (es : List (Emission C)) :
    es.foldl push w = { w with buffer := w.buffer ++ es.map fun e => (e, w.epoch) } := by
  induction es generalizing w with
  | nil => rw [List.map_nil, List.append_nil, List.foldl_nil]
  | cons e es ih =>
    have hpush : w.push e = { w with buffer := w.buffer ++ [(e, w.epoch)] } := by simp only [push, hs, hr]
    rw [List.foldl_cons, hpush, ih (by exact hr) (by exact hs), List.map_cons, ← List.append_cons]

theorem foldl_push_started {w : Watcher C T} (hr : w.resnapshotState = none) (hs : w.state = .started)
    (es : List (Emission C)) :
    es.foldl push w = { w with deliveryTail := w.deliveryTail ++ es.map fun e => (e, w.epoch) } := by
  induction es generalizing w with
  | nil => rw [List.map_nil, List.append_nil, List.foldl_nil]
  | cons e es ih =>
    have hpush : w.push e = { w with deliveryTail := w.deliveryTail ++ [(e, w.epoch)] } := by simp only [push, hs, hr]
    rw [List.foldl_cons, hpush, ih (by exact hr) (by exact hs), List.map_cons, ← List.append_cons]

end Watcher

namespace WatchInv

variable {log : List (Emission C)} {tail : List (Item C)} {i : ℕ} {w w' : Watcher C T}

theorem exact {b : EventBus C T} (h : WatchInv b.log b.deliveryTail i w) : Exact b i w := ⟨h.only, h.idle⟩

/-- Pushing events to a watcher without a resnapshot. -/
theorem foldl_push (hb : w.boundary ≤ log.length) (honly : w.received <+: expected w.filter log w.boundary)
    (hr : w.resnapshotState = none) (hstarted : w.state = .started → w.buffer = [])
    (hbuffering : w.state = .buffering → w.deliveryTail = [])
    (hepochs : ∀ entry ∈ w.deliveryTail ++ w.buffer, entry.2 ≤ w.epoch) (es : List (Emission C))
    (hidle : w.state ≠ .unsubscribed →
      w.received ++ (w.waiting ++ es) ++ pending i w.filter tail = expected w.filter log w.boundary) :
    WatchInv log tail i (es.foldl Watcher.push w) := by
  have hmem : ∀ entries : List (Emission C × ℕ), (∀ entry ∈ entries, entry.2 ≤ w.epoch) →
      ∀ entry ∈ entries ++ es.map fun e => (e, w.epoch), entry.2 ≤ w.epoch := by
    intro entries hentries entry hentry
    rcases List.mem_append.mp hentry with hentry | hentry
    · exact hentries entry hentry
    · obtain ⟨e, -, rfl⟩ := List.mem_map.mp hentry
      exact le_rfl
  have hbusy : ∀ r, w.resnapshotState = some r → False := by
    intro r h
    rw [hr] at h
    cases h
  cases hs : w.state with
  | unsubscribed =>
    rw [Watcher.foldl_push_unsubscribed hs]
    exact ⟨hb, honly, hstarted, hbuffering, hepochs, fun h => absurd hs h, fun r h => (hbusy r h).elim⟩
  | buffering =>
    rw [Watcher.foldl_push_buffering hr hs]
    refine ⟨hb, honly, fun h => ?_, hbuffering, ?_, fun _ _ => ?_, fun r h => (hbusy r h).elim⟩
    · exact absurd (hs.symm.trans h) (by decide)
    · rw [← List.append_assoc]
      exact hmem _ hepochs
    · rw [← hidle (by rw [hs]; decide)]
      simp only [Watcher.waiting]
      rw [← List.append_assoc w.deliveryTail, Watcher.current_append]
  | started =>
    have hbuffer := hstarted hs
    rw [Watcher.foldl_push_started hr hs]
    refine ⟨hb, honly, hstarted, fun h => ?_, ?_, fun _ _ => ?_, fun r h => (hbusy r h).elim⟩
    · exact absurd (hs.symm.trans h) (by decide)
    · rw [hbuffer, List.append_nil] at hepochs ⊢
      exact hmem _ hepochs
    · rw [← hidle (by rw [hs]; decide)]
      simp only [Watcher.waiting, hbuffer, List.append_nil]
      rw [Watcher.current_append]

/-! ### Steps of the watcher itself -/

theorem start (h : WatchInv log tail i w) (hw : w.start = some w') : WatchInv log tail i w' := by
  unfold Watcher.start at hw
  split_ifs at hw with hs
  cases hw
  have hempty := h.buffering hs
  have hwaiting : ({ w with state := .started, buffer := [], deliveryTail := w.deliveryTail ++ w.buffer } :
      Watcher C T).waiting = w.waiting := by
    simp only [Watcher.waiting, List.append_nil]
  have hbuffering : w.state ≠ .unsubscribed := by rw [hs]; decide
  refine ⟨h.boundary_le, h.only, fun _ => rfl, fun h => absurd h (by simp), ?_, fun _ hr => ?_, fun r hr => ?_⟩
  · simpa only [List.append_nil] using h.epochs
  · rw [hwaiting]
    exact h.idle hbuffering hr
  · have hbusy := h.busy r hr
    refine ⟨?_, hbusy.mark_le, fun _ => hbusy.kept hbuffering, hbusy.none_held, hbusy.unmarked, ?_, ?_⟩
    · simpa only [List.append_nil] using hbusy.stale
    · intro m hm hphase
      obtain ⟨before, after, heq, hbefore, hafter, hpending⟩ := hbusy.dropping m hm hphase
      exact ⟨before, after, heq, hbefore, hafter, fun _ => hpending hbuffering⟩
    · intro m hm hphase
      exact ⟨(hbusy.holding m hm hphase).1, fun _ => (hbusy.holding m hm hphase).2 hbuffering⟩

theorem setSnapshot (h : WatchInv log tail i w) (snapshot : Option T) :
    WatchInv log tail i { w with snapshot } := by
  refine ⟨h.boundary_le, h.only, h.started, h.buffering, h.epochs, h.idle, fun r hr => ?_⟩
  obtain ⟨hstale, hmark, hkept, hnone, hunmarked, hdropping, hholding⟩ := h.busy r hr
  exact ⟨hstale, hmark, hkept, hnone, hunmarked, hdropping, hholding⟩

/-- A resnapshot begins. -/
theorem resnapshot (h : WatchInv log tail i w) (hbarrier : Item.barrier i ∉ tail) (hw : w.resnapshot = some w') :
    WatchInv log tail i w' := by
  unfold Watcher.resnapshot at hw
  split_ifs at hw with hguard
  cases hw
  push Not at hguard
  obtain ⟨hsub, -, hnone⟩ := hguard
  have hidle := h.idle hsub (by simpa using hnone)
  refine ⟨h.boundary_le, h.only, h.started, h.buffering, ?_, fun _ hr => absurd hr (by simp), fun r hr => ?_⟩
  · intro entry hentry
    exact (h.epochs entry hentry).trans (Nat.le_succ _)
  · cases hr
    refine ⟨?_, fun m hm => absurd hm (by simp), fun _ hkept => ?_, fun _ => rfl, fun _ => ⟨rfl, hbarrier⟩,
      fun m hm => absurd hm (by simp), fun m hm => absurd hm (by simp)⟩
    · intro entry hentry
      exact Nat.lt_succ_of_le (h.epochs entry hentry)
    · have hwaiting : w.waiting = [] := by simpa using hkept
      rw [hwaiting] at hidle
      exact hidle

theorem captured (h : WatchInv log tail i w) {snapshot : T} (hw : w.captured snapshot = some w') :
    WatchInv log tail i w' := by
  unfold Watcher.captured at hw
  split at hw
  · rename_i r hr
    split_ifs at hw with hguard
    cases hw
    obtain ⟨hstale, hmark, hkept, hnone, hunmarked, hdropping, hholding⟩ := h.busy r hr
    refine ⟨h.boundary_le, h.only, h.started, h.buffering, h.epochs, fun _ hr' => absurd hr' (by simp), ?_⟩
    intro r' hr'
    cases hr'
    exact ⟨hstale, hmark, hkept, hnone, hunmarked, hdropping, hholding⟩
  · cases hw

/-- A capture that failed before anything was thrown away. -/
theorem captureFailed (h : WatchInv log tail i w)
    (hkept : w.state ≠ .unsubscribed → ∀ r ∈ w.resnapshotState, r.discarded = false)
    (hw : w.captureFailed = some w') : WatchInv log tail i w' := by
  unfold Watcher.captureFailed at hw
  split at hw
  · rename_i r hr
    split_ifs at hw
    cases hw
    have hbusy := h.busy r hr
    refine foldl_push (w := { w with resnapshotState := none }) h.boundary_le h.only rfl h.started h.buffering h.epochs
      r.held fun hs => ?_
    have hwaiting : ({ w with resnapshotState := none } : Watcher C T).waiting = [] :=
      Watcher.waiting_eq_nil hbusy.stale
    rw [hwaiting, List.nil_append]
    exact hbusy.kept hs (hkept hs r hr)
  · cases hw

/-- The new snapshot: its events are those that were held, and those behind them. -/
theorem install (h : WatchInv log tail i w) (hw : w.install = some w') : WatchInv log tail i w' := by
  unfold Watcher.install at hw
  split at hw
  · rename_i held mark snapshot discarded hr
    cases hw
    have hbusy := h.busy _ hr
    refine foldl_push
      (w := { w with snapshot := some snapshot, boundary := mark, received := [], resnapshotState := none })
      (hbusy.mark_le mark rfl) List.nil_prefix rfl h.started h.buffering h.epochs held fun hs => ?_
    have hwaiting : ({ w with snapshot := some snapshot, boundary := mark, received := [], resnapshotState := none } :
        Watcher C T).waiting = [] := Watcher.waiting_eq_nil hbusy.stale
    rw [hwaiting, List.nil_append, List.nil_append]
    exact (hbusy.holding mark rfl rfl).2 hs
  · cases hw

theorem unsubscribe (h : WatchInv log tail i w) : WatchInv log tail i w.unsubscribe := by
  have hmem : ∀ entry ∈ w.deliveryTail ++ [], entry ∈ w.deliveryTail ++ w.buffer := by
    intro entry hentry
    rw [List.append_nil] at hentry
    exact List.mem_append_left _ hentry
  refine ⟨h.boundary_le, h.only, fun _ => rfl, fun hs => absurd hs (by simp [Watcher.unsubscribe]),
    fun entry hentry => h.epochs entry (hmem entry hentry), fun hs => absurd rfl hs, fun r hr => ?_⟩
  have hbusy := h.busy r hr
  refine ⟨fun entry hentry => hbusy.stale entry (hmem entry hentry), hbusy.mark_le, fun hs => absurd rfl hs,
    hbusy.none_held, hbusy.unmarked, fun m hm hphase => ?_, fun m hm hphase => ?_⟩
  · obtain ⟨before, after, heq, hbefore, hafter, -⟩ := hbusy.dropping m hm hphase
    exact ⟨before, after, heq, hbefore, hafter, fun hs => absurd rfl hs⟩
  · exact ⟨(hbusy.holding m hm hphase).1, fun hs => absurd rfl hs⟩

/-- The listener is called with the first event that waits. -/
theorem notify (h : WatchInv log tail i w) (hw : w.notify = some w') : WatchInv log tail i w' := by
  unfold Watcher.notify at hw
  split at hw
  · cases hw
  · rename_i e epoch rest htail
    have hmem : ∀ entry ∈ rest ++ w.buffer, entry ∈ w.deliveryTail ++ w.buffer := by
      intro entry hentry
      rw [htail]
      exact List.mem_cons_of_mem _ hentry
    have hnotBuffering : w.state ≠ .buffering := by
      intro hs
      rw [h.buffering hs] at htail
      cases htail
    split_ifs at hw with hcall
    · obtain ⟨hs, rfl⟩ := hcall
      have hr : w.resnapshotState = none := by
        by_contra hr
        obtain ⟨r, hr⟩ := Option.ne_none_iff_exists'.mp hr
        have := (h.busy r hr).stale (e, w.epoch) (by simp [htail])
        exact lt_irrefl _ this
      have hidle := h.idle (by rw [hs]; decide) hr
      have hwaiting : w.waiting = e :: ((rest ++ w.buffer).filter fun entry => entry.2 = w.epoch).map Prod.fst := by
        simp [Watcher.waiting, htail]
      rw [hwaiting] at hidle
      cases hw
      refine ⟨h.boundary_le, ?_, h.started, fun hs => absurd hs hnotBuffering,
        fun entry hentry => h.epochs entry (hmem entry hentry), fun _ _ => ?_, fun r hr' => ?_⟩
      · rw [← hidle]
        simp only [List.append_assoc]
        exact (List.prefix_append_right_inj _).mpr (List.singleton_prefix_cons_iff.mpr rfl)
      · rw [← hidle]
        simp [Watcher.waiting]
      · rw [hr] at hr'
        cases hr'
    · cases hw
      refine ⟨h.boundary_le, h.only, h.started, fun hs => absurd hs hnotBuffering,
        fun entry hentry => h.epochs entry (hmem entry hentry), fun hs hr => ?_, fun r hr => ?_⟩
      · -- A started watcher skips only entries of another epoch.
        have hstarted : w.state = .started := by
          cases hstate : w.state with
          | buffering => exact absurd hstate hnotBuffering
          | started => rfl
          | unsubscribed => exact absurd hstate hs
        have hepoch : epoch ≠ w.epoch := fun he => hcall ⟨hstarted, he⟩
        rw [← h.idle hs hr]
        simp [Watcher.waiting, htail, hepoch]
      · obtain ⟨hstale, hmark, hkept, hnone, hunmarked, hdropping, hholding⟩ := h.busy r hr
        exact ⟨fun entry hentry => hstale entry (hmem entry hentry), hmark, hkept, hnone, hunmarked, hdropping, hholding⟩

/-! ### Steps of the bus -/

/-- A call that does not concern the watcher is done. -/
theorem skip_head {x : Item C} (hp : pending i w.filter [x] = []) (hx : x ≠ .barrier i)
    (h : WatchInv log (x :: tail) i w) : WatchInv log tail i w := by
  have hpending : pending i w.filter (x :: tail) = pending i w.filter tail := by rw [pending_cons, hp, List.nil_append]
  refine ⟨h.boundary_le, h.only, h.started, h.buffering, h.epochs, fun hs hr => ?_, fun r hr => ?_⟩
  · rw [← hpending]
    exact h.idle hs hr
  · have hbusy := h.busy r hr
    refine ⟨hbusy.stale, hbusy.mark_le, fun hs hd => ?_, hbusy.none_held, fun hm => ?_, fun m hm hphase => ?_,
      fun m hm hphase => ?_⟩
    · rw [← hpending]
      exact hbusy.kept hs hd
    · exact ⟨(hbusy.unmarked hm).1, fun hmem => (hbusy.unmarked hm).2 (List.mem_cons_of_mem _ hmem)⟩
    · obtain ⟨before, after, heq, hbefore, hafter, hall⟩ := hbusy.dropping m hm hphase
      cases before with
      | nil => exact absurd (List.cons.inj heq).1 hx
      | cons y before =>
        exact ⟨before, after, (List.cons.inj heq).2, fun hmem => hbefore (List.mem_cons_of_mem _ hmem), hafter, hall⟩
    · obtain ⟨hnot, hall⟩ := hbusy.holding m hm hphase
      rw [hpending] at hall
      exact ⟨fun hmem => hnot (List.mem_cons_of_mem _ hmem), hall⟩

/-- Events are emitted, and calls are queued that push them to the watcher. -/
theorem append {es : List (Emission C)} {items : List (Item C)}
    (hitems : w.state ≠ .unsubscribed → pending i w.filter items = es.filter fun e => w.filter e.1)
    (hbarrier : Item.barrier i ∉ items) (h : WatchInv log tail i w) :
    WatchInv (log ++ es) (tail ++ items) i w := by
  have hlen : log.length ≤ (log ++ es).length := by simp
  refine ⟨h.boundary_le.trans hlen, ?_, h.started, h.buffering, h.epochs, fun hs hr => ?_, fun r hr => ?_⟩
  · rw [expected_append h.boundary_le]
    exact h.only.trans (List.prefix_append _ _)
  · rw [expected_append h.boundary_le, pending_append, hitems hs, ← h.idle hs hr, List.append_assoc _ _ (es.filter _)]
  · have hbusy := h.busy r hr
    refine ⟨hbusy.stale, fun m hm => (hbusy.mark_le m hm).trans hlen, fun hs hd => ?_, hbusy.none_held, fun hm => ?_,
      fun m hm hphase => ?_, fun m hm hphase => ?_⟩
    · rw [expected_append h.boundary_le, pending_append, hitems hs, ← hbusy.kept hs hd,
        List.append_assoc _ _ (es.filter _)]
    · exact ⟨(hbusy.unmarked hm).1, fun hmem => (List.mem_append.mp hmem).elim (hbusy.unmarked hm).2 hbarrier⟩
    · obtain ⟨before, after, heq, hbefore, hafter, hall⟩ := hbusy.dropping m hm hphase
      refine ⟨before, after ++ items, by rw [heq, List.append_assoc, List.cons_append], hbefore,
        fun hmem => (List.mem_append.mp hmem).elim hafter hbarrier, fun hs => ?_⟩
      rw [expected_append (hbusy.mark_le m hm), pending_append, hitems hs, hall hs]
    · obtain ⟨hnot, hall⟩ := hbusy.holding m hm hphase
      refine ⟨fun hmem => (List.mem_append.mp hmem).elim hnot hbarrier, fun hs => ?_⟩
      rw [expected_append (hbusy.mark_le m hm), pending_append, hitems hs, ← hall hs, List.append_assoc]

/-- An event is emitted and pushed before everything else, when nothing else is queued for the watcher. -/
theorem prepend {es : List (Emission C)} {items : List (Item C)}
    (hitems : w.state ≠ .unsubscribed → pending i w.filter items = es.filter fun e => w.filter e.1)
    (hbarrier : Item.barrier i ∉ items) (hpending : pending i w.filter tail = []) (htail : Item.barrier i ∉ tail)
    (h : WatchInv log tail i w) : WatchInv (log ++ es) (items ++ tail) i w := by
  have hswap : pending i w.filter (items ++ tail) = pending i w.filter (tail ++ items) := by
    rw [pending_append, pending_append, hpending, List.nil_append, List.append_nil]
  have hmem : Item.barrier i ∉ items ++ tail := fun hmem => (List.mem_append.mp hmem).elim hbarrier htail
  have happend := h.append hitems hbarrier
  refine ⟨happend.boundary_le, happend.only, h.started, h.buffering, h.epochs, fun hs hr => ?_, fun r hr => ?_⟩
  · rw [hswap]
    exact happend.idle hs hr
  · have hbusy := happend.busy r hr
    refine ⟨hbusy.stale, hbusy.mark_le, fun hs hd => ?_, hbusy.none_held, fun hm => ⟨(hbusy.unmarked hm).1, hmem⟩,
      fun m hm hphase => ?_, fun m hm hphase => ⟨hmem, fun hs => ?_⟩⟩
    · rw [hswap]
      exact hbusy.kept hs hd
    · obtain ⟨before, after, heq, -⟩ := (h.busy r hr).dropping m hm hphase
      exact absurd (by rw [heq]; simp) htail
    · rw [hswap]
      exact (hbusy.holding m hm hphase).2 hs

/-- An event that is not for the watcher is emitted and pushed before everything else. -/
theorem prepend_other {es : List (Emission C)} {items : List (Item C)}
    (hitems : w.state ≠ .unsubscribed → pending i w.filter items = [])
    (hes : w.state ≠ .unsubscribed → es.filter (fun e => w.filter e.1) = [])
    (hbarrier : Item.barrier i ∉ items) (h : WatchInv log tail i w) : WatchInv (log ++ es) (items ++ tail) i w := by
  have hlen : log.length ≤ (log ++ es).length := by simp
  have hexpected : w.state ≠ .unsubscribed → ∀ n ≤ log.length,
      expected w.filter (log ++ es) n = expected w.filter log n := by
    intro hs n hn
    rw [expected_append hn, hes hs, List.append_nil]
  have hpending : w.state ≠ .unsubscribed → pending i w.filter (items ++ tail) = pending i w.filter tail := by
    intro hs
    rw [pending_append, hitems hs, List.nil_append]
  have hmem : Item.barrier i ∉ tail → Item.barrier i ∉ items ++ tail :=
    fun htail hmem => (List.mem_append.mp hmem).elim hbarrier htail
  refine ⟨h.boundary_le.trans hlen, ?_, h.started, h.buffering, h.epochs, fun hs hr => ?_, fun r hr => ?_⟩
  · rw [expected_append h.boundary_le]
    exact h.only.trans (List.prefix_append _ _)
  · rw [hexpected hs _ h.boundary_le, hpending hs]
    exact h.idle hs hr
  · have hbusy := h.busy r hr
    refine ⟨hbusy.stale, fun m hm => (hbusy.mark_le m hm).trans hlen, fun hs hd => ?_, hbusy.none_held,
      fun hm => ⟨(hbusy.unmarked hm).1, hmem (hbusy.unmarked hm).2⟩, fun m hm hphase => ?_,
      fun m hm hphase => ⟨hmem (hbusy.holding m hm hphase).1, fun hs => ?_⟩⟩
    · rw [hexpected hs _ h.boundary_le, hpending hs]
      exact hbusy.kept hs hd
    · obtain ⟨before, after, heq, hbefore, hafter, hall⟩ := hbusy.dropping m hm hphase
      refine ⟨items ++ before, after, by rw [heq, List.append_assoc], fun hmem =>
        (List.mem_append.mp hmem).elim hbarrier hbefore, hafter, fun hs => ?_⟩
      rw [hexpected hs _ (hbusy.mark_le m hm)]
      exact hall hs
    · rw [hexpected hs _ (hbusy.mark_le m hm), hpending hs]
      exact (hbusy.holding m hm hphase).2 hs

/-- The capture marks its boundary: what is emitted from now on is behind the barrier. -/
theorem mark (h : WatchInv log tail i w) {r : ResnapshotState C T} (hr : w.resnapshotState = some r)
    (hm : r.mark = none) :
    WatchInv log (tail ++ [.barrier i]) i { w with resnapshotState := some { r with mark := some log.length } } := by
  have hbusy := h.busy r hr
  have hpending : pending i w.filter (tail ++ [.barrier i]) = pending i w.filter tail := by
    rw [pending_append]
    exact List.append_nil _
  refine ⟨h.boundary_le, h.only, h.started, h.buffering, h.epochs, fun _ hr' => absurd hr' (by simp), fun r' hr' => ?_⟩
  cases hr'
  obtain ⟨hphase, hbarrier⟩ := hbusy.unmarked hm
  refine ⟨hbusy.stale, fun m hm' => ?_, fun hs hd => ?_, hbusy.none_held, fun hm' => absurd hm' (by simp),
    fun m hm' _ => ?_, fun m _ hholding => ?_⟩
  · cases hm'
    exact le_rfl
  · simp only [hpending]
    exact hbusy.kept hs hd
  · cases hm'
    refine ⟨tail, [], rfl, hbarrier, List.not_mem_nil, fun _ => ?_⟩
    rw [expected_length]
    rfl
  · exact absurd (hphase.symm.trans hholding) (by decide)

/-- The bus pushes an event that the filter passes. -/
theorem push_head {e : Emission C} (hf : w.filter e.1 = true) (h : WatchInv log (.push i e :: tail) i w) :
    WatchInv log tail i (w.push e) := by
  have hpending : pending i w.filter (.push i e :: tail) = e :: pending i w.filter tail := by
    rw [pending_cons, pending_push, if_pos hf, List.singleton_append]
  have hmem : Item.barrier i ∉ .push i e :: tail → Item.barrier i ∉ tail := fun h hmem => h (List.mem_cons_of_mem _ hmem)
  cases hr : w.resnapshotState with
  | none =>
    refine foldl_push h.boundary_le h.only hr h.started h.buffering h.epochs [e] fun hs => ?_
    have hidle := h.idle hs hr
    rw [hpending] at hidle
    simpa using hidle
  | some r =>
    have hbusy := h.busy r hr
    have hdrop : ∀ m, r.mark = some m → r.phase = .dropping → ∃ before after, tail = before ++ Item.barrier i :: after ∧
        Item.barrier i ∉ before ∧ Item.barrier i ∉ after ∧
          (w.state ≠ .unsubscribed → pending i w.filter after = expected w.filter log m) := by
      intro m hm hphase
      obtain ⟨before, after, heq, hbefore, hafter, hall⟩ := hbusy.dropping m hm hphase
      cases before with
      | nil => cases (List.cons.inj heq).1
      | cons x before =>
        exact ⟨before, after, (List.cons.inj heq).2, fun hmem => hbefore (List.mem_cons_of_mem _ hmem), hafter, hall⟩
    by_cases hs : w.state = .unsubscribed
    · have hpush : w.push e = w := by simp only [Watcher.push, hs]
      rw [hpush]
      refine ⟨h.boundary_le, h.only, h.started, h.buffering, h.epochs, fun hs' => absurd hs hs', fun r' hr' => ?_⟩
      obtain rfl : r = r' := Option.some.inj (hr.symm.trans hr')
      refine ⟨hbusy.stale, hbusy.mark_le, fun hs' => absurd hs hs', hbusy.none_held, fun hm =>
        ⟨(hbusy.unmarked hm).1, hmem (hbusy.unmarked hm).2⟩, hdrop, fun m hm hphase =>
        ⟨hmem (hbusy.holding m hm hphase).1, fun hs' => absurd hs hs'⟩⟩
    · cases hphase : r.phase with
      | dropping =>
        have hpush : w.push e = { w with resnapshotState := some { r with discarded := true } } := by
          cases hstate : w.state with
          | unsubscribed => exact absurd hstate hs
          | buffering => simp only [Watcher.push, hstate, hr, hphase]
          | started => simp only [Watcher.push, hstate, hr, hphase]
        rw [hpush]
        refine ⟨h.boundary_le, h.only, h.started, h.buffering, h.epochs, fun _ hr' => absurd hr' (by simp), ?_⟩
        intro r' hr'
        cases hr'
        exact ⟨hbusy.stale, hbusy.mark_le, fun _ hd => absurd hd (by simp), hbusy.none_held, fun hm =>
          ⟨(hbusy.unmarked hm).1, hmem (hbusy.unmarked hm).2⟩, hdrop, fun m hm hphase' =>
          absurd (hphase.symm.trans hphase') (by decide)⟩
      | holding =>
        have hpush : w.push e = { w with resnapshotState := some { r with held := r.held ++ [e] } } := by
          cases hstate : w.state with
          | unsubscribed => exact absurd hstate hs
          | buffering => simp only [Watcher.push, hstate, hr, hphase]
          | started => simp only [Watcher.push, hstate, hr, hphase]
        rw [hpush]
        refine ⟨h.boundary_le, h.only, h.started, h.buffering, h.epochs, fun _ hr' => absurd hr' (by simp), ?_⟩
        intro r' hr'
        cases hr'
        refine ⟨hbusy.stale, hbusy.mark_le, fun _ hd => ?_, fun hphase' => absurd (hphase.symm.trans hphase') (by decide),
          fun hm => ⟨(hbusy.unmarked hm).1, hmem (hbusy.unmarked hm).2⟩, hdrop, fun m hm _ => ?_⟩
        · have hkept := hbusy.kept hs hd
          rw [hpending] at hkept
          simpa using hkept
        · obtain ⟨hnot, hall⟩ := hbusy.holding m hm hphase
          have hheld := hall hs
          rw [hpending] at hheld
          exact ⟨hmem hnot, fun _ => by simpa using hheld⟩

/-- The barrier of the watcher is reached. -/
theorem barrier_head (h : WatchInv log (.barrier i :: tail) i w) : WatchInv log tail i w.markResnapshotBoundary := by
  have hpending : pending i w.filter (.barrier i :: tail) = pending i w.filter tail := by
    rw [pending_cons]
    exact List.nil_append _
  unfold Watcher.markResnapshotBoundary
  cases hr : w.resnapshotState with
  | none =>
    refine ⟨h.boundary_le, h.only, h.started, h.buffering, h.epochs, fun hs hr => ?_, fun r hr' => ?_⟩
    · rw [← hpending]
      exact h.idle hs hr
    · rw [hr] at hr'
      cases hr'
  | some r =>
    have hbusy := h.busy r hr
    obtain ⟨m, hm⟩ : ∃ m, r.mark = some m := by
      rw [← Option.ne_none_iff_exists']
      exact fun hm => (hbusy.unmarked hm).2 List.mem_cons_self
    cases hphase : r.phase with
    | holding => exact absurd List.mem_cons_self (hbusy.holding m hm hphase).1
    | dropping =>
      simp only [hphase, if_true]
      obtain ⟨before, after, heq, hbefore, hafter, hall⟩ := hbusy.dropping m hm hphase
      obtain ⟨rfl, rfl⟩ : before = [] ∧ tail = after := by
        cases before with
        | nil => exact ⟨rfl, (List.cons.inj heq).2⟩
        | cons x before =>
          rw [(List.cons.inj heq).1] at hbefore
          exact absurd List.mem_cons_self hbefore
      refine ⟨h.boundary_le, h.only, h.started, h.buffering, h.epochs, fun _ hr' => absurd hr' (by simp), ?_⟩
      intro r' hr'
      cases hr'
      refine ⟨hbusy.stale, hbusy.mark_le, fun hs hd => ?_, fun hphase' => absurd hphase' (by simp), fun hm' => ?_,
        fun m' _ hphase' => absurd hphase' (by simp), fun m' hm' _ => ⟨hafter, fun hs => ?_⟩⟩
      · rw [← hpending]
        exact hbusy.kept hs hd
      · rw [hm] at hm'
        cases hm'
      · rw [hm] at hm'
        cases hm'
        rw [hbusy.none_held hphase, List.nil_append]
        exact hall hs

end WatchInv

end Phi.Harness

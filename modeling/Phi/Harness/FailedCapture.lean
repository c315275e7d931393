import Phi.Harness.WatchRuns

/-!
# Resnapshots whose capture fails

While a resnapshot goes on, the watcher throws away what is delivered in front of the boundary of the new snapshot, and
skips what waited in it when the resnapshot was asked for. A capture that fails pushes only what was held behind the
boundary.

`Owed` counts what a resnapshot has lost so far. A step adds to it exactly when it `Drops` an event, so the failure
leaves the watcher as it would have been exactly when no step of the attempt did.
-/

namespace Phi.Harness

variable {C T : Type}

/-- The step throws away an event that a watcher is to receive: the resnapshot is asked for while the event waits in the
watcher, or the event is delivered to it in front of the boundary. -/
def Drops (i : ℕ) (b : EventBus C T) : Action C T → Prop
  | .resnapshot j => j = i ∧ ∃ w ∈ b.watchers[i]?, w.waiting ≠ []
  | .deliver _ =>
    ∃ w ∈ b.watchers[i]?, w.state ≠ .unsubscribed ∧ (∃ r ∈ w.resnapshotState, r.phase = .dropping) ∧
      ∃ e rest, b.deliveryTail = .push i e :: rest ∧ w.filter e.1 = true
  | _ => False

/-- A resnapshot of a watcher whose capture fails, with what happens meanwhile. -/
structure FailedResnapshot (i : ℕ) (b : EventBus C T) (meanwhile : List (Action C T)) (b' : EventBus C T) : Prop where
  run : (Action.resnapshot i :: meanwhile ++ [Action.captureFailed i]).foldlM EventBus.step b = some b'
  sound : AllSteps EventBus.step (Sound i) b (.resnapshot i :: meanwhile)
  /-- The failure is that of this resnapshot. -/
  ongoing : ∀ a ∈ meanwhile, a ≠ .captureFailed i ∧ a ≠ .install i

/-! ## What a resnapshot has lost -/

/-- What a resnapshot has lost is what it will not have passed on, whatever happens. -/
structure Owed (log : List (Emission C)) (tail : List (Item C)) (i : ℕ) (w : Watcher C T) (r : ResnapshotState C T)
    (lost : ℕ) : Prop where
  resnapshotState : w.resnapshotState = some r
  gap : w.state ≠ .unsubscribed →
    (expected w.filter log w.boundary).length = (w.received ++ r.held ++ pending i w.filter tail).length + lost
  discarded : r.discarded = false ↔ lost = 0

/-- The parts of a watcher and its resnapshot that `Owed` reads are the same. -/
structure Alike (w w' : Watcher C T) (r r' : ResnapshotState C T) : Prop where
  resnapshotState : w'.resnapshotState = some r'
  filter : w'.filter = w.filter
  boundary : w'.boundary = w.boundary
  received : w'.received = w.received
  gone : w'.state = .unsubscribed ↔ w.state = .unsubscribed
  held : r'.held = r.held
  discarded : r'.discarded = r.discarded

namespace Owed

variable {log : List (Emission C)} {tail tail' : List (Item C)} {i : ℕ} {w w' : Watcher C T}
  {r r' : ResnapshotState C T} {lost : ℕ}

theorem alike (h : Owed log tail i w r lost) (hw : Alike w w' r r') : Owed log tail i w' r' lost := by
  refine ⟨hw.resnapshotState, fun hs => ?_, ?_⟩
  · rw [hw.filter, hw.boundary, hw.received, hw.held]
    exact h.gap fun hgone => hs (hw.gone.mpr hgone)
  · rw [hw.discarded]
    exact h.discarded

/-- An unsubscribed watcher is owed nothing. -/
theorem unsubscribe (h : Owed log tail i w r lost) : Owed log tail i w.unsubscribe r lost :=
  ⟨h.resnapshotState, fun hs => absurd rfl hs, h.discarded⟩

/-- Events are emitted, and the watcher has as many more on their way to it. -/
theorem emitted (hb : w.boundary ≤ log.length) {es : List (Emission C)}
    (htail : w.state ≠ .unsubscribed → (pending i w.filter tail').length
      = (pending i w.filter tail).length + (es.filter fun e => w.filter e.1).length)
    (h : Owed log tail i w r lost) : Owed (log ++ es) tail' i w r lost := by
  refine ⟨h.resnapshotState, fun hs => ?_, h.discarded⟩
  have hgap := h.gap hs
  have hlen := htail hs
  rw [expected_append hb, List.length_append, hgap]
  simp only [List.length_append] at hlen ⊢
  omega

/-- The calls change, and not those that push to the watcher. -/
theorem retail (htail : pending i w.filter tail' = pending i w.filter tail) (h : Owed log tail i w r lost) :
    Owed log tail' i w r lost := by
  refine ⟨h.resnapshotState, fun hs => ?_, h.discarded⟩
  rw [htail]
  exact h.gap hs

/-- The bus pushes an event to the watcher. -/
theorem push {e : Emission C} (hf : w.filter e.1 = true) (h : Owed log (.push i e :: tail) i w r lost) :
    ∃ r' lost', Owed log tail i (w.push e) r' lost' ∧
      (lost' = 0 ↔ lost = 0 ∧ ¬(w.state ≠ .unsubscribed ∧ r.phase = .dropping)) := by
  have hpending : pending i w.filter (.push i e :: tail) = e :: pending i w.filter tail := by
    rw [pending_cons, pending_push, if_pos hf, List.singleton_append]
  by_cases hs : w.state = .unsubscribed
  · have hpush : w.push e = w := by simp only [Watcher.push, hs]
    rw [hpush]
    exact ⟨r, lost, ⟨h.resnapshotState, fun hs' => absurd hs hs', h.discarded⟩, by simp [hs]⟩
  · have hgap := h.gap hs
    rw [hpending] at hgap
    cases hphase : r.phase with
    | dropping =>
      have hpush : w.push e = { w with resnapshotState := some { r with discarded := true } } := by
        cases hstate : w.state with
        | unsubscribed => exact absurd hstate hs
        | buffering => simp only [Watcher.push, hstate, h.resnapshotState, hphase]
        | started => simp only [Watcher.push, hstate, h.resnapshotState, hphase]
      rw [hpush]
      refine ⟨_, lost + 1, ⟨rfl, fun _ => ?_, by simp⟩, by simp [hs]⟩
      simp only [List.length_append, List.length_cons] at hgap ⊢
      omega
    | holding =>
      have hpush : w.push e = { w with resnapshotState := some { r with held := r.held ++ [e] } } := by
        cases hstate : w.state with
        | unsubscribed => exact absurd hstate hs
        | buffering => simp only [Watcher.push, hstate, h.resnapshotState, hphase]
        | started => simp only [Watcher.push, hstate, h.resnapshotState, hphase]
      rw [hpush]
      refine ⟨_, lost, ⟨rfl, fun _ => ?_, h.discarded⟩, by simp⟩
      simp only [List.length_append, List.length_cons, List.length_nil] at hgap ⊢
      omega

/-- What is owed when the resnapshot begins is what waits in the watcher. -/
theorem of_resnapshot (h : WatchInv log tail i w) (hw : w.resnapshot = some w') :
    ∃ r, Owed log tail i w' r w.waiting.length := by
  unfold Watcher.resnapshot at hw
  split_ifs at hw with hguard
  cases hw
  push Not at hguard
  obtain ⟨hsub, -, hnone⟩ := hguard
  refine ⟨_, rfl, fun _ => ?_, by simp⟩
  rw [← h.idle hsub (by simpa using hnone)]
  simp only [List.length_append, List.length_nil]
  omega

end Owed

/-! ## Steps of the watcher itself -/

namespace Alike

variable {w w' : Watcher C T} {r : ResnapshotState C T}

theorem start (hr : w.resnapshotState = some r) (hw : w.start = some w') : Alike w w' r r := by
  have hs := Watcher.subscribed_of_start hw
  unfold Watcher.start at hw
  split_ifs at hw
  cases hw
  exact ⟨hr, rfl, rfl, rfl, ⟨fun h => absurd h (by simp), fun h => absurd h hs⟩, rfl, rfl⟩

theorem captured (hr : w.resnapshotState = some r) {snapshot : T} (hw : w.captured snapshot = some w') :
    ∃ r', Alike w w' r r' := by
  unfold Watcher.captured at hw
  rw [hr] at hw
  dsimp only at hw
  split_ifs at hw
  cases hw
  exact ⟨_, rfl, rfl, rfl, rfl, Iff.rfl, rfl, rfl⟩

theorem markResnapshotBoundary (hr : w.resnapshotState = some r) : ∃ r', Alike w w.markResnapshotBoundary r r' := by
  unfold Watcher.markResnapshotBoundary
  rw [hr]
  dsimp only
  split_ifs
  · exact ⟨_, rfl, rfl, rfl, rfl, Iff.rfl, rfl, rfl⟩
  · exact ⟨r, hr, rfl, rfl, rfl, Iff.rfl, rfl, rfl⟩

/-- During a resnapshot, everything that waits in the watcher is of an earlier epoch, and is skipped. -/
theorem notify {log : List (Emission C)} {tail : List (Item C)} {i : ℕ} (h : WatchInv log tail i w)
    (hr : w.resnapshotState = some r) (hw : w.notify = some w') : Alike w w' r r := by
  unfold Watcher.notify at hw
  split at hw
  · cases hw
  · rename_i e epoch rest htail
    have hstale : epoch < w.epoch := (h.busy r hr).stale (e, epoch) (by simp [htail])
    rw [if_neg fun hcall => hstale.ne hcall.2] at hw
    cases hw
    exact ⟨hr, rfl, rfl, rfl, Iff.rfl, rfl, rfl⟩

end Alike

/-! ## Steps of the bus -/

/-- A watcher is in a resnapshot that has lost some events; `gone` says whether it has unsubscribed. -/
def Attempting (i : ℕ) (b : EventBus C T) (lost : ℕ) (gone : Prop) : Prop :=
  ∃ w r, b.watchers[i]? = some w ∧ Owed b.log b.deliveryTail i w r lost ∧ (w.state = .unsubscribed ↔ gone)

namespace Attempting

variable {b b' : EventBus C T} {i : ℕ} {lost : ℕ} {gone : Prop}

/-- A step of one watcher. -/
theorem update (h : Attempting i b lost gone) {j : ℕ} {f : Watcher C T → Option (Watcher C T)}
    (hb : b.update j f = some b')
    (hf : ∀ w w' r, j = i → b.watchers[i]? = some w → f w = some w' → w.resnapshotState = some r →
      ∃ r', Alike w w' r r') : Attempting i b' lost gone := by
  obtain ⟨w, r, hw, howed, hgone⟩ := h
  obtain ⟨v, v', hv, hfv, rfl⟩ := EventBus.update_eq_some hb
  rcases eq_or_ne j i with rfl | hji
  · obtain rfl : w = v := Option.some.inj (hw.symm.trans hv)
    obtain ⟨r', halike⟩ := hf w v' r rfl hw hfv howed.resnapshotState
    exact ⟨v', r', List.getElem?_set_self (List.getElem?_eq_some_iff.mp hw).1, howed.alike halike,
      halike.gone.trans hgone⟩
  · exact ⟨w, r, (List.getElem?_set_ne hji).trans hw, howed, hgone⟩

/-- The calls change, and not those that push to the watcher. -/
theorem retail (h : Attempting i b lost gone) {tail : List (Item C)}
    (htail : ∀ f, pending i f tail = pending i f b.deliveryTail) :
    Attempting i { b with deliveryTail := tail } lost gone := by
  obtain ⟨w, r, hw, howed, hgone⟩ := h
  exact ⟨w, r, hw, howed.retail (htail _), hgone⟩

/-- A call that pushes nothing to the watcher is queued, or done. -/
theorem concat (h : Attempting i b lost gone) {x : Item C} (hx : ∀ f, pending i f [x] = []) :
    Attempting i { b with deliveryTail := b.deliveryTail ++ [x] } lost gone :=
  h.retail fun f => by rw [pending_append, hx f, List.append_nil]

theorem pop (h : Attempting i b lost gone) {x : Item C} {rest : List (Item C)} (hx : b.deliveryTail = x :: rest)
    (hp : ∀ f, pending i f [x] = []) : Attempting i { b with deliveryTail := rest } lost gone :=
  h.retail fun f => by rw [hx, pending_cons, hp f, List.nil_append]

theorem emitBatch (hbus : BusInv b) (hinv : WatcherInv i b) (h : Attempting i b lost gone)
    (events : List HarnessEvent) (context : C) : Attempting i (b.emitBatch events context) lost gone := by
  unfold EventBus.emitBatch
  split_ifs with hc
  · exact h
  · obtain ⟨w, r, hw, howed, hgone⟩ := h
    obtain ⟨hwatch, hsub⟩ := hinv w hw
    refine ⟨w, r, hw, howed.emitted hwatch.boundary_le fun hs => ?_, hgone⟩
    have hmem : i ∈ b.watchListeners := (hsub hs).resolve_right fun hclosed => hc hclosed.1
    rw [pending_append, pending_flatMap_bind b hbus.nodup hmem, List.length_append]

theorem markBoundary (h : Attempting i b lost gone) {j : ℕ} (hb : b.markBoundary j = some b') :
    Attempting i b' lost gone := by
  obtain ⟨v, hv, hb⟩ := Option.bind_eq_some_iff.mp hb
  obtain ⟨s, hs, hb⟩ := Option.bind_eq_some_iff.mp hb
  split_ifs at hb
  cases hb
  have hconcat : Attempting i { b with deliveryTail := b.deliveryTail ++ [.barrier j] } lost gone :=
    h.concat fun _ => rfl
  refine hconcat.update (j := j) (f := fun v =>
    some { v with resnapshotState := some { s with mark := some b.log.length } }) ?_ ?_
  · simp only [EventBus.update, hv, Option.bind_eq_bind, Option.bind_some]
  · rintro w w' r rfl hw hf hr
    obtain rfl : w = v := Option.some.inj (hw.symm.trans hv)
    obtain rfl : r = s := Option.some.inj (hr.symm.trans hs)
    cases hf
    exact ⟨_, rfl, rfl, rfl, rfl, Iff.rfl, rfl, rfl⟩

theorem unsubscribe (h : Attempting i b lost gone) {j : ℕ}
    (hb : ({ b with watchListeners := b.watchListeners.filter fun w => w ≠ j } : EventBus C T).update j
      (fun w => some w.unsubscribe) = some b') : Attempting i b' lost (gone ∨ j = i) := by
  obtain ⟨w, r, hw, howed, hgone⟩ := h
  obtain ⟨v, v', hv, hf, rfl⟩ := EventBus.update_eq_some hb
  cases hf
  rcases eq_or_ne j i with rfl | hji
  · obtain rfl : w = v := Option.some.inj (hw.symm.trans hv)
    exact ⟨_, r, List.getElem?_set_self (List.getElem?_eq_some_iff.mp hw).1, howed.unsubscribe, by simp [Watcher.unsubscribe]⟩
  · exact ⟨w, r, (List.getElem?_set_ne hji).trans hw, howed, by simpa [hji] using hgone⟩

/-- The report of a listener's failure is one more event, wherever it is queued. -/
theorem report (hbus : BusInv b) (hinv : WatcherInv i b) (h : Attempting i b lost gone) {l : ℕ} {e : Emission C}
    {reportErrors : Bool} {rest : List (Item C)} (hx : b.deliveryTail = .call l e reportErrors :: rest)
    (failed : Emission C) :
    Attempting i { b with deliveryTail := b.bind failed false ++ rest, log := b.log ++ [failed] } lost gone := by
  obtain ⟨w, r, hw, howed, hgone⟩ := h
  obtain ⟨hwatch, hsub⟩ := hinv w hw
  refine ⟨w, r, hw, howed.emitted hwatch.boundary_le fun hs => ?_, hgone⟩
  have hmem := hsub.mem_of_call hx hs
  rw [hx, pending_append, pending_bind b hbus.nodup hmem, pending_cons (.call l e reportErrors), List.length_append,
    List.length_append, List.filter_singleton]
  by_cases hf : w.filter failed.1 = true <;> simp [hf, pending, Nat.add_comm]

/-- One call of the delivery tail. -/
theorem deliver (hbus : BusInv b) (hinv : WatcherInv i b) (h : Attempting i b lost gone)
    {failure : Option HandlerFailure} (hb : b.deliver failure = some b') :
    ∃ lost', Attempting i b' lost' gone ∧ (lost' = 0 ↔ lost = 0 ∧ ¬Drops i b (.deliver failure)) := by
  have hkeep : (∀ e rest, b.deliveryTail ≠ .push i e :: rest) → Attempting i b' lost gone →
      ∃ lost', Attempting i b' lost' gone ∧ (lost' = 0 ↔ lost = 0 ∧ ¬Drops i b (.deliver failure)) := by
    intro hne h'
    refine ⟨lost, h', ⟨fun h0 => ⟨h0, ?_⟩, And.left⟩⟩
    rintro ⟨w, -, -, -, e, rest, htail, -⟩
    exact hne e rest htail
  unfold EventBus.deliver at hb
  split at hb
  · cases hb
  · rename_i l e reportErrors rest htail
    refine hkeep (by simp [htail]) ?_
    split at hb
    · split_ifs at hb
      · cases hb
        exact h.pop htail fun _ => rfl
      · cases hb
        exact h.report hbus hinv htail _
    · cases hb
      exact h.pop htail fun _ => rfl
  · rename_i j e rest htail
    rcases eq_or_ne j i with rfl | hji
    · obtain ⟨v, v', hv, hf, rfl⟩ := EventBus.update_eq_some hb
      cases hf
      obtain ⟨w, r, hw, howed, hgone⟩ := h
      obtain rfl : w = v := Option.some.inj (hw.symm.trans hv)
      have hset := List.getElem?_set_self (a := if w.filter e.1 then w.push e else w)
        (List.getElem?_eq_some_iff.mp hw).1
      rw [htail] at howed
      by_cases hpass : w.filter e.1 = true
      · obtain ⟨r', lost', howed', hlost⟩ := howed.push hpass
        rw [if_pos hpass] at hset ⊢
        refine ⟨lost', ⟨_, r', hset, howed', ?_⟩, hlost.trans (and_congr_right fun _ => not_congr ?_)⟩
        · rw [Watcher.state_push]
          exact hgone
        · have hr := howed.resnapshotState
          simp [Drops, hw, htail, hpass, hr]
      · rw [if_neg hpass] at hset ⊢
        refine ⟨lost, ⟨w, r, hset, ?_, hgone⟩, ?_⟩
        · refine howed.retail ?_
          rw [pending_cons (.push j e), pending_push, if_neg hpass, List.nil_append]
        · simp [Drops, hw, htail, hpass]
    · refine hkeep (by simp [htail, hji]) ?_
      exact (h.pop htail fun f => pending_push_ne hji e).update hb fun _ _ _ hj => absurd hj hji
  · rename_i j rest htail
    refine hkeep (by simp [htail]) ?_
    refine (h.pop htail fun _ => rfl).update hb ?_
    rintro w w' r - - hf hr
    cases hf
    exact Alike.markResnapshotBoundary hr
  · rename_i rest htail
    refine hkeep (by simp [htail]) ?_
    cases hb
    exact h.pop htail fun _ => rfl

/-- A step that does not end the resnapshot. -/
theorem step (hbus : BusInv b) (hinv : WatcherInv i b) (h : Attempting i b lost gone) {a : Action C T}
    (hongoing : a ≠ .captureFailed i ∧ a ≠ .install i) (hb : b.step a = some b') :
    ∃ lost', Attempting i b' lost' (gone ∨ a = .unsubscribe i) ∧ (lost' = 0 ↔ lost = 0 ∧ ¬Drops i b a) := by
  have hkeep : Attempting i b' lost gone → ¬Drops i b a → a ≠ .unsubscribe i →
      ∃ lost', Attempting i b' lost' (gone ∨ a = .unsubscribe i) ∧ (lost' = 0 ↔ lost = 0 ∧ ¬Drops i b a) := by
    intro h' hdrops ha
    refine ⟨lost, ?_, by simp [hdrops]⟩
    simpa [ha] using h'
  cases a with
  | on type listener =>
    simp only [EventBus.step] at hb
    split_ifs at hb
    cases hb
    exact hkeep h id (by simp)
  | off listener =>
    cases hb
    exact hkeep h id (by simp)
  | emitBatch events context =>
    cases hb
    exact hkeep (h.emitBatch hbus hinv events context) id (by simp)
  | watch filter snapshot resnapshots =>
    simp only [EventBus.step, EventBus.watch] at hb
    split_ifs at hb
    cases hb
    obtain ⟨w, r, hw, howed, hgone⟩ := h
    have hlt := (List.getElem?_eq_some_iff.mp hw).1
    exact hkeep ⟨w, r, (List.getElem?_append_left hlt).trans hw, howed, hgone⟩ id (by simp)
  | setSnapshot j snapshot =>
    refine hkeep (h.update hb ?_) id (by simp)
    rintro w w' r - - hf hr
    cases hf
    exact ⟨r, hr, rfl, rfl, rfl, Iff.rfl, rfl, rfl⟩
  | start j => exact hkeep (h.update hb fun w w' r _ _ hf hr => ⟨r, Alike.start hr hf⟩) id (by simp)
  | resnapshot j =>
    -- A resnapshot is refused while one is going on.
    have hne : j ≠ i := by
      rintro rfl
      obtain ⟨w, r, hw, howed, -⟩ := h
      obtain ⟨v, v', hv, hf, -⟩ := EventBus.update_eq_some hb
      obtain rfl : w = v := Option.some.inj (hw.symm.trans hv)
      simp [Watcher.resnapshot, howed.resnapshotState] at hf
    refine hkeep (h.update hb fun _ _ _ hj => absurd hj hne) (fun hdrops => hne hdrops.1) (by simp)
  | markBoundary j => exact hkeep (h.markBoundary hb) id (by simp)
  | captured j snapshot => exact hkeep (h.update hb fun w w' r _ _ hf hr => Alike.captured hr hf) id (by simp)
  | captureFailed j =>
    have hne : j ≠ i := fun hj => hongoing.1 (by rw [hj])
    exact hkeep (h.update hb fun _ _ _ hj => absurd hj hne) id (by simp)
  | install j =>
    have hne : j ≠ i := fun hj => hongoing.2 (by rw [hj])
    exact hkeep (h.update hb fun _ _ _ hj => absurd hj hne) id (by simp)
  | unsubscribe j =>
    refine ⟨lost, ?_, by simp [Drops]⟩
    simpa using h.unsubscribe hb
  | notify j =>
    refine hkeep (h.update hb ?_) id (by simp)
    rintro w w' r - hw hf hr
    exact ⟨r, Alike.notify (hinv w hw).1 hr hf⟩
  | deliver failure =>
    obtain ⟨lost', h', hlost⟩ := h.deliver hbus hinv hb
    exact ⟨lost', by simpa using h', hlost⟩
  | close =>
    cases hb
    exact hkeep (h.concat fun _ => rfl) id (by simp)

/-- What has been lost behind some steps that do not end the resnapshot. -/
theorem run (hbus : BusInv b) (hinv : WatcherInv i b) (h : Attempting i b lost gone) {as : List (Action C T)}
    (hsound : AllSteps EventBus.step (Sound i) b as) (hongoing : ∀ a ∈ as, a ≠ .captureFailed i ∧ a ≠ .install i)
    (hb : as.foldlM EventBus.step b = some b') :
    ∃ lost', Attempting i b' lost' (gone ∨ .unsubscribe i ∈ as) ∧
      (lost' = 0 ↔ lost = 0 ∧ AllSteps EventBus.step (fun b a => ¬Drops i b a) b as) := by
  induction as generalizing b lost gone with
  | nil =>
    cases hb
    exact ⟨lost, by simpa using h, by simp [AllSteps]⟩
  | cons a as ih =>
    obtain ⟨s, hs, hrest⟩ := Option.bind_eq_some_iff.mp hb
    rw [allSteps_cons hs] at hsound
    rw [List.forall_mem_cons] at hongoing
    obtain ⟨lost₁, h₁, hlost₁⟩ := h.step hbus hinv hongoing.1 hs
    obtain ⟨lost', h', hlost'⟩ := ih (hbus.step hs) (hinv.step hbus hsound.1 hs) h₁ hsound.2 hongoing.2 hrest
    refine ⟨lost', ?_, ?_⟩
    · rw [List.mem_cons, ← or_assoc, @eq_comm _ (.unsubscribe i) a]
      exact h'
    · rw [hlost', hlost₁, allSteps_cons hs, and_assoc]

end Attempting

/-! ## The failure -/

namespace Watcher

variable {w : Watcher C T}

/-- Pushed events are not received yet, and change nothing that says what is to be received. -/
theorem foldl_push_fields (hr : w.resnapshotState = none) (es : List (Emission C)) :
    (es.foldl push w).received = w.received ∧ (es.foldl push w).filter = w.filter ∧
      (es.foldl push w).boundary = w.boundary ∧ (es.foldl push w).resnapshotState = none := by
  cases hs : w.state with
  | unsubscribed =>
    rw [foldl_push_unsubscribed hs]
    exact ⟨rfl, rfl, rfl, hr⟩
  | buffering =>
    rw [foldl_push_buffering hr hs]
    exact ⟨rfl, rfl, rfl, hr⟩
  | started =>
    rw [foldl_push_started hr hs]
    exact ⟨rfl, rfl, rfl, hr⟩

/-- They wait behind what waits already. -/
theorem waiting_foldl_push (hr : w.resnapshotState = none) (hs : w.state ≠ .unsubscribed)
    (hbuffer : w.state = .started → w.buffer = []) (es : List (Emission C)) :
    (es.foldl push w).waiting = w.waiting ++ es := by
  cases hstate : w.state with
  | unsubscribed => exact absurd hstate hs
  | buffering =>
    rw [foldl_push_buffering hr hstate]
    simp only [waiting]
    rw [← List.append_assoc, current_append]
  | started =>
    rw [foldl_push_started hr hstate]
    simp only [waiting, hbuffer hstate, List.append_nil]
    rw [current_append]

end Watcher

variable {i : ℕ} {b b' : EventBus C T} {lost : ℕ} {gone : Prop}

/-- A failure that lost nothing is a sound step. -/
theorem WatcherInv.failed (hinv : WatcherInv i b) (h : Attempting i b lost gone) (hlost : gone ∨ lost = 0)
    (hb : b.step (.captureFailed i) = some b') : WatcherInv i b' := by
  obtain ⟨w, r, hw, howed, hgone⟩ := h
  refine hinv.update hb fun v v' _ hv hf hwatch => ?_
  obtain rfl : w = v := Option.some.inj (hw.symm.trans hv)
  refine ⟨hwatch.captureFailed (fun hs r' hr' => ?_) hf, fun hs => Watcher.state_of_captureFailed hf ▸ hs⟩
  obtain rfl : r = r' := Option.some.inj (howed.resnapshotState.symm.trans hr')
  exact howed.discarded.mpr (hlost.resolve_left fun hg => hs (hgone.mpr hg))

/-- What the failure has lost is missing behind it. -/
theorem Attempting.eq_zero (hinv : WatcherInv i b) (h : Attempting i b lost gone) (hgone : ¬gone)
    (hb : b.step (.captureFailed i) = some b') (hexact : ∀ w, b'.watchers[i]? = some w → Exact b' i w) : lost = 0 := by
  obtain ⟨w, r, hw, howed, hstate⟩ := h
  have hs : w.state ≠ .unsubscribed := fun hs => hgone (hstate.mp hs)
  obtain ⟨v, w', hv, hf, rfl⟩ := EventBus.update_eq_some hb
  obtain rfl : w = v := Option.some.inj (hw.symm.trans hv)
  obtain rfl : w' = w.release r.held := by
    simp only [Watcher.captureFailed, howed.resnapshotState] at hf
    split_ifs at hf
    exact (Option.some.inj hf).symm
  obtain ⟨hwatch, -⟩ := hinv w hw
  have hstale : ({ w with resnapshotState := none } : Watcher C T).waiting = [] :=
    Watcher.waiting_eq_nil (hwatch.busy r howed.resnapshotState).stale
  have hwaiting : (w.release r.held).waiting = r.held := by
    refine (Watcher.waiting_foldl_push (w := { w with resnapshotState := none }) rfl hs hwatch.started r.held).trans ?_
    rw [hstale, List.nil_append]
  obtain ⟨hreceived, hfilter, hboundary, hnone⟩ :=
    Watcher.foldl_push_fields (w := { w with resnapshotState := none }) rfl r.held
  have hsame : (w.release r.held).state = w.state := Watcher.state_foldl_push _ _
  have hall : (w.release r.held).received ++ (w.release r.held).waiting
      ++ pending i (w.release r.held).filter b.deliveryTail
      = expected (w.release r.held).filter b.log (w.release r.held).boundary :=
    (hexact _ (List.getElem?_set_self (List.getElem?_eq_some_iff.mp hw).1)).all (by rwa [hsame]) hnone
  rw [hwaiting] at hall
  simp only [Watcher.release, hreceived, hfilter, hboundary] at hall
  have hgap := howed.gap hs
  rw [← hall] at hgap
  omega

/-- Behind a resnapshot whose capture failed, a watcher receives every event once and in order, whatever happens next,
exactly when no step of the attempt threw one of its events away. -/
theorem failed_resnapshot_exact_iff {meanwhile : List (Action C T)} (hb : Reaches EventBus.step (Sound i) {} b)
    (h : FailedResnapshot i b meanwhile b') :
    (∀ c, Reaches EventBus.step (Sound i) b' c → ∀ w, c.watchers[i]? = some w → Exact c i w) ↔
      .unsubscribe i ∈ meanwhile ∨
        AllSteps EventBus.step (fun b a => ¬Drops i b a) b (.resnapshot i :: meanwhile) := by
  obtain ⟨hbus, hinv⟩ := inv_of_reaches busInv_init (watcherInv_init i) hb
  obtain ⟨b₁, hattempt, hfailed⟩ := Option.bind_eq_some_iff.mp ((List.foldlM_append ..).symm.trans h.run)
  obtain ⟨b₀, hstart, hmeanwhile⟩ := Option.bind_eq_some_iff.mp hattempt
  obtain ⟨c, hfailed, hc⟩ := Option.bind_eq_some_iff.mp hfailed
  cases hc
  have hsound := h.sound
  rw [allSteps_cons hstart] at hsound
  -- The resnapshot loses what waits in the watcher.
  obtain ⟨waiting, hbegun, hwaiting⟩ :
      ∃ lost, Attempting i b₀ lost False ∧ (lost = 0 ↔ ¬Drops i b (.resnapshot i)) := by
    obtain ⟨w, w', hw, hf, rfl⟩ := EventBus.update_eq_some hstart
    obtain ⟨r, howed⟩ := Owed.of_resnapshot (hinv w hw).1 hf
    refine ⟨_, ⟨w', r, List.getElem?_set_self (List.getElem?_eq_some_iff.mp hw).1, howed, ?_⟩, ?_⟩
    · refine iff_of_false ?_ id
      unfold Watcher.resnapshot at hf
      split_ifs at hf with hguard
      cases hf
      exact fun hs => hguard (.inl hs)
    · simp [Drops, hw]
  have hbus₀ := hbus.step hstart
  have hinv₀ := hinv.step hbus hsound.1 hstart
  obtain ⟨lost, hended, hlost⟩ := hbegun.run hbus₀ hinv₀ hsound.2 h.ongoing hmeanwhile
  obtain ⟨hbus₁, hinv₁⟩ := inv_of_reaches hbus₀ hinv₀ (Reaches.init.foldlM hsound.2 hmeanwhile)
  rw [hwaiting, ← @allSteps_cons _ _ _ (fun b a => ¬Drops i b a) _ _ _ _ hstart] at hlost
  constructor
  · intro hexact
    by_cases hgone : .unsubscribe i ∈ meanwhile
    · exact .inl hgone
    · exact .inr (hlost.mp (hended.eq_zero hinv₁ (by simpa using hgone) hfailed (hexact b' .init)))
  · intro hcond c hreach w hw
    have hinv' := hinv₁.failed hended (hcond.imp .inr hlost.mpr) hfailed
    exact ((inv_of_reaches (hbus₁.step hfailed) hinv' hreach).2 w hw).1.exact

/-- A lane's watch that is started. -/
def startedWatch : List (Action Unit Unit) := [.watch (laneFilter []) (some ()) true, .start 0]

/-- An event that is emitted while the capture runs, and delivered when it has failed, is received. -/
theorem failed_resnapshot_exact_iff_emitted : ∃ b b' : EventBus Unit Unit,
    FailedResnapshot 0 b [.emitBatch [letterEvent 97] ()] b' ∧
      ∀ c, Reaches EventBus.step (Sound 0) b' c → ∀ w, c.watchers[0]? = some w → Exact c 0 w := by
  obtain ⟨b, hb⟩ : ∃ b, startedWatch.foldlM EventBus.step {} = some b := ⟨_, rfl⟩
  obtain ⟨b', hb'⟩ : ∃ b', (Action.resnapshot 0 :: [.emitBatch [letterEvent 97] ()] ++ [Action.captureFailed 0]).foldlM
      EventBus.step b = some b' := by
    cases hb
    exact ⟨_, rfl⟩
  have hstart : AllSteps EventBus.step (Sound 0) {} startedWatch := ⟨trivial, fun _ _ => ⟨trivial, fun _ _ => trivial⟩⟩
  have hreaches : Reaches EventBus.step (Sound 0) {} b := Reaches.init.foldlM hstart hb
  have hfailed : FailedResnapshot 0 b [.emitBatch [letterEvent 97] ()] b' := by
    refine ⟨hb', ⟨fun _ => ?_, fun _ _ => ⟨trivial, fun _ _ => trivial⟩⟩, by simp⟩
    cases hb
    exact List.not_mem_nil
  refine ⟨b, b', hfailed, (failed_resnapshot_exact_iff hreaches hfailed).mpr (.inr ⟨fun hdrops => ?_, ?_⟩)⟩
  · obtain ⟨-, w, hw, hwaiting⟩ := hdrops
    cases hb
    cases hw
    exact hwaiting rfl
  · exact fun _ _ => ⟨id, fun _ _ => trivial⟩

/-- An event that is delivered while the capture runs is missing in front of the next one. -/
theorem failed_resnapshot_loses_event : ∃ (b b' c : EventBus Unit Unit) (w : Watcher Unit Unit),
    Reaches EventBus.step (Sound 0) {} b ∧ FailedResnapshot 0 b [.deliver none] b' ∧
      Reaches EventBus.step (Sound 0) b' c ∧ c.watchers[0]? = some w ∧
      expected w.filter c.log w.boundary = [(letterEvent 97, ()), (letterEvent 98, ())] ∧
      w.received = [(letterEvent 98, ())] := by
  obtain ⟨b, hb⟩ : ∃ b, (startedWatch ++ [Action.emitBatch [letterEvent 97] ()]).foldlM EventBus.step {} = some b := ⟨_, rfl⟩
  obtain ⟨b', hb'⟩ : ∃ b', (Action.resnapshot 0 :: [.deliver none] ++ [Action.captureFailed 0]).foldlM
      EventBus.step b = some b' := by
    cases hb
    exact ⟨_, rfl⟩
  obtain ⟨c, hc⟩ : ∃ c, [Action.emitBatch [letterEvent 98] (), .deliver none, .notify 0].foldlM
      EventBus.step b' = some c := by
    cases hb
    cases hb'
    exact ⟨_, rfl⟩
  have hstart : AllSteps EventBus.step (Sound 0) {} (startedWatch ++ [.emitBatch [letterEvent 97] ()]) :=
    ⟨trivial, fun _ _ => ⟨trivial, fun _ _ => ⟨trivial, fun _ _ => trivial⟩⟩⟩
  have hreaches : Reaches EventBus.step (Sound 0) {} b := Reaches.init.foldlM hstart hb
  have hfailed : FailedResnapshot 0 b [.deliver none] b' := by
    refine ⟨hb', ⟨fun _ => ?_, fun _ _ => ⟨trivial, fun _ _ => trivial⟩⟩, by simp⟩
    cases hb
    simp [letterEvent, HarnessEvent.type, EventBus.emitBatch, EventBus.bind]
  have hrest : AllSteps EventBus.step (Sound 0) b' [.emitBatch [letterEvent 98] (), .deliver none, .notify 0] :=
    ⟨trivial, fun _ _ => ⟨trivial, fun _ _ => ⟨trivial, fun _ _ => trivial⟩⟩⟩
  have hnext : Reaches EventBus.step (Sound 0) b' c := Reaches.init.foldlM hrest hc
  cases hb
  cases hb'
  cases hc
  exact ⟨_, _, _, _, hreaches, hfailed, hnext, rfl, rfl, rfl⟩

end Phi.Harness

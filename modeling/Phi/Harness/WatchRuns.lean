import Phi.Data.Runs
import Phi.Harness.Watch

/-!
# Runs of the event bus

What holds of the bus whoever watches (`BusInv`), then of one watcher along a run (`WatchInv` and `Subscribed`). The
result is `watch_exact`: in every run whose steps are `Sound` for a watcher, that watcher is `Exact` in every state.
-/

namespace Phi.Harness

variable {C T : Type}

/-! ## The bus -/

/-- Only barriers, and the clearing of the listeners. -/
def Quiet (items : List (Item C)) : Prop :=
  ∀ item ∈ items, (∃ i, item = .barrier i) ∨ item = .clear

/-- Nothing is delivered behind the clearing of the listeners. -/
def Settled : List (Item C) → Prop
  | [] => True
  | .clear :: rest => Quiet rest
  | _ :: rest => Settled rest

theorem settled_of_not_mem {items : List (Item C)} (h : Item.clear ∉ items) : Settled items := by
  induction items with
  | nil => trivial
  | cons x rest ih =>
    have hrest := ih fun hmem => h (List.mem_cons_of_mem _ hmem)
    cases x with
    | clear => exact absurd List.mem_cons_self h
    | call listener e reportErrors => exact hrest
    | push i e => exact hrest
    | barrier i => exact hrest

theorem Quiet.concat {items : List (Item C)} (h : Quiet items) {x : Item C} (hx : Quiet [x]) : Quiet (items ++ [x]) := by
  intro item hitem
  rcases List.mem_append.mp hitem with hitem | hitem
  · exact h item hitem
  · exact hx item hitem

theorem Settled.concat {items : List (Item C)} (h : Settled items) {x : Item C} (hx : Quiet [x]) :
    Settled (items ++ [x]) := by
  induction items with
  | nil =>
    rcases hx x List.mem_cons_self with ⟨i, rfl⟩ | rfl
    · trivial
    · exact fun item hitem => absurd hitem List.not_mem_nil
  | cons y rest ih =>
    cases y with
    | clear => exact Quiet.concat h hx
    | call listener e reportErrors => exact ih h
    | push i e => exact ih h
    | barrier i => exact ih h

theorem Settled.prepend {items rest : List (Item C)} (hitems : Item.clear ∉ items) (h : Settled rest) :
    Settled (items ++ rest) := by
  induction items with
  | nil => exact h
  | cons x items ih =>
    have hrest := ih fun hmem => hitems (List.mem_cons_of_mem _ hmem)
    cases x with
    | clear => exact absurd List.mem_cons_self hitems
    | call listener e reportErrors => exact hrest
    | push i e => exact hrest
    | barrier i => exact hrest

/-- The watcher that a call is for. -/
def Item.watcher? : Item C → Option ℕ
  | .push i _ => some i
  | .barrier i => some i
  | _ => none

/-- What holds of the bus, whoever watches. -/
structure BusInv (b : EventBus C T) : Prop where
  nodup : b.watchListeners.Nodup
  listener_lt : ∀ j ∈ b.watchListeners, j < b.watchers.length
  item_lt : ∀ item ∈ b.deliveryTail, ∀ j ∈ item.watcher?, j < b.watchers.length
  open_tail : b.closed = false → Item.clear ∉ b.deliveryTail
  settled : Settled b.deliveryTail

/-- A watcher that is still subscribed is a recipient, or nothing is delivered any more. -/
def Subscribed (b : EventBus C T) (i : ℕ) (w : Watcher C T) : Prop :=
  w.state ≠ .unsubscribed → i ∈ b.watchListeners ∨ b.closed = true ∧ Quiet b.deliveryTail

/-- While a listener is to be called, the bus has its recipients. -/
theorem Subscribed.mem_of_call {b : EventBus C T} {i : ℕ} {w : Watcher C T} (h : Subscribed b i w) {l : ℕ}
    {e : Emission C} {reportErrors : Bool} {rest : List (Item C)} (hx : b.deliveryTail = .call l e reportErrors :: rest)
    (hs : w.state ≠ .unsubscribed) : i ∈ b.watchListeners := by
  refine (h hs).resolve_right fun hc => ?_
  rw [hx] at hc
  rcases hc.2 _ List.mem_cons_self with ⟨j, hj⟩ | hj
  · cases hj
  · cases hj

theorem EventBus.mem_bind {b : EventBus C T} {e : Emission C} {reportErrors : Bool} {item : Item C}
    (h : item ∈ b.bind e reportErrors) :
    (∃ l, item = .call l e reportErrors) ∨ ∃ j ∈ b.watchListeners, item = .push j e := by
  rcases List.mem_append.mp h with h | h
  · obtain ⟨l, -, rfl⟩ := List.mem_map.mp h
    exact .inl ⟨l.2, rfl⟩
  · obtain ⟨j, hj, rfl⟩ := List.mem_map.mp h
    exact .inr ⟨j, hj, rfl⟩

/-- The inversion of a step of one watcher. -/
theorem EventBus.update_eq_some {b b' : EventBus C T} {i : ℕ} {f : Watcher C T → Option (Watcher C T)}
    (h : b.update i f = some b') :
    ∃ w w', b.watchers[i]? = some w ∧ f w = some w' ∧ b' = { b with watchers := b.watchers.set i w' } := by
  obtain ⟨w, hw, h⟩ := Option.bind_eq_some_iff.mp h
  obtain ⟨w', hf, h⟩ := Option.bind_eq_some_iff.mp h
  exact ⟨w, w', hw, hf, (Option.some.inj h).symm⟩

namespace BusInv

variable {b b' : EventBus C T}

theorem set_watcher (h : BusInv b) (i : ℕ) (w : Watcher C T) : BusInv { b with watchers := b.watchers.set i w } where
  nodup := h.nodup
  listener_lt := by simpa using h.listener_lt
  item_lt := by simpa using h.item_lt
  open_tail := h.open_tail
  settled := h.settled

theorem update (h : BusInv b) {i : ℕ} {f : Watcher C T → Option (Watcher C T)} (hb : b.update i f = some b') :
    BusInv b' := by
  obtain ⟨w, w', -, -, rfl⟩ := EventBus.update_eq_some hb
  exact h.set_watcher i w'

/-- The first call of the tail is taken off. -/
theorem pop (h : BusInv b) {x : Item C} {rest : List (Item C)} (hx : b.deliveryTail = x :: rest) :
    BusInv { b with deliveryTail := rest } where
  nodup := h.nodup
  listener_lt := h.listener_lt
  item_lt item hitem := h.item_lt item (by rw [hx]; exact List.mem_cons_of_mem _ hitem)
  open_tail hc hmem := h.open_tail hc (by rw [hx]; exact List.mem_cons_of_mem _ hmem)
  settled := by
    have hs := h.settled
    rw [hx] at hs
    cases x with
    | clear =>
      have hquiet : Quiet rest := hs
      clear hx hs
      induction rest with
      | nil => trivial
      | cons y rest ih =>
        have hrest : Quiet rest := fun item hitem => hquiet item (List.mem_cons_of_mem _ hitem)
        rcases hquiet y List.mem_cons_self with ⟨i, rfl⟩ | rfl
        · exact ih hrest
        · exact hrest
    | call listener e reportErrors => exact hs
    | push i e => exact hs
    | barrier i => exact hs

/-- Calls are queued at the end of the tail of an open bus, or quiet ones at any time. -/
theorem append (h : BusInv b) {items : List (Item C)} {log : List (Emission C)}
    (hitems : ∀ item ∈ items, ∀ j ∈ item.watcher?, j < b.watchers.length) (hc : b.closed = false)
    (hclear : Item.clear ∉ items) : BusInv { b with deliveryTail := b.deliveryTail ++ items, log } where
  nodup := h.nodup
  listener_lt := h.listener_lt
  item_lt item hitem := (List.mem_append.mp hitem).elim (h.item_lt item) (hitems item)
  open_tail _ hmem := (List.mem_append.mp hmem).elim (h.open_tail hc) hclear
  settled := settled_of_not_mem fun hmem => (List.mem_append.mp hmem).elim (h.open_tail hc) hclear

end BusInv

/-! ## Runs -/

namespace BusInv

variable {b b' : EventBus C T}

/-- A call at the end of the tail that delivers nothing. -/
theorem concat (h : BusInv b) {x : Item C} (hx : Quiet [x]) (hlt : ∀ j ∈ x.watcher?, j < b.watchers.length)
    (closed : Bool) (hclosed : closed = false → b.closed = false ∧ x ≠ .clear) :
    BusInv { b with deliveryTail := b.deliveryTail ++ [x], closed } where
  nodup := h.nodup
  listener_lt := h.listener_lt
  item_lt item hitem := by
    rcases List.mem_append.mp hitem with hitem | hitem
    · exact h.item_lt item hitem
    · rw [List.mem_singleton.mp hitem]
      exact hlt
  open_tail hc hmem := by
    obtain ⟨hopen, hne⟩ := hclosed hc
    rcases List.mem_append.mp hmem with hmem | hmem
    · exact h.open_tail hopen hmem
    · exact hne (List.mem_singleton.mp hmem).symm
  settled := h.settled.concat hx

theorem emitBatch (h : BusInv b) (events : List HarnessEvent) (context : C) : BusInv (b.emitBatch events context) := by
  unfold EventBus.emitBatch
  split_ifs with hc
  · exact h
  · refine h.append ?_ (by simpa using hc) ?_
    · intro item hitem j hj
      obtain ⟨e, -, hitem⟩ := List.mem_flatMap.mp hitem
      rcases EventBus.mem_bind hitem with ⟨l, rfl⟩ | ⟨k, hk, rfl⟩
      · cases hj
      · cases hj
        exact h.listener_lt _ hk
    · intro hitem
      obtain ⟨e, -, hitem⟩ := List.mem_flatMap.mp hitem
      rcases EventBus.mem_bind hitem with ⟨l, hl⟩ | ⟨k, -, hk⟩
      · cases hl
      · cases hk

theorem watch (h : BusInv b) {filter : HarnessEvent → Bool} {snapshot : Option T} {resnapshots : Bool}
    (hb : b.watch filter snapshot resnapshots = some b') : BusInv b' := by
  unfold EventBus.watch at hb
  split_ifs at hb
  cases hb
  have hlt : ∀ (w : Watcher C T) (j : ℕ), j < b.watchers.length → j < (b.watchers ++ [w]).length := by
    intro w j hj
    rw [List.length_append]
    omega
  refine ⟨?_, ?_, fun item hitem j hj => hlt _ j (h.item_lt item hitem j hj), h.open_tail, h.settled⟩
  · refine List.nodup_append.mpr ⟨h.nodup, List.nodup_singleton _, fun j hj k hk hjk => ?_⟩
    rw [List.mem_singleton] at hk
    have := h.listener_lt j hj
    omega
  · intro j hj
    rcases List.mem_append.mp hj with hj | hj
    · exact hlt _ j (h.listener_lt j hj)
    · rw [List.mem_singleton.mp hj, List.length_append]
      exact Nat.lt_succ_self _

theorem deliver (h : BusInv b) {failure : Option HandlerFailure} (hb : b.deliver failure = some b') : BusInv b' := by
  unfold EventBus.deliver at hb
  split at hb
  · cases hb
  · rename_i l e reportErrors rest htail
    split at hb
    · split_ifs at hb
      · cases hb
        exact h.pop htail
      · cases hb
        have hpop := h.pop htail
        have hbind : ∀ report, ∀ item ∈ b.bind report false, item ≠ .clear ∧
            ∀ j ∈ item.watcher?, j < b.watchers.length := by
          intro report item hitem
          rcases EventBus.mem_bind hitem with ⟨l, rfl⟩ | ⟨k, hk, rfl⟩
          · exact ⟨by simp, by rintro j ⟨⟩⟩
          · exact ⟨by simp, fun j hj => by cases hj; exact h.listener_lt _ hk⟩
        refine ⟨h.nodup, h.listener_lt, fun item hitem => ?_, fun hc hmem => ?_, ?_⟩
        · exact (List.mem_append.mp hitem).elim (fun hi => (hbind _ item hi).2) (hpop.item_lt item)
        · exact (List.mem_append.mp hmem).elim (fun hi => (hbind _ _ hi).1 rfl) (hpop.open_tail hc)
        · exact Settled.prepend (fun hi => (hbind _ _ hi).1 rfl) hpop.settled
    · cases hb
      exact h.pop htail
  · rename_i i e rest htail
    exact (h.pop htail).update hb
  · rename_i i rest htail
    exact (h.pop htail).update hb
  · rename_i rest htail
    cases hb
    have hpop := h.pop htail
    exact ⟨List.nodup_nil, by simp, hpop.item_lt, hpop.open_tail, hpop.settled⟩

theorem step (h : BusInv b) {a : Action C T} (hb : b.step a = some b') : BusInv b' := by
  cases a with
  | on type listener =>
    simp only [EventBus.step] at hb
    split_ifs at hb
    cases hb
    exact ⟨h.nodup, h.listener_lt, h.item_lt, h.open_tail, h.settled⟩
  | off listener =>
    cases hb
    exact ⟨h.nodup, h.listener_lt, h.item_lt, h.open_tail, h.settled⟩
  | emitBatch events context =>
    cases hb
    exact h.emitBatch events context
  | watch filter snapshot resnapshots => exact h.watch hb
  | setSnapshot i snapshot => exact h.update hb
  | start i => exact h.update hb
  | resnapshot i => exact h.update hb
  | markBoundary i =>
    obtain ⟨w, hw, hb⟩ := Option.bind_eq_some_iff.mp hb
    obtain ⟨r, hr, hb⟩ := Option.bind_eq_some_iff.mp hb
    split_ifs at hb
    cases hb
    have hi : i < b.watchers.length := (List.getElem?_eq_some_iff.mp hw).1
    have hquiet : Quiet [(Item.barrier i : Item C)] := fun item hitem => .inl ⟨i, List.mem_singleton.mp hitem⟩
    have hconcat := h.concat hquiet (fun j hj => by cases hj; exact hi) b.closed fun hc => ⟨hc, by simp⟩
    exact hconcat.set_watcher i _
  | captured i snapshot => exact h.update hb
  | captureFailed i => exact h.update hb
  | install i => exact h.update hb
  | unsubscribe i =>
    have hfilter : BusInv { b with watchListeners := b.watchListeners.filter fun w => w ≠ i } :=
      ⟨h.nodup.filter _, fun j hj => h.listener_lt j (List.mem_of_mem_filter hj), h.item_lt, h.open_tail, h.settled⟩
    exact hfilter.update hb
  | notify i => exact h.update hb
  | deliver failure => exact h.deliver hb
  | close =>
    cases hb
    exact h.concat (fun item hitem => .inr (List.mem_singleton.mp hitem)) (by rintro j ⟨⟩) true fun hc => absurd hc (by simp)

end BusInv

/-! ## One watcher along a run -/

namespace Watcher

variable {w w' : Watcher C T}

theorem state_push (w : Watcher C T) (e : Emission C) : (w.push e).state = w.state := by
  unfold push
  split
  · rfl
  · split <;> rfl
  · rfl
  · rfl

theorem state_foldl_push (w : Watcher C T) (es : List (Emission C)) : (es.foldl push w).state = w.state := by
  induction es generalizing w with
  | nil => rfl
  | cons e es ih => rw [List.foldl_cons, ih, state_push]

theorem subscribed_of_start (h : w.start = some w') : w.state ≠ .unsubscribed := by
  unfold start at h
  split_ifs at h with hs
  rw [hs]
  decide

theorem subscribed_of_resnapshot (h : w.resnapshot = some w') : w.state ≠ .unsubscribed := by
  unfold resnapshot at h
  split_ifs at h with hguard
  exact fun hs => hguard (.inl hs)

theorem state_of_captured {snapshot : T} (h : w.captured snapshot = some w') : w'.state = w.state := by
  unfold captured at h
  split at h
  · split_ifs at h
    cases h
    rfl
  · cases h

theorem state_of_captureFailed (h : w.captureFailed = some w') : w'.state = w.state := by
  unfold captureFailed at h
  split at h
  · split_ifs at h
    cases h
    exact state_foldl_push _ _
  · cases h

theorem state_of_install (h : w.install = some w') : w'.state = w.state := by
  unfold install at h
  split at h
  · cases h
    exact state_foldl_push _ _
  · cases h

theorem state_of_notify (h : w.notify = some w') : w'.state = w.state := by
  unfold notify at h
  split at h
  · cases h
  · split_ifs at h <;> cases h <;> rfl

theorem state_markResnapshotBoundary (w : Watcher C T) : w.markResnapshotBoundary.state = w.state := by
  unfold markResnapshotBoundary
  split
  · split_ifs <;> rfl
  · rfl

end Watcher

/-- The watcher at a place, if there is one, keeps its invariant. -/
def WatcherInv (i : ℕ) (b : EventBus C T) : Prop :=
  ∀ w, b.watchers[i]? = some w → WatchInv b.log b.deliveryTail i w ∧ Subscribed b i w

namespace WatcherInv

variable {b b' : EventBus C T} {i : ℕ}

/-- A step of one watcher, which leaves the others and the bus as they are. -/
theorem update (h : WatcherInv i b) {j : ℕ} {f : Watcher C T → Option (Watcher C T)} (hb : b.update j f = some b')
    (hf : ∀ w w', j = i → b.watchers[i]? = some w → f w = some w' → WatchInv b.log b.deliveryTail i w →
      WatchInv b.log b.deliveryTail i w' ∧ (w'.state ≠ .unsubscribed → w.state ≠ .unsubscribed)) :
    WatcherInv i b' := by
  obtain ⟨w, w', hw, hfw, rfl⟩ := EventBus.update_eq_some hb
  intro v hv
  rcases eq_or_ne j i with rfl | hji
  · rw [List.getElem?_set_self (List.getElem?_eq_some_iff.mp hw).1] at hv
    cases hv
    obtain ⟨hinv, hsub⟩ := h w hw
    obtain ⟨hinv', hstate⟩ := hf w w' rfl hw hfw hinv
    exact ⟨hinv', fun hs => hsub (hstate hs)⟩
  · rw [List.getElem?_set_ne hji] at hv
    exact h v hv

/-- The same watchers, with other listeners. -/
theorem of_watchers (h : WatcherInv i b) {listeners : List (JsString × ℕ)} : WatcherInv i { b with listeners } :=
  fun w hw => h w hw

theorem emitBatch (hbus : BusInv b) (h : WatcherInv i b) (events : List HarnessEvent) (context : C) :
    WatcherInv i (b.emitBatch events context) := by
  unfold EventBus.emitBatch
  split_ifs with hc
  · exact h
  · intro w hw
    obtain ⟨hinv, hsub⟩ := h w hw
    have hmem : w.state ≠ .unsubscribed → i ∈ b.watchListeners := fun hs =>
      (hsub hs).resolve_right fun hclosed => hc hclosed.1
    refine ⟨hinv.append (fun hs => pending_flatMap_bind b hbus.nodup (hmem hs) _ true) ?_, fun hs => .inl (hmem hs)⟩
    intro hitem
    obtain ⟨e, -, hitem⟩ := List.mem_flatMap.mp hitem
    rcases EventBus.mem_bind hitem with ⟨l, hl⟩ | ⟨k, -, hk⟩
    · cases hl
    · cases hk

/-- Nothing is queued for a watcher that is not there yet. -/
theorem watch (hbus : BusInv b) (h : WatcherInv i b) {filter : HarnessEvent → Bool} {snapshot : Option T}
    {resnapshots : Bool} (hb : b.watch filter snapshot resnapshots = some b') : WatcherInv i b' := by
  unfold EventBus.watch at hb
  split_ifs at hb
  cases hb
  intro w hw
  rcases lt_or_ge i b.watchers.length with hlt | hge
  · rw [List.getElem?_append_left hlt] at hw
    obtain ⟨hinv, hsub⟩ := h w hw
    exact ⟨hinv, fun hs => (hsub hs).imp_left (List.mem_append_left _)⟩
  · rw [List.getElem?_append_right hge, List.getElem?_singleton] at hw
    split_ifs at hw with hi
    cases hw
    obtain rfl : i = b.watchers.length := by omega
    have hpending : pending b.watchers.length filter b.deliveryTail = [] := by
      rw [pending, List.filterMap_eq_nil_iff]
      intro item hitem
      have hlt := hbus.item_lt item hitem
      cases item with
      | push j e =>
        have := hlt j rfl
        simp only [ite_eq_right_iff, reduceCtorEq, imp_false]
        omega
      | call listener e reportErrors => rfl
      | barrier j => rfl
      | clear => rfl
    refine ⟨⟨le_rfl, List.nil_prefix, fun hs => absurd hs (by simp), fun _ => rfl, by simp, fun _ _ => ?_,
      fun r hr => absurd hr (by simp)⟩, fun _ => .inl (by simp)⟩
    rw [expected_length, hpending]
    rfl

theorem markBoundary (h : WatcherInv i b) {j : ℕ} (hb : b.markBoundary j = some b') : WatcherInv i b' := by
  obtain ⟨w, hw, hb⟩ := Option.bind_eq_some_iff.mp hb
  obtain ⟨r, hr, hb⟩ := Option.bind_eq_some_iff.mp hb
  split_ifs at hb with hguard
  cases hb
  have hquiet : Quiet [(Item.barrier j : Item C)] := fun item hitem => .inl ⟨j, List.mem_singleton.mp hitem⟩
  intro v hv
  rcases eq_or_ne j i with rfl | hji
  · rw [List.getElem?_set_self (List.getElem?_eq_some_iff.mp hw).1] at hv
    cases hv
    obtain ⟨hinv, hsub⟩ := h w hw
    have hmark : r.mark = none := by
      by_contra hmark
      exact hguard (.inl (Option.isSome_iff_ne_none.mpr hmark))
    exact ⟨hinv.mark hr hmark, fun hs => (hsub hs).imp_right fun hc => ⟨hc.1, hc.2.concat hquiet⟩⟩
  · rw [List.getElem?_set_ne hji] at hv
    obtain ⟨hinv, hsub⟩ := h v hv
    have happend : WatchInv (b.log ++ []) (b.deliveryTail ++ [.barrier j]) i v :=
      hinv.append (fun _ => rfl) (by simp [hji.symm])
    rw [List.append_nil] at happend
    exact ⟨happend, fun hs => (hsub hs).imp_right fun hc => ⟨hc.1, hc.2.concat hquiet⟩⟩

theorem close (h : WatcherInv i b) : WatcherInv i { b with closed := true, deliveryTail := b.deliveryTail ++ [.clear] } := by
  intro w hw
  obtain ⟨hinv, hsub⟩ := h w hw
  have happend : WatchInv (b.log ++ []) (b.deliveryTail ++ [.clear]) i w := hinv.append (fun _ => rfl) (by simp)
  rw [List.append_nil] at happend
  have hquiet : Quiet [(Item.clear : Item C)] := fun item hitem => .inr (List.mem_singleton.mp hitem)
  exact ⟨happend, fun hs => (hsub hs).imp_right fun hc => ⟨rfl, hc.2.concat hquiet⟩⟩

theorem unsubscribe (h : WatcherInv i b) {j : ℕ}
    (hb : ({ b with watchListeners := b.watchListeners.filter fun w => w ≠ j } : EventBus C T).update j
      (fun w => some w.unsubscribe) = some b') : WatcherInv i b' := by
  obtain ⟨w, w', hw, hf, rfl⟩ := EventBus.update_eq_some hb
  cases hf
  intro v hv
  rcases eq_or_ne j i with rfl | hji
  · rw [List.getElem?_set_self (List.getElem?_eq_some_iff.mp hw).1] at hv
    cases hv
    exact ⟨(h w hw).1.unsubscribe, fun hs => absurd rfl hs⟩
  · rw [List.getElem?_set_ne hji] at hv
    obtain ⟨hinv, hsub⟩ := h v hv
    exact ⟨hinv, fun hs => (hsub hs).imp_left fun hmem => List.mem_filter.mpr ⟨hmem, by simpa using hji.symm⟩⟩

/-- The first call is done, and did not concern the watcher. -/
theorem pop (h : WatcherInv i b) {x : Item C} {rest : List (Item C)} (hx : b.deliveryTail = x :: rest)
    (hp : ∀ w, b.watchers[i]? = some w → pending i w.filter [x] = []) (hne : x ≠ .barrier i) :
    WatcherInv i { b with deliveryTail := rest } := by
  intro w hw
  obtain ⟨hinv, hsub⟩ := h w hw
  rw [hx] at hinv
  refine ⟨hinv.skip_head (hp w hw) hne, fun hs => (hsub hs).imp_right fun hc => ⟨hc.1, ?_⟩⟩
  rw [hx] at hc
  exact fun item hitem => hc.2 item (List.mem_cons_of_mem _ hitem)

/-- The first call is one to the watcher, and takes it to `w'`. -/
theorem pop_set (h : WatcherInv i b) {x : Item C} {rest : List (Item C)} (hx : b.deliveryTail = x :: rest)
    {w w' : Watcher C T} (hw : b.watchers[i]? = some w)
    (hinv : WatchInv b.log (x :: rest) i w → WatchInv b.log rest i w') (hstate : w'.state = w.state) :
    WatcherInv i { b with deliveryTail := rest, watchers := b.watchers.set i w' } := by
  intro v hv
  rw [List.getElem?_set_self (List.getElem?_eq_some_iff.mp hw).1] at hv
  cases hv
  obtain ⟨hwatch, hsub⟩ := h w hw
  rw [hx] at hwatch
  refine ⟨hinv hwatch, fun hs => (hsub (hstate ▸ hs)).imp_right fun hc => ⟨hc.1, ?_⟩⟩
  rw [hx] at hc
  exact fun item hitem => hc.2 item (List.mem_cons_of_mem _ hitem)

/-- A listener threw: its report overtakes nothing that the watcher is to receive. -/
theorem report (hbus : BusInv b) (h : WatcherInv i b) {l : ℕ} {e : Emission C} {rest : List (Item C)}
    (hx : b.deliveryTail = .call l e true :: rest) {failure : HandlerFailure}
    (hsound : i ∈ b.watchListeners → ∀ w ∈ b.watchers[i]?, w.filter (failure.report e.1) = true →
      pending i w.filter rest = [] ∧ Item.barrier i ∉ rest) :
    WatcherInv i { b with
      deliveryTail := b.bind (failure.report e.1, e.2) false ++ rest, log := b.log ++ [(failure.report e.1, e.2)] } := by
  intro w hw
  obtain ⟨hinv, hsub⟩ := h w hw
  rw [hx] at hinv
  have hrest := hinv.skip_head rfl (by simp)
  have hmem : w.state ≠ .unsubscribed → i ∈ b.watchListeners := fun hs => hsub.mem_of_call hx hs
  have hbarrier : Item.barrier i ∉ b.bind (failure.report e.1, e.2) false := by
    intro hitem
    rcases EventBus.mem_bind hitem with ⟨l, hl⟩ | ⟨k, -, hk⟩
    · cases hl
    · cases hk
  refine ⟨?_, fun hs => .inl (hmem hs)⟩
  by_cases hi : i ∈ b.watchListeners
  · have hbind := pending_bind (f := w.filter) b hbus.nodup hi (failure.report e.1, e.2) false
    by_cases hf : w.filter (failure.report e.1) = true
    · obtain ⟨hpending, hnot⟩ := hsound hi w hw hf
      refine hrest.prepend (fun _ => ?_) hbarrier hpending hnot
      rw [hbind, if_pos hf, List.filter_singleton, hf]
      rfl
    · refine hrest.prepend_other (fun _ => ?_) (fun _ => ?_) hbarrier
      · rw [hbind, if_neg hf]
      · simp [hf]
  · -- The watcher has unsubscribed.
    exact hrest.prepend_other (fun hs => absurd (hmem hs) hi) (fun hs => absurd (hmem hs) hi) hbarrier

theorem deliver (hbus : BusInv b) (h : WatcherInv i b) {failure : Option HandlerFailure}
    (hsound : Sound i b (.deliver failure)) (hb : b.deliver failure = some b') : WatcherInv i b' := by
  unfold EventBus.deliver at hb
  split at hb
  · cases hb
  · rename_i l e reportErrors rest htail
    have hpop : WatcherInv i { b with deliveryTail := rest } := h.pop htail (fun _ _ => rfl) (by simp)
    split at hb
    · rename_i failure
      split_ifs at hb with hignored
      · cases hb
        exact hpop
      · cases hb
        obtain ⟨rfl, herror⟩ : reportErrors = true ∧ e.1.isHandlerError = false := by simpa using hignored
        refine h.report hbus htail ?_
        simp only [Sound, htail] at hsound
        exact hsound herror
    · cases hb
      exact hpop
  · rename_i j e rest htail
    obtain ⟨w, w', hw, hf, rfl⟩ := EventBus.update_eq_some hb
    cases hf
    rcases eq_or_ne j i with rfl | hji
    · refine h.pop_set htail hw (fun hinv => ?_) ?_
      · split_ifs with hf
        · exact hinv.push_head hf
        · exact hinv.skip_head (by rw [pending_push, if_neg hf]) (by simp)
      · split_ifs
        · exact w.state_push e
        · rfl
    · intro v hv
      rw [List.getElem?_set_ne hji] at hv
      exact h.pop htail (fun _ _ => pending_push_ne hji e) (by simp) v hv
  · rename_i j rest htail
    obtain ⟨w, w', hw, hf, rfl⟩ := EventBus.update_eq_some hb
    cases hf
    rcases eq_or_ne j i with rfl | hji
    · exact h.pop_set htail hw (fun hinv => hinv.barrier_head) w.state_markResnapshotBoundary
    · intro v hv
      rw [List.getElem?_set_ne hji] at hv
      exact h.pop htail (fun _ _ => rfl) (by simp [hji]) v hv
  · rename_i rest htail
    cases hb
    intro w hw
    refine ⟨(h.pop htail (fun _ _ => rfl) (by simp) w hw).1, fun _ => .inr ⟨?_, ?_⟩⟩
    · -- Only a closed bus clears its listeners.
      by_contra hc
      refine hbus.open_tail (by simpa using hc) ?_
      rw [htail]
      exact List.mem_cons_self
    · have hsettled := hbus.settled
      rw [htail] at hsettled
      exact hsettled

theorem step (hbus : BusInv b) (h : WatcherInv i b) {a : Action C T} (hsound : Sound i b a)
    (hb : b.step a = some b') : WatcherInv i b' := by
  cases a with
  | on type listener =>
    simp only [EventBus.step] at hb
    split_ifs at hb
    cases hb
    exact h.of_watchers
  | off listener =>
    cases hb
    exact h.of_watchers
  | emitBatch events context =>
    cases hb
    exact h.emitBatch hbus events context
  | watch filter snapshot resnapshots => exact h.watch hbus hb
  | setSnapshot j snapshot =>
    refine h.update hb fun w w' _ _ hf hinv => ?_
    cases hf
    exact ⟨hinv.setSnapshot _, id⟩
  | start j => exact h.update hb fun w w' _ _ hf hinv => ⟨hinv.start hf, fun _ => Watcher.subscribed_of_start hf⟩
  | resnapshot j =>
    exact h.update hb fun w w' hj _ hf hinv =>
      ⟨hinv.resnapshot (hsound hj) hf, fun _ => Watcher.subscribed_of_resnapshot hf⟩
  | markBoundary j => exact h.markBoundary hb
  | captured j snapshot =>
    exact h.update hb fun w w' _ _ hf hinv => ⟨hinv.captured hf, fun hs => Watcher.state_of_captured hf ▸ hs⟩
  | captureFailed j =>
    exact h.update hb fun w w' hj hw hf hinv =>
      ⟨hinv.captureFailed (fun _ => hsound hj w hw) hf, fun hs => Watcher.state_of_captureFailed hf ▸ hs⟩
  | install j =>
    exact h.update hb fun w w' _ _ hf hinv => ⟨hinv.install hf, fun hs => Watcher.state_of_install hf ▸ hs⟩
  | unsubscribe j => exact h.unsubscribe hb
  | notify j =>
    exact h.update hb fun w w' _ _ hf hinv => ⟨hinv.notify hf, fun hs => Watcher.state_of_notify hf ▸ hs⟩
  | deliver failure => exact h.deliver hbus hsound hb
  | close =>
    cases hb
    exact h.close

end WatcherInv

theorem busInv_init : BusInv ({} : EventBus C T) := ⟨List.nodup_nil, by simp, by simp, by simp, trivial⟩

theorem watcherInv_init (i : ℕ) : WatcherInv i ({} : EventBus C T) := fun w hw => absurd hw (by simp)

/-- Sound steps keep what holds of the bus and of the watcher. -/
theorem inv_of_reaches {i : ℕ} {b c : EventBus C T} (hbus : BusInv b) (hwatch : WatcherInv i b)
    (h : Reaches EventBus.step (Sound i) b c) : BusInv c ∧ WatcherInv i c := by
  refine h.invariant (I := fun c => BusInv c ∧ WatcherInv i c) ⟨hbus, hwatch⟩ ?_
  rintro s a s' ⟨hbus, hwatch⟩ hsound hs
  exact ⟨hbus.step hs, hwatch.step hbus hsound hs⟩

/-- In every run whose steps are sound for a watcher, the watcher receives exactly the events behind the boundary of its
snapshot. -/
theorem watch_exact (i : ℕ) (b : EventBus C T) (h : Reaches EventBus.step (Sound i) {} b) :
    ∀ w, b.watchers[i]? = some w → Exact b i w := by
  have hinv := inv_of_reaches busInv_init (watcherInv_init i) h
  exact fun w hw => (hinv.2 w hw).1.exact

/-- An event with a one-letter type. -/
def letterEvent (letter : UInt16) : HarnessEvent := .other [letter] none .null

/-- A lane's watch that is started and given one event. -/
def oneEvent : List (Action Unit Unit) :=
  [.watch (laneFilter []) (some ()) true, .start 0, .emitBatch [letterEvent 97] (), .deliver none, .notify 0]

theorem watch_exact_oneEvent : ∃ (b : EventBus Unit Unit) (w : Watcher Unit Unit),
    Reaches EventBus.step (Sound 0) {} b ∧ b.watchers[0]? = some w ∧ w.received = [(letterEvent 97, ())] ∧
      Exact b 0 w := by
  obtain ⟨b, hb⟩ : ∃ b, oneEvent.foldlM EventBus.step {} = some b := ⟨_, rfl⟩
  have hreaches : Reaches EventBus.step (Sound 0) {} b := by
    cases hb
    exact .step (a := .notify 0) (.step (a := .deliver none) (.step (a := .emitBatch [letterEvent 97] ())
      (.step (a := .start 0) (.step (a := .watch (laneFilter []) (some ()) true) .init trivial rfl) trivial rfl)
      trivial rfl) trivial rfl) trivial rfl
  cases hb
  exact ⟨_, _, hreaches, rfl, rfl, watch_exact 0 _ hreaches _ rfl⟩

/-- The capture of a resnapshot fails when an event has been dropped. -/
def failedCapture : List (Action Unit Unit) :=
  [.watch (laneFilter []) (some ()) true, .start 0, .emitBatch [letterEvent 97] (), .resnapshot 0, .deliver none,
    .captureFailed 0, .emitBatch [letterEvent 98] (), .deliver none, .notify 0]

/-- The dropped event is missing in front of the next one. -/
theorem failed_capture_leaves_gap : ∃ (b : EventBus Unit Unit) (w : Watcher Unit Unit),
    Reaches EventBus.step (fun _ _ => True) {} b ∧ b.watchers[0]? = some w ∧ ¬Exact b 0 w := by
  obtain ⟨b, hb⟩ : ∃ b, failedCapture.foldlM EventBus.step {} = some b := ⟨_, rfl⟩
  have hreaches := Reaches.of_foldlM hb
  cases hb
  refine ⟨_, _, hreaches, rfl, fun hexact => ?_⟩
  have honly : [(letterEvent 98, ())] <+: [(letterEvent 97, ()), (letterEvent 98, ())] := hexact.only
  have hhead := (List.cons_prefix_cons.mp honly).1
  have hletters : letterEvent 98 = letterEvent 97 := congrArg Prod.fst hhead
  have htype : ([98] : JsString) = [97] := congrArg HarnessEvent.type hletters
  exact absurd htype (by decide)

end Phi.Harness

import Phi.Server.Effects

/-!
# Connections

The server tells its router when a connection has gone (`disconnect`). The router keeps a mark of the client while its
disconnection runs, and no longer: what the client's service calls ask of it afterwards is done. A client holds nothing
behind its disconnection in a run in which none of its calls attaches it again.
-/

set_option linter.unusedSectionVars false

namespace Phi.Server

variable {C S : Type} [DecidableEq C] [DecidableEq S]

/-- The server, as far as it has to do with its clients. -/
structure ServerState (C S : Type) where
  sessions : Router C S := {}
  connections : List C := []
  disconnected : C → Bool := fun _ => false

inductive ServerAction (C S : Type) where
  | accept (client : C)
  | disconnect (client : C)
  /-- The router is asked for something, or goes on. -/
  | route (action : Action C S)

namespace ServerState

variable (s : ServerState C S)

/-- A client that was accepted may ask for anything; `close` of the server disconnects all clients first. -/
def Admits : Action C S → Prop
  | .attachClient c _ | .detachClient c | .executeServiceCall c _ _ => c ∈ s.connections ∨ s.disconnected c = true
  | .disconnect _ => False
  | .close => s.connections = []
  | _ => True

instance (a : Action C S) : Decidable (s.Admits a) :=
  match a with
  | .attachClient c _ | .detachClient c | .executeServiceCall c _ _ =>
    inferInstanceAs (Decidable (c ∈ s.connections ∨ s.disconnected c = true))
  | .disconnect _ => instDecidableFalse
  | .close => inferInstanceAs (Decidable (s.connections = []))
  | .removeSession _ | .beginClosing | .run _ | .resolved _ _ | .opened _ _ | .drained _ _ | .acquired _ _
  | .callSettled _ _ | .goOnReleasing _ | .released _ _ | .terminated _ | .invalidate _ | .goOnRemoving _
  | .removed _ _ | .goOnClosing | .handleClosed _ _ => instDecidableTrue

def disconnect (c : C) : Option (ServerState C S) :=
  if s.disconnected c then some s
  else if c ∈ s.connections then
    (s.sessions.step (.disconnect c)).map fun r =>
      { sessions := r, connections := s.connections.filter (· ≠ c), disconnected := Function.update s.disconnected c true }
  else none

def step : ServerAction C S → Option (ServerState C S)
  | .accept c =>
    if s.sessions.isClosing then some s
    else if c ∈ s.connections ∨ s.disconnected c = true then none
    else some { s with connections := c :: s.connections }
  | .disconnect c => s.disconnect c
  | .route a => if s.Admits a then (s.sessions.step a).map fun r => { s with sessions := r } else none

/-- A client that has been disconnected is not attached again, unless the server closes and refuses it. -/
def Timely (s : ServerState C S) : ServerAction C S → Prop
  | .route (.attachClient c _) => s.disconnected c = false ∨ s.sessions.isClosing = true
  | _ => True

instance (a : ServerAction C S) : Decidable (s.Timely a) :=
  match a with
  | .accept _ | .disconnect _ => instDecidableTrue
  | .route (.attachClient c _) => inferInstanceAs (Decidable (s.disconnected c = false ∨ s.sessions.isClosing = true))
  | .route (.detachClient _) | .route (.disconnect _) | .route (.executeServiceCall _ _ _) | .route (.removeSession _)
  | .route .beginClosing | .route .close | .route (.run _) | .route (.resolved _ _) | .route (.opened _ _)
  | .route (.drained _ _) | .route (.acquired _ _) | .route (.callSettled _ _) | .route (.goOnReleasing _)
  | .route (.released _ _) | .route (.terminated _) | .route (.invalidate _) | .route (.goOnRemoving _)
  | .route (.removed _ _) | .route .goOnClosing | .route (.handleClosed _ _) => instDecidableTrue

end ServerState

/-- The client has no attachment, and all leases that it had have been released. -/
structure Router.Free (r : Router C S) (c : C) : Prop where
  idle : ¬r.IsAttaching c
  client : r.attachmentsByClient c = none
  released : ∀ a x, r.attachments a = some x → x.client = c → x.acquiring ≠ .failed → x.Cleared

/-- The disconnection of a client comes behind all operations that attach it, and `close` waits for it. -/
structure Leaving (s : ServerState C S) : Prop where
  router : Inv s.sessions
  last : ∀ i o, s.sessions.operations i = some o → o.work.Disconnects → s.disconnected o.client = true
    ∧ ∀ j o', s.sessions.operations j = some o' → o'.client = o.client → o'.work.Attaching → j < i
  closing : s.sessions.closing ≠ .notCalled → s.connections = []
  waiting : ∀ operations openings, s.sessions.closing = .waiting operations openings →
    ∀ i o, s.sessions.operations i = some o → o.work.Disconnects →
      ∃ t ∈ operations, i ≤ t ∧ (s.sessions.operations t).map (·.client) = some o.client
  quiet : s.sessions.closing.Quiet → ∀ i o, s.sessions.operations i = some o → ¬o.work.Disconnects
  free : ∀ c, s.disconnected c = true → s.sessions.disconnectedClients c = false → s.sessions.Free c

/-- What is free stays so, unless the client is attached again. -/
theorem Router.Free.effect {r r' : Router C S} {c : C} (h : r.Free c) (he : Effect r r') (hidle : ¬r'.IsAttaching c) :
    r'.Free c where
  idle := hidle
  client := by
    by_contra hsome
    obtain ⟨a, ha⟩ := Option.ne_none_iff_exists'.mp hsome
    rcases he.registered c a ha with ha | hattaching
    · rw [h.client] at ha
      cases ha
    · exact h.idle hattaching
  released a y hy hclient hfailed := by
    rcases he.attachments a y hy with ⟨x, hx, hxclient, hxfailed, hxcleared⟩ | hattaching
    · exact hxcleared (h.released a x hx (hxclient ▸ hclient) (mt hxfailed hfailed))
    · rw [hclient] at hattaching
      exact (h.idle hattaching).elim

theorem Work.Disconnects.ne_done {work : Work S} (h : work.Disconnects) : work ≠ .done := by
  rintro rfl
  exact h

namespace Leaving

variable {s s' : ServerState C S}

theorem init : Leaving ({} : ServerState C S) where
  router := .init
  last _ _ h := by cases h
  closing _ := rfl
  waiting _ _ h := by cases h
  quiet h := h.elim
  free _ h := by cases h

/-- At the end of its disconnection, nothing of a client is left. -/
theorem free_of_ends (h : Leaving s) {c : C} (hends : s.sessions.EndsDisconnect c) : s.sessions.Free c := by
  obtain ⟨i, o, ho, rfl, hwork⟩ := hends
  have hdisconnects : o.work.Disconnects := by
    rcases hwork with ⟨hwork, -⟩ | ⟨a, hwork, -⟩ <;> simp [hwork, Work.Disconnects]
  have hopen : s.sessions.closing ≠ .closed := by
    intro hclosed
    exact h.quiet (by rw [hclosed]; trivial) i o ho hdisconnects
  have hserial := h.router.serial hopen
  have hidle : ¬s.sessions.IsAttaching o.client := by
    rintro ⟨j, o', ho', hclient, hattaching⟩
    have hlt := (h.last i o ho hdisconnects).2 j o' ho' hclient hattaching
    have hdone : o'.work = .done := by
      rcases hwork with ⟨-, hready, -⟩ | ⟨a, hwork, -⟩
      · refine hserial.done_of_ready ho (fun p hp q hq => ?_) hlt ho' hclient
        rw [Router.isReady, hp] at hready
        simpa [hq] using hready
      · exact hserial.order i o j o' hlt ho ho' hclient (by rw [hwork]; trivial)
    rw [hdone] at hattaching
    exact hattaching
  have hnone : s.sessions.attachmentsByClient o.client = none := by
    rcases hwork with ⟨-, -, hnone⟩ | ⟨a, hwork, hsettled⟩
    · exact hnone
    · by_contra hsome
      obtain ⟨b, hb⟩ := Option.ne_none_iff_exists'.mp hsome
      obtain rfl : a = b := Option.some.inj (h.router.current hopen i o (some a) ho (by rw [hwork]; rfl) b hb)
      obtain ⟨x, hx, -, -, hcleared⟩ := h.router.registered _ a hb
      exact hcleared (Inv.cleared_of_settled hsettled hx)
  refine ⟨hidle, hnone, fun a x hx hclient hfailed => ?_⟩
  by_contra hcleared
  rcases h.router.held hopen a x hx hfailed hcleared with ha | ⟨j, o', ho', hholds⟩
  · rw [hclient, hnone] at ha
    cases ha
  · have hmap := h.router.holder j o' a ho' hholds
    rw [hx, Option.map_some, hclient] at hmap
    refine hidle ⟨j, o', ho', (Option.some.inj hmap).symm, ?_⟩
    rcases hholds with hholds | hholds <;> rw [hholds] <;> trivial

/-- The client attaches after the step only if it did so before, or asks for it. -/
theorem isAttaching_of_step {r r' : Router C S} {a : Action C S} (hs : r.step a = some r') {c : C}
    (h : r'.IsAttaching c) : r.IsAttaching c ∨ r.isClosing = false ∧ ∃ session, a = .attachClient c session := by
  obtain ⟨i, o', ho', rfl, hattaching⟩ := h
  rcases Router.operations_of_step hs with hadvances | ⟨c', work, heq, hattach, -⟩
  · obtain ⟨o, ho, hclient, hback, -⟩ := hadvances.before i o' ho'
    exact .inl ⟨i, o, ho, hclient.symm, hback hattaching⟩
  · rw [heq] at ho'
    rcases Queues.update_eq_some.mp ho' with ⟨-, rfl⟩ | ⟨-, ho⟩
    · exact .inr (hattach hattaching)
    · exact .inl ⟨i, o', ho, rfl, hattaching⟩

/-- An operation that disconnects after the step did so before, or is asked for. -/
theorem disconnects_of_step {r r' : Router C S} {a : Action C S} (hs : r.step a = some r') (ha : ∀ c, a ≠ .disconnect c)
    {i : ℕ} {o' : Operation C S} (ho' : r'.operations i = some o') (h : o'.work.Disconnects) :
    ∃ o, r.operations i = some o ∧ o'.client = o.client ∧ o.work.Disconnects := by
  rcases Router.operations_of_step hs with hadvances | ⟨c, work, heq, -, hdisconnect⟩
  · obtain ⟨o, ho, hclient, -, hback⟩ := hadvances.before i o' ho'
    exact ⟨o, ho, hclient, hback h⟩
  · rw [heq] at ho'
    rcases Queues.update_eq_some.mp ho' with ⟨-, rfl⟩ | ⟨-, ho⟩
    · exact absurd (hdisconnect h) (ha c)
    · exact ⟨o', ho, rfl, h⟩

theorem client_of_step {r r' : Router C S} {a : Action C S} (hr : Inv r) (hs : r.step a = some r') {i : ℕ} {c : C}
    (h : (r.operations i).map (·.client) = some c) : (r'.operations i).map (·.client) = some c := by
  rcases Router.operations_of_step hs with hadvances | ⟨c', work, heq, -, -⟩
  · exact (hadvances.client i).trans h
  · rw [heq]
    refine Eq.trans (congrArg _ (Function.update_of_ne ?_ _ _)) h
    rintro rfl
    rw [hr.freshOperation _ le_rfl] at h
    cases h

/-- What the router does by itself, or is asked for by a client. -/
theorem route (h : Leaving s) {a : Action C S} {r : Router C S} (htimely : s.Timely (.route a)) (hadmits : s.Admits a)
    (hs : s.sessions.step a = some r) : Leaving { s with sessions := r } := by
  have ha (c : C) : a ≠ .disconnect c := by
    rintro rfl
    exact hadmits
  have hattaching {c : C} (hc : s.disconnected c = true) (hc' : r.IsAttaching c) : s.sessions.IsAttaching c := by
    refine (isAttaching_of_step hs hc').resolve_right ?_
    rintro ⟨hopen, session, rfl⟩
    rcases htimely with hconnected | hclosing
    · rw [hc] at hconnected
      cases hconnected
    · rw [hopen] at hclosing
      cases hclosing
  refine ⟨h.router.step hs, fun i o' ho' hdisconnects => ?_, fun hcalled => ?_, fun operations openings hclosing i o' ho' hdisconnects => ?_,
    fun hquiet i o' ho' hdisconnects => ?_, fun c hc hmark => ?_⟩
  · obtain ⟨o, ho, hclient, hback⟩ := disconnects_of_step hs ha ho' hdisconnects
    rw [hclient]
    obtain ⟨hgone, hlast⟩ := h.last i o ho hback
    refine ⟨hgone, fun j q' hq' hqclient hqattaching => ?_⟩
    rcases Router.operations_of_step hs with hadvances | ⟨c, work, heq, hattach, -⟩
    · obtain ⟨q, hq, hqsame, hqback, -⟩ := hadvances.before j q' hq'
      exact hlast j q hq (hqsame.symm.trans hqclient) (hqback hqattaching)
    · have hq'' := hq'
      rw [heq] at hq''
      rcases Queues.update_eq_some.mp hq'' with ⟨-, rfl⟩ | ⟨-, hq⟩
      · obtain ⟨hopen, session, rfl⟩ := hattach hqattaching
        rcases htimely with hconnected | hclosing
        · rw [show c = o.client from hqclient, hgone] at hconnected
          cases hconnected
        · rw [hopen] at hclosing
          cases hclosing
      · exact hlast j q' hq hqclient hqattaching
  · by_cases hnot : s.sessions.closing = .notCalled
    · rcases Router.closing_of_step hs with hsame | rfl | rfl | ⟨g, ok, rfl⟩
      · exact absurd (hsame.trans hnot) hcalled
      · exact hadmits
      · change s.sessions.goOnClosing = some r at hs
        rw [Router.goOnClosing, hnot] at hs
        cases hs
      · change s.sessions.handleClosed g ok = some r at hs
        rw [Router.handleClosed, hnot] at hs
        cases hs
    · exact h.closing hnot
  · obtain ⟨o, ho, hclient, hback⟩ := disconnects_of_step hs ha ho' hdisconnects
    rw [hclient]
    have hkept (hsame : s.sessions.closing = .waiting operations openings) :
        ∃ t ∈ operations, i ≤ t ∧ (r.operations t).map (·.client) = some o.client := by
      obtain ⟨t, ht, hle, htclient⟩ := h.waiting operations openings hsame i o ho hback
      exact ⟨t, ht, hle, client_of_step h.router hs htclient⟩
    rcases Router.closing_of_step hs with hsame | rfl | rfl | ⟨g, ok, rfl⟩
    · exact hkept (hsame.symm.trans hclosing)
    · have hstep := hs
      change s.sessions.close = some r at hs
      rw [Router.close] at hs
      split_ifs at hs with hisClosing
      split at hs
      next hnot =>
        cases hs
        cases hclosing
        exact h.router.listed (by rw [hnot]; simp) ho hback.ne_done
      · cases hs
        exact hkept hclosing
    · change s.sessions.goOnClosing = some r at hs
      rw [Router.goOnClosing] at hs
      split at hs
      · split_ifs at hs
        cases hs
        cases hclosing
      · split_ifs at hs
        cases hs
        cases hclosing
      · split_ifs at hs
        cases hs
        cases hclosing
      · cases hs
    · change s.sessions.handleClosed g ok = some r at hs
      rw [Router.handleClosed] at hs
      split at hs
      · split_ifs at hs
        cases hs
        cases hclosing
      · cases hs
  · obtain ⟨o, ho, -, hback⟩ := disconnects_of_step hs ha ho' hdisconnects
    rcases Router.closing_of_step hs with hsame | rfl | rfl | ⟨g, ok, rfl⟩
    · exact h.quiet (hsame ▸ hquiet) i o ho hback
    · change s.sessions.close = some r at hs
      rw [Router.close] at hs
      split_ifs at hs
      split at hs <;> cases hs
      · exact hquiet
      · exact h.quiet hquiet i o ho hback
    · change s.sessions.goOnClosing = some r at hs
      rw [Router.goOnClosing] at hs
      split at hs
      next operations openings hclosing =>
        split_ifs at hs with hall
        -- The disconnections that `close` has waited for have ended.
        obtain ⟨t, ht, hle, htclient⟩ := h.waiting operations openings hclosing i o ho hback
        refine hback.ne_done (h.router.done_of_awaited (by rw [hclosing]; simp) ho hle htclient ?_)
        simpa using List.all_eq_true.mp hall.1 t ht
      next attachments hclosing => exact h.quiet (by rw [hclosing]; trivial) i o ho hback
      next handles results hclosing => exact h.quiet (by rw [hclosing]; trivial) i o ho hback
      · cases hs
    · change s.sessions.handleClosed g ok = some r at hs
      rw [Router.handleClosed] at hs
      split at hs
      next handles results hclosing => exact h.quiet (by rw [hclosing]; trivial) i o ho hback
      · cases hs
  · have heffect := Effect.step h.router hs
    have hfree : s.sessions.Free c := by
      cases hbefore : s.sessions.disconnectedClients c with
      | false => exact h.free c hc hbefore
      | true => exact h.free_of_ends (heffect.marks c hbefore hmark)
    exact hfree.effect heffect fun hc' => hfree.idle (hattaching hc hc')

theorem disconnect (h : Leaving s) {c : C} (hs : s.disconnect c = some s') : Leaving s' := by
  rw [ServerState.disconnect] at hs
  split_ifs at hs with hgone hconnected
  · cases hs
    exact h
  · obtain ⟨r, hr, rfl⟩ := Option.map_eq_some_iff.mp hs
    have hnot : s.sessions.closing = .notCalled := by
      by_contra hcalled
      rw [h.closing hcalled] at hconnected
      cases hconnected
    have hr' := h.router.step hr
    cases hr
    have hdisconnected (c' : C) (hc' : s.disconnected c' = true) : Function.update s.disconnected c true c' = true := by
      rw [Function.update_apply, hc']
      exact ite_self _
    refine ⟨hr', fun i o ho hdisconnects => ?_, fun hcalled => absurd hnot hcalled, fun operations openings hclosing => ?_,
      fun hquiet => ?_, fun c' hc' hmark => ?_⟩
    · rcases Queues.update_eq_some.mp ho with ⟨rfl, rfl⟩ | ⟨-, ho⟩
      · refine ⟨Function.update_self .., fun j o' ho' hclient hattaching => ?_⟩
        rcases Queues.update_eq_some.mp ho' with ⟨-, rfl⟩ | ⟨-, ho'⟩
        · exact hattaching.elim
        · by_contra hle
          rw [h.router.freshOperation j (by simpa using hle)] at ho'
          cases ho'
      · obtain ⟨hc', hlast⟩ := h.last i o ho hdisconnects
        refine ⟨hdisconnected _ hc', fun j o' ho' hclient hattaching => ?_⟩
        rcases Queues.update_eq_some.mp ho' with ⟨-, rfl⟩ | ⟨-, ho'⟩
        · exact hattaching.elim
        · exact hlast j o' ho' hclient hattaching
    · cases hnot.symm.trans hclosing
    · have hquiet' : s.sessions.closing.Quiet := hquiet
      rw [hnot] at hquiet'
      exact hquiet'.elim
    · have hmark' : Function.update s.sessions.disconnectedClients c true c' = false := hmark
      have hgone' : Function.update s.disconnected c true c' = true := hc'
      rw [Function.update_apply] at hmark' hgone'
      split_ifs at hmark' hgone'
      have hfree := h.free c' hgone' hmark'
      refine ⟨?_, hfree.client, hfree.released⟩
      rintro ⟨i, o, ho, hclient, hattaching⟩
      rcases Queues.update_eq_some.mp ho with ⟨-, rfl⟩ | ⟨-, ho⟩
      · exact hattaching
      · exact hfree.idle ⟨i, o, ho, hclient, hattaching⟩

theorem step (h : Leaving s) {a : ServerAction C S} (htimely : s.Timely a) (hs : s.step a = some s') : Leaving s' := by
  cases a with
  | accept c =>
    change ServerState.step s (.accept c) = some s' at hs
    rw [ServerState.step] at hs
    split_ifs at hs with hclosing hknown
    · cases hs
      exact h
    · cases hs
      refine ⟨h.router, h.last, fun hcalled => ?_, h.waiting, h.quiet, h.free⟩
      rw [h.router.isClosing hcalled] at hclosing
      exact absurd rfl hclosing
  | disconnect c => exact h.disconnect hs
  | route a =>
    change ServerState.step s (.route a) = some s' at hs
    rw [ServerState.step] at hs
    split_ifs at hs with hadmits
    obtain ⟨r, hr, rfl⟩ := Option.map_eq_some_iff.mp hs
    exact h.route htimely hadmits hr

end Leaving

/-- When its disconnection has come to an end, a client holds no session: it has no attachment, and every lease that was
taken for it has been released, as long as none of its calls attaches it again. -/
theorem disconnected_free (s : ServerState C S) (h : Reaches ServerState.step ServerState.Timely {} s) {c : C}
    (hc : s.disconnected c = true) (hmark : s.sessions.disconnectedClients c = false) :
    s.sessions.attachmentsByClient c = none ∧ ∀ a x, s.sessions.attachments a = some x → x.client = c →
      x.acquiring = .failed ∨ (x.member = false ∧ x.acquiring = .lease ∧ x.releases = 1) := by
  have hleaving : Leaving s := h.invariant (I := Leaving) .init fun s a s' hs htimely hstep => hs.step htimely hstep
  obtain ⟨hidle, hclient, hreleased⟩ := hleaving.free c hc hmark
  refine ⟨hclient, fun a x hx hxc => ?_⟩
  by_cases hfailed : x.acquiring = .failed
  · exact .inl hfailed
  · obtain ⟨phase, hphase, hcleared⟩ := hreleased a x hx hxc hfailed
    have hcounted := hleaving.router.counted a x hx
    rw [ClientAttachment.Counted, hphase] at hcounted
    cases phase with
    | publishing ok => exact .inr (by simpa [hfailed] using hcounted)
    | settled ok => exact .inr (by simpa [hfailed] using hcounted)
    | operations n => exact hcleared.elim
    | lease => exact hcleared.elim
    | releasing => exact hcleared.elim

/-- A client is attached, and is disconnected. -/
def disconnectRun : List (ServerAction ℕ ℕ) :=
  [.accept 0, .route (.attachClient 0 7), .route (.run 0), .route (.resolved 0 true), .route (.opened 0 true),
    .route (.run 0), .route (.run 0), .route (.acquired 0 true), .route (.run 0), .disconnect 0, .route (.run 0),
    .route (.run 1), .route (.goOnReleasing 0), .route (.goOnReleasing 0), .route (.released 0 true),
    .route (.goOnReleasing 0), .route (.run 1)]

theorem disconnected_free_disconnectRun : ∃ s : ServerState ℕ ℕ, s.sessions.attachmentsByClient 0 = none
    ∧ (s.sessions.attachments 0).any fun x => x.acquiring = .lease ∧ x.releases = 1 := by
  obtain ⟨s, hs⟩ : ∃ s, disconnectRun.foldlM (fun s a => if ServerState.Timely s a then ServerState.step s a else none) {}
      = some s := ⟨_, (Option.some_get (by decide)).symm⟩
  have hrest : s.disconnected 0 = true ∧ s.sessions.disconnectedClients 0 = false
      ∧ (s.sessions.attachments 0).any (fun x => x.client = 0 ∧ x.acquiring = .lease) := by
    cases hs
    decide
  obtain ⟨x, hx, hlease⟩ := (Option.any_eq_true _ _).mp hrest.2.2
  obtain ⟨hclient, hlease⟩ := of_decide_eq_true hlease
  obtain ⟨hnone, hreleased⟩ := disconnected_free s (.of_foldlM_allowed hs) hrest.1 hrest.2.1
  refine ⟨s, hnone, (Option.any_eq_true _ _).mpr ⟨x, hx, ?_⟩⟩
  simp [(hreleased 0 x hx hclient).resolve_left (by simp [hlease])]

/-- A call that is still running attaches the client when the disconnection has ended. -/
def lateRun : List (ServerAction ℕ ℕ) :=
  [.accept 0, .disconnect 0, .route (.run 0), .route (.attachClient 0 7), .route (.run 1), .route (.resolved 0 true),
    .route (.opened 0 true), .route (.run 1), .route (.run 1), .route (.acquired 0 true), .route (.run 1)]

/-- The client is gone, and holds a session for ever. -/
theorem disconnected_attached : ∃ s : ServerState ℕ ℕ, Reaches ServerState.step (fun _ _ => True) {} s ∧
    s.disconnected 0 = true ∧ s.sessions.disconnectedClients 0 = false ∧ s.sessions.attachmentsByClient 0 = some 0 := by
  obtain ⟨s, hs⟩ : ∃ s, lateRun.foldlM ServerState.step {} = some s := ⟨_, (Option.some_get (by decide)).symm⟩
  refine ⟨s, .of_foldlM hs, ?_⟩
  cases hs
  decide

end Phi.Server

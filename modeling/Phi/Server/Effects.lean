import Phi.Server.Leases

/-!
# What a step leaves

Attachments are made, and registered, by operations that attach; an operation goes on as what it was (`Effect`).
-/

set_option linter.unusedSectionVars false

namespace Phi.Server

variable {C S : Type} [DecidableEq C] [DecidableEq S]

/-- An operation that attaches this client has not ended. -/
def Router.IsAttaching (r : Router C S) (c : C) : Prop := ∃ i o, r.operations i = some o ∧ o.client = c ∧ o.work.Attaching

/-- The disconnection of this client comes to its end. -/
def Router.EndsDisconnect (r : Router C S) (c : C) : Prop :=
  ∃ i o, r.operations i = some o ∧ o.client = c
    ∧ ((o.work = .disconnect ∧ r.isReady o = true ∧ r.attachmentsByClient c = none)
      ∨ ∃ a, o.work = .releasing a true ∧ (r.releaseSettled a).isSome)

/-- Attachments and registrations that were there, or come from an operation that attaches. -/
structure Effect (r r' : Router C S) : Prop where
  attachments : ∀ a y, r'.attachments a = some y →
    (∃ x, r.attachments a = some x ∧ y.client = x.client ∧ (x.acquiring = .failed → y.acquiring = .failed)
      ∧ (x.Cleared → y.Cleared)) ∨ r.IsAttaching y.client
  registered : ∀ c a, r'.attachmentsByClient c = some a → r.attachmentsByClient c = some a ∨ r.IsAttaching c
  marks : ∀ c, r.disconnectedClients c = true → r'.disconnectedClients c = false → r.EndsDisconnect c

/-- An operation that goes on attaches, or disconnects, if it did so before. -/
structure Router.Advances (r r' : Router C S) : Prop where
  before : ∀ i o', r'.operations i = some o' → ∃ o, r.operations i = some o ∧ o'.client = o.client
    ∧ (o'.work.Attaching → o.work.Attaching) ∧ (o'.work.Disconnects → o.work.Disconnects)
  client : ∀ i, (r'.operations i).map (·.client) = (r.operations i).map (·.client)

namespace Effect

variable {r r' : Router C S}

/-- Neither attachments nor registrations change. -/
theorem same (hattachments : r'.attachments = r.attachments) (hclients : r'.attachmentsByClient = r.attachmentsByClient)
    (hmarks : ∀ c, r.disconnectedClients c = true → r'.disconnectedClients c = true) : Effect r r' where
  attachments a y hy := .inl ⟨y, hattachments ▸ hy, rfl, id, id⟩
  registered c a ha := .inl (hclients ▸ ha)
  marks c hmark hgone := by
    rw [hmarks c hmark] at hgone
    cases hgone

theorem releaseAll (r : Router C S) (chosen : ℕ → ClientAttachment C → Bool) : Effect r (r.releaseAll chosen) where
  attachments a y hy := by
    obtain ⟨x, hx, rfl⟩ := Option.map_eq_some_iff.mp hy
    refine .inl ⟨x, hx, ?_⟩
    split_ifs with hchosen
    · exact ⟨rfl, id, fun hcleared => absurd hcleared (ClientAttachment.not_cleared_of_none hchosen.2)⟩
    · exact ⟨rfl, id, id⟩
  registered c a ha := .inl ha
  marks c hmark hgone := by
    rw [show r.disconnectedClients c = false from hgone] at hmark
    cases hmark

theorem set {a : ℕ} {f : ClientAttachment C → ClientAttachment C} {clients : C → Option ℕ}
    (hf : ∀ x, r.attachments a = some x → (f x).client = x.client ∧ (x.acquiring = .failed → (f x).acquiring = .failed)
      ∧ (x.Cleared → (f x).Cleared))
    (hclients : ∀ c b, clients c = some b → r.attachmentsByClient c = some b) :
    Effect r { r with attachments := modifyAt r.attachments a f, attachmentsByClient := clients } where
  attachments b y hy := by
    rcases modifyAt_eq_some.mp hy with ⟨rfl, x, hx, rfl⟩ | ⟨-, hy⟩
    · exact .inl ⟨x, hx, hf x hx⟩
    · exact .inl ⟨y, hy, rfl, id, id⟩
  registered c b hb := .inl (hclients c b hb)
  marks c hmark hgone := by
    rw [show r.disconnectedClients c = false from hgone] at hmark
    cases hmark

theorem changes {a : ℕ} (hc : Inv.Changes r a r') : Effect r r' := by
  cases hc with
  | set x f hx hf =>
    refine set (fun x' hx' => ?_) fun _ _ => id
    rw [hx] at hx'
    cases hx'
    exact ⟨hf.client, hf.failed, hf.cleared.mpr⟩
  | clear x ok hx hcounted =>
    refine set (fun x' hx' => ⟨rfl, id, fun _ => ⟨_, rfl, trivial⟩⟩) fun c b hb => ?_
    rw [deleteIf_apply] at hb
    split_ifs at hb
    exact hb

/-- Then the operations go on. -/
theorem trans_same {r'' : Router C S} (h : Effect r r') (hattachments : r''.attachments = r'.attachments)
    (hclients : r''.attachmentsByClient = r'.attachmentsByClient)
    (hmarks : r''.disconnectedClients = r'.disconnectedClients) : Effect r r'' where
  attachments := by
    rw [hattachments]
    exact h.attachments
  registered := by
    rw [hclients]
    exact h.registered
  marks := by
    rw [hmarks]
    exact h.marks

theorem unlist (r : Router C S) (p : ℕ) (session : S) (first : Bool) : Effect r (r.unlist p session first) := by
  rw [Router.unlist]
  split_ifs <;> exact same rfl rfl fun _ => id

theorem run {i : ℕ} (hinv : Inv r) (hrun : r.run i = some r') : Effect r r' := by
  obtain ⟨o, ho, hcase⟩ := Router.run_cases hrun
  cases hcase with
  | finish => exact same rfl rfl fun _ => id
  | finishDisconnect hwork =>
    refine ⟨fun a y hy => .inl ⟨y, hy, rfl, id, id⟩, fun c a => .inl, fun c hmark hgone => ?_⟩
    have hgone' : Function.update r.disconnectedClients o.client false c = false := hgone
    rw [Function.update_apply] at hgone'
    split_ifs at hgone' with hc
    · rw [hc]
      exact ⟨i, o, ho, rfl, hwork⟩
    · rw [hgone'] at hmark
      cases hmark
  | acquire session =>
    rw [Router.acquire]
    split
    · exact same rfl rfl fun _ => id
    · split <;> exact same rfl rfl fun _ => id
  | openingFailed current p first session => exact (unlist r p session first).trans_same rfl rfl rfl
  | opened current p first session => exact (unlist r p session first).trans_same rfl rfl rfl
  | replace => exact (releaseAll r _).trans_same rfl rfl rfl
  | letGo => exact (releaseAll r _).trans_same rfl rfl rfl
  | attachTo g hwork =>
    have hattaching : r.IsAttaching o.client := by
      refine ⟨i, o, ho, rfl, ?_⟩
      rcases hwork with ⟨hwork, -⟩ | ⟨a, hwork, -⟩ <;> simp [hwork, Work.Attaching]
    refine ⟨fun a y hy => ?_, fun c a => .inl, fun c hmark hgone => ?_⟩
    · have hy' : Function.update r.attachments r.nextAttachment (some { client := o.client, handle := g }) a = some y := hy
      rw [Function.update_apply] at hy'
      split_ifs at hy'
      · cases hy'
        exact .inr hattaching
      · exact .inl ⟨y, hy', rfl, id, id⟩
    · rw [show r.disconnectedClients c = false from hgone] at hmark
      cases hmark
  | call session a =>
    have hset : Effect r (r.setAttachment a fun x => { x with operations := x.operations + 1 }) :=
      set (fun _ _ => ⟨rfl, id, id⟩) fun _ _ => id
    exact hset.trans_same rfl rfl rfl
  | failed a =>
    have hset : Effect r (r.setAttachment a fun x => { x with member := false }) :=
      set (fun _ _ => ⟨rfl, id, id⟩) fun _ _ => id
    exact hset.trans_same rfl rfl rfl
  | reject => exact (releaseAll r _).trans_same rfl rfl rfl
  | register a x hwork hx hlease hhosted hmember hrefuses =>
    have hclient : x.client = o.client := by
      have hclient := hinv.holder i o a ho (.inl hwork)
      rw [hx] at hclient
      exact Option.some.inj hclient
    refine ⟨fun a y hy => .inl ⟨y, hy, rfl, id, id⟩, fun c b hb => ?_, fun c hmark hgone => ?_⟩
    · have hb' : Function.update r.attachmentsByClient x.client (some a) c = some b := hb
      rw [Function.update_apply] at hb'
      split_ifs at hb' with hc
      · exact .inr ⟨i, o, ho, by rw [hc, hclient], by simp [hwork, Work.Attaching]⟩
      · exact .inl hb'
    · rw [show r.disconnectedClients c = false from hgone] at hmark
      cases hmark

theorem step (hinv : Inv r) {a : Action C S} (hs : r.step a = some r') : Effect r r' := by
  cases a with
  | attachClient client session =>
    cases hs
    split_ifs <;> exact same rfl rfl fun _ => id
  | detachClient client =>
    cases hs
    exact same rfl rfl fun _ => id
  | disconnect client =>
    cases hs
    refine same rfl rfl fun c hmark => ?_
    show Function.update r.disconnectedClients client true c = true
    rw [Function.update_apply, hmark]
    exact ite_self _
  | executeServiceCall client session a =>
    cases hs
    exact same rfl rfl fun _ => id
  | removeSession session =>
    cases hs
    rw [Router.removeSession]
    split_ifs
    · exact same rfl rfl fun _ => id
    · split
      · exact same rfl rfl fun _ => id
      · exact (releaseAll r _).trans_same rfl rfl rfl
  | beginClosing =>
    cases hs
    exact same rfl rfl fun _ => id
  | close =>
    change r.close = some r' at hs
    rw [Router.close] at hs
    split_ifs at hs
    split at hs <;> cases hs <;> exact same rfl rfl fun _ => id
  | run i => exact run hinv hs
  | resolved p ok =>
    change r.resolved p ok = some r' at hs
    rw [Router.resolved] at hs
    split at hs <;> cases hs
    exact same rfl rfl fun _ => id
  | opened p ok =>
    change r.opened p ok = some r' at hs
    rw [Router.opened] at hs
    split at hs
    · split_ifs at hs <;> cases hs <;> exact same rfl rfl fun _ => id
    · cases hs
  | drained p ok =>
    change r.drained p ok = some r' at hs
    rw [Router.drained] at hs
    split at hs <;> cases hs
    exact same rfl rfl fun _ => id
  | acquired a ok => exact changes (hinv.acquired_changes hs)
  | callSettled a awaited => exact changes (hinv.callSettled_changes hs)
  | goOnReleasing a => exact changes (hinv.goOnReleasing_changes hs)
  | released a ok => exact changes (hinv.released_changes hs)
  | terminated g =>
    obtain ⟨x, -, rfl⟩ := Option.map_eq_some_iff.mp hs
    exact same rfl rfl fun _ => id
  | invalidate g =>
    change r.invalidate g = some r' at hs
    rw [Router.invalidate] at hs
    split at hs
    · cases hs
    · split_ifs at hs <;> cases hs
      · exact (releaseAll r _).trans_same rfl rfl rfl
      · exact same rfl rfl fun _ => id
  | goOnRemoving k =>
    change r.goOnRemoving k = some r' at hs
    rw [Router.goOnRemoving] at hs
    split at hs
    · split_ifs at hs
      cases hs
      exact same rfl rfl fun _ => id
    · cases hs
  | removed k ok =>
    change r.removed k ok = some r' at hs
    rw [Router.removed] at hs
    split at hs <;> cases hs
    exact same rfl rfl fun _ => id
  | goOnClosing =>
    change r.goOnClosing = some r' at hs
    rw [Router.goOnClosing] at hs
    split at hs
    · split_ifs at hs
      cases hs
      exact (releaseAll r _).trans_same rfl rfl rfl
    · split_ifs at hs
      cases hs
      exact same rfl rfl fun _ => id
    · split_ifs at hs
      cases hs
      refine ⟨fun a y hy => .inl ⟨y, hy, rfl, id, id⟩, fun c a ha => (by cases ha), fun c hmark hgone => ?_⟩
      rw [show r.disconnectedClients c = false from hgone] at hmark
      cases hmark
    · cases hs
  | handleClosed g ok =>
    change r.handleClosed g ok = some r' at hs
    rw [Router.handleClosed] at hs
    split at hs
    · split_ifs at hs
      cases hs
      exact same rfl rfl fun _ => id
    · cases hs

end Effect

namespace Router.Advances

variable {r r' : Router C S}

theorem same (h : r'.operations = r.operations) : r.Advances r' where
  before _ o ho := ⟨o, h ▸ ho, rfl, id, id⟩
  client _ := by rw [h]

theorem setWork {i : ℕ} {o : Operation C S} {work : Work S} (ho : r.operations i = some o)
    (hattaching : work.Attaching → o.work.Attaching) (hdisconnects : work.Disconnects → o.work.Disconnects)
    (hs : r'.operations = modifyAt r.operations i fun o => { o with work := work }) : r.Advances r' where
  before j o' ho' := by
    rw [hs] at ho'
    rcases modifyAt_eq_some.mp ho' with ⟨rfl, o'', ho'', rfl⟩ | ⟨-, ho'⟩
    · rw [ho] at ho''
      cases ho''
      exact ⟨o, ho, rfl, hattaching, hdisconnects⟩
    · exact ⟨o', ho', rfl, id, id⟩
  client j := by
    rw [hs]
    apply map_modifyAt
    exact fun _ => rfl

theorem run {i : ℕ} (hrun : r.run i = some r') : r.Advances r' := by
  obtain ⟨o, ho, hcase⟩ := Router.run_cases hrun
  have hunlist (p : ℕ) (session : S) (first : Bool) : (r.unlist p session first).operations = r.operations := by
    rw [Router.unlist]
    split_ifs <;> rfl
  have hdone {r'' : Router C S} (hs : r''.operations = modifyAt r.operations i fun o => { o with work := .done }) :
      r.Advances r'' := setWork ho False.elim False.elim hs
  cases hcase with
  | finish => exact hdone rfl
  | finishDisconnect => exact hdone rfl
  | acquire session hwork =>
    have hattaching (work : Work S) (_ : work.Attaching) : o.work.Attaching := by simp [hwork, Work.Attaching]
    rw [Router.acquire]
    split
    · exact setWork ho (hattaching _) False.elim rfl
    · split <;> exact setWork ho (hattaching _) False.elim rfl
  | openingFailed current p first session =>
    refine hdone ?_
    rw [Router.finish, Router.setWork, hunlist]
  | opened current p first session g hwork =>
    have hset : ((r.unlist p session first).setWork i (.acquired current g)).operations
        = modifyAt r.operations i fun o => { o with work := .acquired current g } := by
      rw [Router.setWork, hunlist]
    exact setWork ho (fun _ => by simp [hwork, Work.Attaching]) False.elim hset
  | replace a g hwork => exact setWork ho (fun _ => by simp [hwork, Work.Attaching]) False.elim rfl
  | letGo a disconnect hwork => exact setWork ho False.elim (by cases disconnect <;> simp [hwork, Work.Disconnects]) rfl
  | attachTo g hwork =>
    refine setWork ho (fun _ => ?_) False.elim rfl
    rcases hwork with ⟨hwork, -⟩ | ⟨a, hwork, -⟩ <;> simp [hwork, Work.Attaching]
  | call => exact hdone rfl
  | failed => exact hdone rfl
  | reject a x hwork => exact setWork ho (fun _ => by simp [hwork, Work.Attaching]) False.elim rfl
  | register a x hwork => exact setWork ho (fun _ => by simp [hwork, Work.Attaching]) False.elim rfl

end Router.Advances

/-- The operations are what they were, but for the one that goes on, or is new. -/
theorem Router.operations_of_step {r r' : Router C S} {a : Action C S} (hs : r.step a = some r') :
    r.Advances r' ∨ ∃ c work, r'.operations = (r.runForClient c work).operations
      ∧ (work.Attaching → r.isClosing = false ∧ ∃ session, a = .attachClient c session)
      ∧ (work.Disconnects → a = .disconnect c) := by
  cases a with
  | attachClient client session =>
    cases hs
    split_ifs with hclosing
    · exact .inl (.same rfl)
    · exact .inr ⟨client, .attach session, rfl, fun _ => ⟨by simpa using hclosing, session, rfl⟩, False.elim⟩
  | detachClient client =>
    cases hs
    exact .inr ⟨client, .detach, rfl, False.elim, False.elim⟩
  | disconnect client =>
    cases hs
    exact .inr ⟨client, .disconnect, rfl, False.elim, fun _ => rfl⟩
  | executeServiceCall client session a =>
    cases hs
    exact .inr ⟨client, .call session a, rfl, False.elim, False.elim⟩
  | removeSession session =>
    cases hs
    rw [Router.removeSession]
    split_ifs
    · exact .inl (.same rfl)
    · split <;> exact .inl (.same rfl)
  | beginClosing =>
    cases hs
    exact .inl (.same rfl)
  | close =>
    change r.close = some r' at hs
    rw [Router.close] at hs
    split_ifs at hs
    split at hs <;> cases hs <;> exact .inl (.same rfl)
  | run i => exact .inl (.run hs)
  | resolved p ok =>
    change r.resolved p ok = some r' at hs
    rw [Router.resolved] at hs
    split at hs <;> cases hs
    exact .inl (.same rfl)
  | opened p ok =>
    change r.opened p ok = some r' at hs
    rw [Router.opened] at hs
    split at hs
    · split_ifs at hs <;> cases hs <;> exact .inl (.same rfl)
    · cases hs
  | drained p ok =>
    change r.drained p ok = some r' at hs
    rw [Router.drained] at hs
    split at hs <;> cases hs
    exact .inl (.same rfl)
  | acquired a ok =>
    change r.acquired a ok = some r' at hs
    rw [Router.acquired] at hs
    split at hs
    · cases hs
    · split_ifs at hs <;> cases hs <;> exact .inl (.same rfl)
  | callSettled a awaited =>
    change r.callSettled a awaited = some r' at hs
    rw [Router.callSettled] at hs
    split at hs
    · cases hs
    · split_ifs at hs
      split at hs <;> cases hs <;> exact .inl (.same rfl)
  | goOnReleasing a =>
    change r.goOnReleasing a = some r' at hs
    rw [Router.goOnReleasing] at hs
    split at hs
    · cases hs
    · split at hs
      · cases hs
        exact .inl (.same rfl)
      · split at hs <;> cases hs <;> exact .inl (.same rfl)
      · cases hs
        exact .inl (.same rfl)
      · cases hs
  | released a ok =>
    change r.released a ok = some r' at hs
    rw [Router.released] at hs
    split at hs
    · cases hs
    · split_ifs at hs
      cases hs
      exact .inl (.same rfl)
  | terminated g =>
    obtain ⟨x, -, rfl⟩ := Option.map_eq_some_iff.mp hs
    exact .inl (.same rfl)
  | invalidate g =>
    change r.invalidate g = some r' at hs
    rw [Router.invalidate] at hs
    split at hs
    · cases hs
    · split_ifs at hs <;> cases hs <;> exact .inl (.same rfl)
  | goOnRemoving k =>
    change r.goOnRemoving k = some r' at hs
    rw [Router.goOnRemoving] at hs
    split at hs
    · split_ifs at hs
      cases hs
      exact .inl (.same rfl)
    · cases hs
  | removed k ok =>
    change r.removed k ok = some r' at hs
    rw [Router.removed] at hs
    split at hs <;> cases hs
    exact .inl (.same rfl)
  | goOnClosing =>
    change r.goOnClosing = some r' at hs
    rw [Router.goOnClosing] at hs
    split at hs
    · split_ifs at hs
      cases hs
      exact .inl (.same rfl)
    · split_ifs at hs
      cases hs
      exact .inl (.same rfl)
    · split_ifs at hs
      cases hs
      exact .inl (.same rfl)
    · cases hs
  | handleClosed g ok =>
    change r.handleClosed g ok = some r' at hs
    rw [Router.handleClosed] at hs
    split at hs
    · split_ifs at hs
      cases hs
      exact .inl (.same rfl)
    · cases hs

/-- Closing goes on by itself. -/
theorem Router.closing_of_step {r r' : Router C S} {a : Action C S} (hs : r.step a = some r') :
    r'.closing = r.closing ∨ a = .close ∨ a = .goOnClosing ∨ ∃ g ok, a = .handleClosed g ok := by
  cases a with
  | close => exact .inr (.inl rfl)
  | goOnClosing => exact .inr (.inr (.inl rfl))
  | handleClosed g ok => exact .inr (.inr (.inr ⟨g, ok, rfl⟩))
  | attachClient client session =>
    cases hs
    split_ifs <;> exact .inl rfl
  | removeSession session =>
    cases hs
    rw [Router.removeSession]
    split_ifs
    · exact .inl rfl
    · split <;> exact .inl rfl
  | detachClient client =>
    cases hs
    exact .inl rfl
  | disconnect client =>
    cases hs
    exact .inl rfl
  | executeServiceCall client session a =>
    cases hs
    exact .inl rfl
  | beginClosing =>
    cases hs
    exact .inl rfl
  | run i =>
    obtain ⟨o, ho, hcase⟩ := Router.run_cases hs
    cases hcase with
    | acquire session =>
      rw [Router.acquire]
      split
      · exact .inl rfl
      · split <;> exact .inl rfl
    | openingFailed current p first session =>
      rw [Router.unlist]
      split_ifs <;> exact .inl rfl
    | opened current p first session =>
      rw [Router.unlist]
      split_ifs <;> exact .inl rfl
    | _ => exact .inl rfl
  | resolved p ok =>
    change r.resolved p ok = some r' at hs
    rw [Router.resolved] at hs
    split at hs <;> cases hs
    exact .inl rfl
  | opened p ok =>
    change r.opened p ok = some r' at hs
    rw [Router.opened] at hs
    split at hs
    · split_ifs at hs <;> cases hs <;> exact .inl rfl
    · cases hs
  | drained p ok =>
    change r.drained p ok = some r' at hs
    rw [Router.drained] at hs
    split at hs <;> cases hs
    exact .inl rfl
  | acquired a ok =>
    change r.acquired a ok = some r' at hs
    rw [Router.acquired] at hs
    split at hs
    · cases hs
    · split_ifs at hs <;> cases hs <;> exact .inl rfl
  | callSettled a awaited =>
    change r.callSettled a awaited = some r' at hs
    rw [Router.callSettled] at hs
    split at hs
    · cases hs
    · split_ifs at hs
      split at hs <;> cases hs <;> exact .inl rfl
  | goOnReleasing a =>
    change r.goOnReleasing a = some r' at hs
    rw [Router.goOnReleasing] at hs
    split at hs
    · cases hs
    · split at hs
      · cases hs
        exact .inl rfl
      · split at hs <;> cases hs <;> exact .inl rfl
      · cases hs
        exact .inl rfl
      · cases hs
  | released a ok =>
    change r.released a ok = some r' at hs
    rw [Router.released] at hs
    split at hs
    · cases hs
    · split_ifs at hs
      cases hs
      exact .inl rfl
  | terminated g =>
    obtain ⟨x, -, rfl⟩ := Option.map_eq_some_iff.mp hs
    exact .inl rfl
  | invalidate g =>
    change r.invalidate g = some r' at hs
    rw [Router.invalidate] at hs
    split at hs
    · cases hs
    · split_ifs at hs <;> cases hs <;> exact .inl rfl
  | goOnRemoving k =>
    change r.goOnRemoving k = some r' at hs
    rw [Router.goOnRemoving] at hs
    split at hs
    · split_ifs at hs
      cases hs
      exact .inl rfl
    · cases hs
  | removed k ok =>
    change r.removed k ok = some r' at hs
    rw [Router.removed] at hs
    split at hs <;> cases hs
    exact .inl rfl

end Phi.Server

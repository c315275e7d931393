import Phi.Server.Leases

/-!
# Attached clients

An attachment whose release has not begun is registered for its client, or about to be, and its session is hosted and not
being closed (`Live`). That is so in every run in which no client is attached to a session while the session is being
removed: `removeSession` releases the attachments that it finds, and closes the handle whoever has come since.
-/

set_option linter.unusedSectionVars false

namespace Phi.Server

variable {C S : Type} [DecidableEq C] [DecidableEq S]

namespace Router

variable (r : Router C S)

/-- `removeSession` is under way for the session of this handle. -/
def isBeingRemoved (g : ℕ) : Bool :=
  (List.range r.nextRemoval).any fun k => (r.removals k).any fun m => m.handle = g && m.state ≠ .done

/-- The handle whose `attachClient` the operation calls next. -/
def attachesTo (i : ℕ) : Option ℕ :=
  (r.operations i).bind fun o =>
    match o.work with
    | .acquired none g => if r.Refuses o.client then none else some g
    | .replacing a g => if r.releaseSettled a = some true then some g else none
    | _ => none

/-- Nobody is attached to a session that is being removed. -/
def Orderly (r : Router C S) : Action C S → Prop
  | .run i => ∀ g ∈ r.attachesTo i, r.isBeingRemoved g = false
  | _ => True

instance (r : Router C S) (a : Action C S) : Decidable (r.Orderly a) := by
  cases a <;> unfold Orderly <;> infer_instance

end Router

/-- The handle that the operation is to attach to. -/
def Work.handle : Work S → Option ℕ
  | .acquired _ g | .replacing _ g => some g
  | _ => none

/-- `close` has been called on the handles of all sessions. -/
def Closing.ClosesHandles : Closing → Prop
  | .closing _ _ | .closed => True
  | _ => False

/-- All that is spoken of has come into being. -/
structure Known (r : Router C S) : Prop where
  removal : ∀ k, r.nextRemoval ≤ k → r.removals k = none
  removed : ∀ k m, r.removals k = some m → (r.handles m.handle).map (·.session) = some m.session
  attachment : ∀ a x, r.attachments a = some x → x.handle < r.nextHandle
  work : ∀ i o g, r.operations i = some o → o.work.handle = some g → g < r.nextHandle
  opening : ∀ p session g, r.openings p = some ⟨session, .settled (some g)⟩ → g < r.nextHandle

structure Live (r : Router C S) : Prop where
  registered : ∀ c a x, r.attachmentsByClient c = some a → r.attachments a = some x → x.releasing = none →
    x.member = true ∧ r.IsHosted x.handle
  calm : ∀ a x, r.attachments a = some x → x.member = true → x.releasing = none → r.IsHosted x.handle →
    (r.handles x.handle).map (·.closing) = some false ∧ ∀ k m, r.removals k = some m → m.handle = x.handle → m.state = .done
  closingHandle : ∀ g y, r.IsHosted g → r.handles g = some y → y.closing = true →
    (∃ k m, r.removals k = some m ∧ m.handle = g ∧ m.state ≠ .done) ∨ r.closing.ClosesHandles
  owned : ∀ a x, r.attachments a = some x → x.releasing = none → (x.acquiring = .failed ∧ x.member = false)
    ∨ r.attachmentsByClient x.client = some a ∨ ∃ i o, r.operations i = some o ∧ o.work = .acquiring a

namespace Known

variable {r r' : Router C S}

theorem init : Known ({} : Router C S) where
  removal _ _ := rfl
  removed _ _ h := by cases h
  attachment _ _ h := by cases h
  work _ _ _ h := by cases h
  opening _ _ _ h := by cases h

theorem congr (h : Known r) (hnext : r.nextHandle ≤ r'.nextHandle)
    (hhandles : ∀ g session, (r.handles g).map (·.session) = some session → (r'.handles g).map (·.session) = some session)
    (hremovals : r'.removals = r.removals ∧ r'.nextRemoval = r.nextRemoval) (hattachments : r'.attachments = r.attachments)
    (hoperations : r'.operations = r.operations) (hopenings : r'.openings = r.openings) : Known r' := by
  obtain ⟨h1, h2, h3, h4, h5⟩ := h
  refine ⟨?_, ?_, ?_, ?_, ?_⟩
  · rwa [hremovals.1, hremovals.2]
  · rw [hremovals.1]
    exact fun k m hm => hhandles _ _ (h2 k m hm)
  · rw [hattachments]
    exact fun a x hx => (h3 a x hx).trans_le hnext
  · rw [hoperations]
    exact fun i o g ho hg => (h4 i o g ho hg).trans_le hnext
  · rw [hopenings]
    exact fun p session g hp => (h5 p session g hp).trans_le hnext

theorem setWork (h : Known r) (i : ℕ) (work : Work S) (hwork : ∀ g, work.handle = some g → g < r.nextHandle) :
    Known (r.setWork i work) := by
  refine { h with work := fun j o g ho hg => ?_ }
  rcases modifyAt_eq_some.mp ho with ⟨rfl, o', -, rfl⟩ | ⟨-, ho⟩
  · exact hwork g hg
  · exact h.work j o g ho hg

theorem mapAttachments (h : Known r) {f : ℕ → ClientAttachment C → ClientAttachment C}
    (hf : ∀ a x, (f a x).handle = x.handle) : Known { r with attachments := fun a => (r.attachments a).map (f a) } := by
  refine { h with attachment := fun a y hy => ?_ }
  obtain ⟨x, hx, rfl⟩ := Option.map_eq_some_iff.mp hy
  rw [hf]
  exact h.attachment a x hx

theorem setAttachment (h : Known r) (a : ℕ) {f : ClientAttachment C → ClientAttachment C}
    (hf : ∀ x, (f x).handle = x.handle) : Known (r.setAttachment a f) := by
  rw [Router.setAttachment, modifyAt_eq_map]
  refine @mapAttachments _ _ _ _ _ h (fun b x => if b = a then f x else x) fun b x => ?_
  split_ifs
  · exact hf x
  · rfl

theorem releaseAll (h : Known r) (chosen : ℕ → ClientAttachment C → Bool) : Known (r.releaseAll chosen) := by
  refine h.mapAttachments fun a x => ?_
  split_ifs <;> rfl

theorem changes (h : Known r) {a : ℕ} (hc : Inv.Changes r a r') : Known r' := by
  cases hc with
  | set x f hx hf =>
    refine { h with attachment := fun b y hy => ?_ }
    rcases modifyAt_eq_some.mp hy with ⟨rfl, x', hx', rfl⟩ | ⟨-, hy⟩
    · rw [hx] at hx'
      cases hx'
      rw [hf.handle]
      exact h.attachment b x hx
    · exact h.attachment b y hy
  | clear x ok hx hcounted =>
    have hset : Known (r.setAttachment a fun x => { x with member := false, releasing := some (.publishing ok) }) :=
      h.setAttachment a fun _ => rfl
    exact hset.congr le_rfl (fun _ _ => id) ⟨rfl, rfl⟩ rfl rfl rfl

theorem hosted (h : Inv r) {session : S} {g : ℕ} (hg : r.hostedSessions session = some g) : g < r.nextHandle := by
  by_contra hlt
  have hmap := h.hosting.hosted session g hg
  rw [h.hosting.freshHandle g (by omega)] at hmap
  cases hmap

theorem run (h : Known r) (hinv : Inv r) {i : ℕ} (hrun : r.run i = some r') : Known r' := by
  obtain ⟨o, ho, hcase⟩ := Router.run_cases hrun
  have hidle (r₁ : Router C S) (h₁ : Known r₁) (c : C) : Known (r₁.finish i c) :=
    (h₁.setWork i .done fun _ hg => by cases hg).congr le_rfl (fun _ _ => id) ⟨rfl, rfl⟩ rfl rfl rfl
  have hunlist (p : ℕ) (session : S) (first : Bool) : Known (r.unlist p session first) := by
    rw [Router.unlist]
    split_ifs
    · exact h.congr le_rfl (fun _ _ => id) ⟨rfl, rfl⟩ rfl rfl rfl
    · exact h
  cases hcase with
  | finish => exact hidle r h _
  | finishDisconnect => exact (hidle r h o.client).congr le_rfl (fun _ _ => id) ⟨rfl, rfl⟩ rfl rfl rfl
  | acquire session hwork hready hrefuses =>
    rw [Router.acquire]
    split
    next g hg =>
      refine h.setWork i _ fun g' hg' => ?_
      cases hg'
      exact hosted hinv hg
    · split
      · exact h.setWork i _ fun _ hg => by cases hg
      · have hnew := h.setWork i (.opening (r.attachmentsByClient o.client) r.nextOpening true)
          fun _ hg => by cases hg
        refine { hnew with opening := fun p session' g hp => ?_ }
        simp only [Function.update_apply] at hp
        split_ifs at hp
        · cases hp
        · exact h.opening p session' g hp
  | openingFailed current p first session hwork hopening => exact hidle _ (hunlist p session first) _
  | opened current p first session g hwork hopening =>
    have hnext : (r.unlist p session first).nextHandle = r.nextHandle := by
      rw [Router.unlist]
      split_ifs <;> rfl
    refine (hunlist p session first).setWork i _ fun g' hg' => ?_
    cases hg'
    rw [hnext]
    exact h.opening p session g hopening
  | replace a g hwork hrefuses =>
    refine (h.releaseAll _).setWork i _ fun g' hg' => ?_
    cases hg'
    exact h.work i o g ho (by rw [hwork]; rfl)
  | letGo a disconnect hwork hready hclient => exact (h.releaseAll _).setWork i _ fun _ hg => by cases hg
  | attachTo g hwork =>
    have hg : g < r.nextHandle := by
      rcases hwork with ⟨hwork, -⟩ | ⟨a, hwork, -⟩ <;> exact h.work i o g ho (by rw [hwork]; rfl)
    have hset := h.setWork i (.acquiring r.nextAttachment) fun _ hg => by cases hg
    refine { hset with attachment := fun a x hx => ?_ }
    have hx' : Function.update r.attachments r.nextAttachment _ a = some x := hx
    rw [Function.update_apply] at hx'
    split_ifs at hx'
    · cases hx'
      exact hg
    · exact h.attachment a x hx'
  | call session a hwork hready hrequires =>
    have hset : Known (r.setAttachment a fun x => { x with operations := x.operations + 1 }) :=
      h.setAttachment a fun _ => rfl
    exact hidle _ hset _
  | failed a x hwork hx hfailed =>
    have hset : Known (r.setAttachment a fun x => { x with member := false }) := h.setAttachment a fun _ => rfl
    exact hidle _ hset _
  | reject a x hwork hx hlease => exact (h.releaseAll _).setWork i _ fun _ hg => by cases hg
  | register a x hwork hx hlease hhosted hmember hrefuses =>
    exact (h.setWork i .publishing fun _ hg => by cases hg).congr le_rfl (fun _ _ => id) ⟨rfl, rfl⟩ rfl rfl rfl

theorem runForClient (h : Known r) (c : C) {work : Work S} (hwork : work.handle = none) : Known (r.runForClient c work) := by
  refine { h with work := fun i o g ho hg => ?_ }
  rcases Queues.update_eq_some.mp ho with ⟨-, rfl⟩ | ⟨-, ho⟩
  · rw [hwork] at hg
    cases hg
  · exact h.work i o g ho hg

/-- An opening settles, or goes on, without a handle. -/
theorem setOpening (h : Known r) (p : ℕ) (state : OpeningState) (hstate : ∀ g, state ≠ .settled (some g)) :
    Known (r.setOpening p state) := by
  refine { h with opening := fun p' session g hp => ?_ }
  rcases modifyAt_eq_some.mp hp with ⟨-, y, -, heq⟩ | ⟨-, hp⟩
  · cases heq
    exact absurd rfl (hstate g)
  · exact h.opening p' session g hp

theorem map_setHandle (g : ℕ) {f : Handle S → Handle S} (hf : ∀ x, (f x).session = x.session) (g' : ℕ) (session : S)
    (h : (r.handles g').map (·.session) = some session) : ((r.setHandle g f).handles g').map (·.session) = some session :=
  (map_modifyAt hf g').trans h

theorem opened (h : Known r) (hinv : Inv r) {p : ℕ} {ok : Bool} (hs : r.opened p ok = some r') : Known r' := by
  have hhandles (y : Handle S) (g : ℕ) (session : S) (hg : (r.handles g).map (·.session) = some session) :
      (Function.update r.handles r.nextHandle (some y) g).map (·.session) = some session := by
    rw [Function.update_of_ne, hg]
    rintro rfl
    rw [hinv.hosting.freshHandle _ le_rfl] at hg
    cases hg
  rw [Router.opened] at hs
  split at hs
  next session hp =>
    split_ifs at hs
    · cases hs
      exact (h.setOpening p (.draining r.nextHandle) (by simp)).congr (Nat.le_succ _) (hhandles _) ⟨rfl, rfl⟩ rfl rfl rfl
    · cases hs
      have hnew : Known { r with
          handles := Function.update r.handles r.nextHandle (some { session := session, closing := r.isClosing })
          nextHandle := r.nextHandle + 1 } :=
        h.congr (Nat.le_succ _) (hhandles _) ⟨rfl, rfl⟩ rfl rfl rfl
      refine { hnew with opening := fun p' session' g hp' => ?_ }
      rcases modifyAt_eq_some.mp hp' with ⟨-, y, -, heq⟩ | ⟨-, hp'⟩
      · cases heq
        exact Nat.lt_succ_self _
      · exact hnew.opening p' session' g hp'
    · cases hs
      exact h.setOpening p _ (by simp)
  · cases hs

theorem setRemoval (h : Known r) (k : ℕ) {f : Removal S → Removal S}
    (hf : ∀ m, (f m).handle = m.handle ∧ (f m).session = m.session) :
    Known { r with removals := modifyAt r.removals k f } := by
  refine { h with removal := fun j hj => ?_, removed := fun j m hm => ?_ }
  · show modifyAt r.removals k f j = none
    rw [modifyAt_apply, h.removal j hj]
    exact ite_self _
  · rcases modifyAt_eq_some.mp hm with ⟨-, m', hm', rfl⟩ | ⟨-, hm⟩
    · rw [(hf m').1, (hf m').2]
      exact h.removed j m' hm'
    · exact h.removed j m hm

theorem removeSession (h : Known r) (hinv : Inv r) (session : S) : Known (r.removeSession session) := by
  rw [Router.removeSession]
  split_ifs
  · exact h
  · split
    · exact h
    next g hg =>
      refine { h.releaseAll fun _ x => x.member && decide (x.handle = g) with removal := ?_, removed := ?_ }
      · intro k hk
        have hlt : r.nextRemoval + 1 ≤ k := hk
        show Function.update r.removals r.nextRemoval _ k = none
        rw [Function.update_apply, if_neg (by omega), h.removal k (by omega)]
      · intro k m hm
        have hm' : Function.update r.removals r.nextRemoval _ k = some m := hm
        rw [Function.update_apply] at hm'
        split_ifs at hm'
        · cases hm'
          exact hinv.hosting.hosted session g hg
        · exact h.removed k m hm'

theorem step (h : Known r) (hinv : Inv r) {a : Action C S} (hs : r.step a = some r') : Known r' := by
  cases a with
  | attachClient client session =>
    cases hs
    split_ifs
    · exact h
    · exact h.runForClient client rfl
  | detachClient client =>
    cases hs
    exact h.runForClient client rfl
  | disconnect client =>
    cases hs
    have hmark : Known { r with disconnectedClients := Function.update r.disconnectedClients client true } :=
      h.congr le_rfl (fun _ _ => id) ⟨rfl, rfl⟩ rfl rfl rfl
    exact hmark.runForClient client rfl
  | executeServiceCall client session a =>
    cases hs
    exact h.runForClient client rfl
  | removeSession session =>
    cases hs
    exact h.removeSession hinv session
  | beginClosing =>
    cases hs
    exact h.congr le_rfl (fun _ _ => id) ⟨rfl, rfl⟩ rfl rfl rfl
  | close =>
    change r.close = some r' at hs
    rw [Router.close] at hs
    split_ifs at hs
    split at hs <;> cases hs
    · exact h.congr le_rfl (fun _ _ => id) ⟨rfl, rfl⟩ rfl rfl rfl
    · exact h
  | run i => exact h.run hinv hs
  | resolved p ok =>
    change r.resolved p ok = some r' at hs
    rw [Router.resolved] at hs
    split at hs <;> cases hs
    exact h.setOpening p _ (by cases ok <;> simp)
  | opened p ok => exact h.opened hinv hs
  | drained p ok =>
    change r.drained p ok = some r' at hs
    rw [Router.drained] at hs
    split at hs <;> cases hs
    refine (h.setOpening p (.settled none) (by simp)).congr le_rfl ?_ ⟨rfl, rfl⟩ rfl rfl rfl
    exact map_setHandle _ fun _ => rfl
  | acquired a ok => exact h.changes (hinv.acquired_changes hs)
  | callSettled a awaited => exact h.changes (hinv.callSettled_changes hs)
  | goOnReleasing a => exact h.changes (hinv.goOnReleasing_changes hs)
  | released a ok => exact h.changes (hinv.released_changes hs)
  | terminated g =>
    obtain ⟨x, -, rfl⟩ := Option.map_eq_some_iff.mp hs
    refine h.congr le_rfl ?_ ⟨rfl, rfl⟩ rfl rfl rfl
    exact map_setHandle _ fun _ => rfl
  | invalidate g =>
    change r.invalidate g = some r' at hs
    rw [Router.invalidate] at hs
    split at hs
    · cases hs
    · split_ifs at hs <;> cases hs
      · exact (h.releaseAll fun _ x => x.member && decide (x.handle = g)).congr le_rfl (fun _ _ => id) ⟨rfl, rfl⟩ rfl rfl rfl
      · exact h
  | goOnRemoving k =>
    change r.goOnRemoving k = some r' at hs
    rw [Router.goOnRemoving] at hs
    split at hs
    · split_ifs at hs
      cases hs
      have hset : Known { r with removals := modifyAt r.removals k fun m => { m with state := .closing } } :=
        h.setRemoval k fun _ => ⟨rfl, rfl⟩
      refine hset.congr le_rfl ?_ ⟨rfl, rfl⟩ rfl rfl rfl
      exact map_setHandle (r := r) _ fun _ => rfl
    · cases hs
  | removed k ok =>
    change r.removed k ok = some r' at hs
    rw [Router.removed] at hs
    split at hs <;> cases hs
    have hset : Known { r with removals := modifyAt r.removals k fun m => { m with state := .done } } :=
      h.setRemoval k fun _ => ⟨rfl, rfl⟩
    refine hset.congr le_rfl ?_ ⟨rfl, rfl⟩ rfl rfl rfl
    exact map_setHandle (r := r) _ fun _ => rfl
  | goOnClosing =>
    change r.goOnClosing = some r' at hs
    rw [Router.goOnClosing] at hs
    split at hs
    · split_ifs at hs
      cases hs
      exact (h.releaseAll fun _ x => x.member && decide (r.IsHosted x.handle)).congr le_rfl (fun _ _ => id) ⟨rfl, rfl⟩ rfl rfl rfl
    · split_ifs at hs
      cases hs
      refine h.congr le_rfl (fun g session hg => ?_) ⟨rfl, rfl⟩ rfl rfl rfl
      obtain ⟨x, hx, rfl⟩ := Option.map_eq_some_iff.mp hg
      simp only [hx, Option.map_some]
      split_ifs <;> rfl
    · split_ifs at hs
      cases hs
      exact h.congr le_rfl (fun _ _ => id) ⟨rfl, rfl⟩ rfl rfl rfl
    · cases hs
  | handleClosed g ok =>
    change r.handleClosed g ok = some r' at hs
    rw [Router.handleClosed] at hs
    split at hs
    · split_ifs at hs
      cases hs
      refine h.congr le_rfl ?_ ⟨rfl, rfl⟩ rfl rfl rfl
      exact map_setHandle (r := r) _ fun _ => rfl
    · cases hs

end Known

namespace Live

variable {r r' : Router C S}

theorem init : Live ({} : Router C S) where
  registered _ _ _ h := by cases h
  calm _ _ h := by cases h
  closingHandle _ _ _ h := by cases h
  owned _ _ h := by cases h

theorem congr (h : Live r) (hsessions : r'.toSessions = r.toSessions) (hattachments : r'.toAttachments = r.toAttachments)
    (hoperations : r'.operations = r.operations) (hremovals : r'.removals = r.removals) (hclosing : r'.closing = r.closing) :
    Live r' := by
  have hhosted (g : ℕ) : r'.IsHosted g ↔ r.IsHosted g := by
    rw [Router.IsHosted, Router.IsHosted, hsessions]
  obtain ⟨h1, h2, h3, h4⟩ := h
  refine ⟨?_, ?_, ?_, ?_⟩
  · simp only [hhosted]
    rwa [hattachments]
  · simp only [hhosted]
    rwa [hattachments, hsessions, hremovals]
  · simp only [hhosted]
    rwa [hsessions, hremovals, hclosing]
  · rwa [hattachments, hoperations]

/-- An operation goes on; the attachment that it asked for is registered, or being released, or no lease came. -/
theorem setWork (h : Live r) {i : ℕ} {o : Operation C S} (ho : r.operations i = some o) (work : Work S)
    (hheld : ∀ a x, o.work = .acquiring a → r.attachments a = some x → x.releasing = none →
      (x.acquiring = .failed ∧ x.member = false) ∨ r.attachmentsByClient x.client = some a) :
    Live (r.setWork i work) := by
  refine { h with owned := fun a x hx hnone => ?_ }
  rcases h.owned a x hx hnone with hfailed | hclient | ⟨j, o', ho', hwork⟩
  · exact .inl hfailed
  · exact .inr (.inl hclient)
  · by_cases hj : j = i
    · rw [hj, ho] at ho'
      cases ho'
      exact (hheld a x hwork hx hnone).imp_right .inl
    · exact .inr (.inr ⟨j, o', modifyAt_eq_some.mpr (.inr ⟨hj, ho'⟩), hwork⟩)

theorem runForClient (h : Live r) (hinv : Inv r) (c : C) (work : Work S) : Live (r.runForClient c work) := by
  refine { h with owned := fun a x hx hnone => ?_ }
  refine (h.owned a x hx hnone).imp_right fun hkept => hkept.imp_right fun ⟨j, o', ho', hwork⟩ => ?_
  refine ⟨j, o', Queues.update_eq_some.mpr (.inr ⟨?_, ho'⟩), hwork⟩
  rintro rfl
  rw [hinv.freshOperation _ le_rfl] at ho'
  cases ho'

/-- Attachments change, and none is made new. -/
theorem mapAttachments (h : Live r) {f : ℕ → ClientAttachment C → ClientAttachment C}
    (hf : ∀ a x, r.attachments a = some x → x.Becomes (f a x) ∧ (f a x).member = x.member) :
    Live { r with attachments := fun a => (r.attachments a).map (f a) } where
  registered c a y hclient hy hnone := by
    obtain ⟨x, hx, rfl⟩ := Option.map_eq_some_iff.mp hy
    obtain ⟨hbecomes, hmember⟩ := hf a x hx
    rw [hmember, hbecomes.handle]
    exact h.registered c a x hclient hx (hbecomes.releasing hnone)
  calm a y hy hmember hnone hhosted := by
    obtain ⟨x, hx, rfl⟩ := Option.map_eq_some_iff.mp hy
    obtain ⟨hbecomes, hsame⟩ := hf a x hx
    rw [hbecomes.handle] at hhosted ⊢
    exact h.calm a x hx (hsame ▸ hmember) (hbecomes.releasing hnone) hhosted
  closingHandle := h.closingHandle
  owned a y hy hnone := by
    obtain ⟨x, hx, rfl⟩ := Option.map_eq_some_iff.mp hy
    obtain ⟨hbecomes, hsame⟩ := hf a x hx
    rw [hsame, hbecomes.client]
    exact (h.owned a x hx (hbecomes.releasing hnone)).imp_left fun hfailed => ⟨hbecomes.failed hfailed.1, hfailed.2⟩

theorem releaseAll (h : Live r) (chosen : ℕ → ClientAttachment C → Bool) : Live (r.releaseAll chosen) := by
  refine h.mapAttachments fun a x _ => ?_
  split_ifs with hchosen
  · exact ⟨.beginRelease hchosen.2 _, rfl⟩
  · exact ⟨.refl x, rfl⟩

theorem setAttachment (h : Live r) {a : ℕ} {f : ClientAttachment C → ClientAttachment C}
    (hf : ∀ x, r.attachments a = some x → x.Becomes (f x) ∧ (f x).member = x.member) : Live (r.setAttachment a f) := by
  rw [Router.setAttachment, modifyAt_eq_map]
  refine @mapAttachments _ _ _ _ _ h (fun b x => if b = a then f x else x) fun b x hx => ?_
  split_ifs with hb
  · exact hf x (hb ▸ hx)
  · exact ⟨.refl x, rfl⟩

/-- An attachment for which no lease came is taken out of its session. -/
theorem leave (h : Live r) (hinv : Inv r) {a : ℕ} {x : ClientAttachment C} (hx : r.attachments a = some x)
    (hfailed : x.acquiring = .failed) : Live (r.setAttachment a fun x => { x with member := false }) where
  registered c b y hclient hy hnone := by
    rcases modifyAt_eq_some.mp hy with ⟨rfl, x', hx', rfl⟩ | ⟨-, hy⟩
    · obtain ⟨x'', hx'', -, hlease, -⟩ := hinv.registered c b hclient
      rw [hx] at hx''
      cases hx''
      rw [hfailed] at hlease
      cases hlease
    · exact h.registered c b y hclient hy hnone
  calm b y hy hmember hnone hhosted := by
    rcases modifyAt_eq_some.mp hy with ⟨rfl, x', hx', rfl⟩ | ⟨-, hy⟩
    · cases hmember
    · exact h.calm b y hy hmember hnone hhosted
  closingHandle := h.closingHandle
  owned b y hy hnone := by
    rcases modifyAt_eq_some.mp hy with ⟨rfl, x', hx', rfl⟩ | ⟨-, hy⟩
    · rw [hx] at hx'
      cases hx'
      exact .inl ⟨hfailed, rfl⟩
    · exact h.owned b y hy hnone

theorem changes (h : Live r) {a : ℕ} (hc : Inv.Changes r a r') : Live r' := by
  cases hc with
  | set x f hx hf =>
    refine h.setAttachment fun x' hx' => ?_
    rw [hx] at hx'
    cases hx'
    exact ⟨hf.toBecomes, hf.kept⟩
  | clear x ok hx hcounted =>
    have hdelete {c : C} {b : ℕ} (hb : deleteIf r.attachmentsByClient x.client a c = some b) :
        r.attachmentsByClient c = some b := by
      rw [deleteIf_apply] at hb
      split_ifs at hb
      exact hb
    refine ⟨?_, ?_, h.closingHandle, ?_⟩
    · intro c b y hclient hy hnone
      rcases modifyAt_eq_some.mp hy with ⟨rfl, x', -, rfl⟩ | ⟨-, hy⟩
      · cases hnone
      · exact h.registered c b y (hdelete hclient) hy hnone
    · intro b y hy hmember hnone hhosted
      rcases modifyAt_eq_some.mp hy with ⟨rfl, x', -, rfl⟩ | ⟨-, hy⟩
      · cases hnone
      · exact h.calm b y hy hmember hnone hhosted
    · intro b y hy hnone
      rcases modifyAt_eq_some.mp hy with ⟨rfl, x', -, rfl⟩ | ⟨hne, hy⟩
      · cases hnone
      · refine (h.owned b y hy hnone).imp_right fun hkept => hkept.imp_left fun hclient => ?_
        show deleteIf r.attachmentsByClient x.client a y.client = some b
        rw [deleteIf_apply, if_neg, hclient]
        rintro ⟨hsame, hlast⟩
        rw [← hsame, hclient] at hlast
        exact hne (Option.some.inj hlast)

/-- The sessions change; a new one may be hosted. -/
theorem setSessions (h : Live r) (hinv : Inv r) (hknown : Known r) {s : Sessions S} (hs : Hosting s)
    (hkept : ∀ session g, r.hostedSessions session = some g → s.hostedSessions session = some g)
    (hnew : ∀ session g, s.hostedSessions session = some g → r.hostedSessions session = some g
      ∨ (g = r.nextHandle ∧ (s.handles g).map (·.closing) = some false))
    (hclosing : ∀ g, g < r.nextHandle → (s.handles g).map (·.closing) = (r.handles g).map (·.closing)) :
    Live { r with toSessions := s } := by
  have hiff (g : ℕ) : { r with toSessions := s }.IsHosted g ↔ ∃ session, s.hostedSessions session = some g :=
    @Inv.isHosted_iff _ _ _ _ { r with toSessions := s } hs g
  have hold {g : ℕ} (hg : g < r.nextHandle) (hhosted : { r with toSessions := s }.IsHosted g) : r.IsHosted g := by
    obtain ⟨session, hsession⟩ := (hiff g).mp hhosted
    refine (Inv.isHosted_iff hinv.hosting g).mpr ⟨session, (hnew session g hsession).resolve_right ?_⟩
    rintro ⟨rfl, -⟩
    exact lt_irrefl _ hg
  refine ⟨?_, ?_, ?_, h.owned⟩
  · intro c a x hclient hx hnone
    obtain ⟨hmember, hhosted⟩ := h.registered c a x hclient hx hnone
    obtain ⟨session, hsession⟩ := (Inv.isHosted_iff hinv.hosting _).mp hhosted
    exact ⟨hmember, (hiff _).mpr ⟨session, hkept session _ hsession⟩⟩
  · intro a x hx hmember hnone hhosted
    have hlt := hknown.attachment a x hx
    obtain ⟨hopen, hremovals⟩ := h.calm a x hx hmember hnone (hold hlt hhosted)
    exact ⟨(hclosing _ hlt).trans hopen, hremovals⟩
  · intro g y hhosted hy hyclosing
    obtain ⟨session, hsession⟩ := (hiff g).mp hhosted
    have hs' : s.handles g = some y := hy
    rcases hnew session g hsession with hg | ⟨-, hfalse⟩
    · have hlt := Known.hosted hinv hg
      have hsame := hclosing g hlt
      rw [hs', Option.map_some, hyclosing] at hsame
      obtain ⟨y', hy', hy'closing⟩ := Option.map_eq_some_iff.mp hsame.symm
      exact h.closingHandle g y' (hold hlt hhosted) hy' hy'closing
    · rw [hs', Option.map_some, hyclosing] at hfalse
      cases hfalse

/-! ### Steps -/

/-- All removals of this session have ended. -/
theorem removals_done (hknown : Known r) {g : ℕ} (h : r.isBeingRemoved g = false) {k : ℕ} {m : Removal S}
    (hm : r.removals k = some m) (hg : m.handle = g) : m.state = .done := by
  have hlt : k < r.nextRemoval := by
    by_contra hle
    rw [hknown.removal k (by omega)] at hm
    cases hm
  rw [Router.isBeingRemoved, List.any_eq_false] at h
  have hk := h k (List.mem_range.mpr hlt)
  simpa [hm, hg] using hk

/-- A client is attached to a session that is not being removed. -/
theorem attachTo (h : Live r) (hinv : Inv r) (hknown : Known r) {i g : ℕ} {o : Operation C S}
    (ho : r.operations i = some o) (hwork : ∀ a, o.work ≠ .acquiring a) (hattaching : o.work.Attaching)
    (hremoved : r.isBeingRemoved g = false) (hg : g < r.nextHandle) : Live (r.attachTo i o.client g) := by
  have hnext := hinv.freshAttachment _ le_rfl
  have hset : Live (r.setWork i (.acquiring r.nextAttachment)) :=
    h.setWork ho _ fun a x hacquiring => absurd hacquiring (hwork a)
  have hold {a : ℕ} {x : ClientAttachment C}
      (hx : Function.update r.attachments r.nextAttachment (some { client := o.client, handle := g }) a = some x) :
      (a = r.nextAttachment ∧ x = { client := o.client, handle := g }) ∨ (a ≠ r.nextAttachment ∧ r.attachments a = some x) := by
    rw [Function.update_apply] at hx
    split_ifs at hx with ha
    · cases hx
      exact .inl ⟨ha, rfl⟩
    · exact .inr ⟨ha, hx⟩
  refine ⟨?_, ?_, h.closingHandle, ?_⟩
  · intro c a x hclient hx hnone
    rcases hold hx with ⟨rfl, -⟩ | ⟨-, hx⟩
    · obtain ⟨x', hx', -⟩ := hinv.registered c _ hclient
      rw [hnext] at hx'
      cases hx'
    · exact h.registered c a x hclient hx hnone
  · intro a x hx hmember hnone hhosted
    rcases hold hx with ⟨rfl, rfl⟩ | ⟨-, hx⟩
    · refine ⟨?_, fun k m hm hmg => removals_done hknown hremoved hm hmg⟩
      have hhosted' : r.IsHosted g := hhosted
      obtain ⟨y, hy, -⟩ := Option.bind_eq_some_iff.mp hhosted'
      show (r.handles g).map (·.closing) = some false
      rw [hy, Option.map_some]
      congr 1
      by_contra hclosing
      rw [Bool.not_eq_false] at hclosing
      rcases h.closingHandle g y hhosted' hy hclosing with ⟨k, m, hm, hmg, hstate⟩ | hcloses
      · exact hstate (removals_done hknown hremoved hm hmg)
      · refine hinv.quiet ?_ i o ho hattaching
        revert hcloses
        cases r.closing <;> simp [Closing.ClosesHandles, Closing.Quiet]
    · exact h.calm a x hx hmember hnone hhosted
  · intro a x hx hnone
    rcases hold hx with ⟨rfl, rfl⟩ | ⟨-, hx⟩
    · exact .inr (.inr ⟨i, _, modifyAt_eq_some.mpr (.inl ⟨rfl, o, ho, rfl⟩), rfl⟩)
    · exact hset.owned a x hx hnone

theorem run (h : Live r) (hinv : Inv r) (hknown : Known r) {i : ℕ} (horderly : r.Orderly (.run i))
    (hrun : r.run i = some r') : Live r' := by
  obtain ⟨o, ho, hcase⟩ := Router.run_cases hrun
  have hidle {r₁ : Router C S} (h₁ : Live r₁) (ho₁ : r₁.operations i = some o) (c : C) (hwork : ∀ a, o.work ≠ .acquiring a) :
      Live (r₁.finish i c) :=
    (h₁.setWork ho₁ .done fun a x hacquiring => absurd hacquiring (hwork a)).congr rfl rfl rfl rfl rfl
  cases hcase with
  | finish hbegun hdone hacquiring hrejecting hmark => exact hidle h ho _ hacquiring
  | finishDisconnect hwork =>
    refine (hidle h ho o.client fun a hacquiring => ?_).congr rfl rfl rfl rfl rfl
    rcases hwork with ⟨hwork, -⟩ | ⟨b, hwork, -⟩ <;> rw [hwork] at hacquiring <;> cases hacquiring
  | acquire session hwork hready hrefuses =>
    have hset (work : Work S) : Live (r.setWork i work) :=
      h.setWork ho work fun a x hacquiring => by rw [hwork] at hacquiring; cases hacquiring
    rw [Router.acquire]
    split
    · exact hset _
    · split
      · exact hset _
      next hhosted hopening => exact ⟨(hset _).registered, (hset _).calm, (hset _).closingHandle, (hset _).owned⟩
  | openingFailed current p first session hwork hopening =>
    obtain ⟨table, heq, -⟩ := hinv.unlist hopening first
    have hlisted : Live { r with openingSessions := table } := ⟨h.registered, h.calm, h.closingHandle, h.owned⟩
    rw [heq]
    exact hidle hlisted ho _ (by simp [hwork])
  | opened current p first session g hwork hopening =>
    obtain ⟨table, heq, -⟩ := hinv.unlist hopening first
    have hlisted : Live { r with openingSessions := table } := ⟨h.registered, h.calm, h.closingHandle, h.owned⟩
    rw [heq]
    exact hlisted.setWork ho _ fun a x hacquiring => by rw [hwork] at hacquiring; cases hacquiring
  | replace a g hwork hrefuses =>
    exact (h.releaseAll _).setWork ho _ fun b x hacquiring => by rw [hwork] at hacquiring; cases hacquiring
  | letGo a disconnect hwork hready hclient =>
    refine (h.releaseAll _).setWork ho _ fun b x hacquiring => ?_
    rw [hwork] at hacquiring
    cases disconnect <;> cases hacquiring
  | attachTo g hwork =>
    have htarget : g ∈ r.attachesTo i := by
      rw [Router.attachesTo, ho]
      rcases hwork with ⟨hwork, hrefuses⟩ | ⟨a, hwork, hsettled⟩
      · simp [hwork, hrefuses]
      · simp [hwork, hsettled]
    have hg : g < r.nextHandle := by
      rcases hwork with ⟨hwork, -⟩ | ⟨a, hwork, -⟩ <;> exact hknown.work i o g ho (by rw [hwork]; rfl)
    refine h.attachTo hinv hknown ho ?_ ?_ (horderly g htarget) hg
    · rcases hwork with ⟨hwork, -⟩ | ⟨a, hwork, -⟩ <;> simp [hwork]
    · rcases hwork with ⟨hwork, -⟩ | ⟨a, hwork, -⟩ <;> simp [hwork, Work.Attaching]
  | call session a hwork hready hrequires =>
    have hset : Live (r.setAttachment a fun x => { x with operations := x.operations + 1 }) :=
      h.setAttachment fun x _ => ⟨⟨rfl, rfl, id, id, id, id, id, .rfl⟩, rfl⟩
    exact hidle hset ho _ (by simp [hwork])
  | failed a x hwork hx hfailed =>
    refine ((h.leave hinv hx hfailed).setWork ho .done fun b y hacquiring hy _ => ?_).congr rfl rfl rfl rfl rfl
    rw [hwork] at hacquiring
    cases hacquiring
    rcases modifyAt_eq_some.mp hy with ⟨-, x', hx', rfl⟩ | ⟨hne, -⟩
    · rw [hx] at hx'
      cases hx'
      exact .inl ⟨hfailed, rfl⟩
    · exact absurd rfl hne
  | reject a x hwork hx hlease =>
    refine (h.releaseAll _).setWork ho _ fun b y hacquiring hy hnone => ?_
    rw [hwork] at hacquiring
    cases hacquiring
    obtain ⟨x', -, rfl⟩ := Option.map_eq_some_iff.mp hy
    split_ifs at hnone with hchosen
    simp [hnone] at hchosen
  | register a x hwork hx hlease hhosted hmember hrefuses =>
    have hattaching : o.work.Attaching := by simp [hwork, Work.Attaching]
    have hopen : r.closing ≠ .closed := fun hclosed => hinv.quiet (by rw [hclosed]; trivial) i o ho hattaching
    have hclient : x.client = o.client := by
      have hclient := hinv.holder i o a ho (.inl hwork)
      rw [hx] at hclient
      exact Option.some.inj hclient
    refine ⟨?_, h.calm, h.closingHandle, ?_⟩
    · intro c b y hb hy hnone
      have hb' : Function.update r.attachmentsByClient x.client (some a) c = some b := hb
      rw [Function.update_apply] at hb'
      split_ifs at hb' with hc
      · cases hb'
        have hy' : r.attachments a = some y := hy
        rw [hx] at hy'
        cases hy'
        exact ⟨hmember, hhosted⟩
      · exact h.registered c b y hb' hy hnone
    · intro b y hy hnone
      by_cases hb : b = a
      · have hy' : r.attachments b = some y := hy
        rw [hb, hx] at hy'
        cases hy'
        exact .inr (.inl (by rw [hb]; exact Function.update_self ..))
      · rcases h.owned b y hy hnone with hfailed | hclient' | ⟨j, o', ho', hwork'⟩
        · exact .inl hfailed
        · refine .inr (.inl ((Function.update_of_ne ?_ _ _).trans hclient'))
          intro hc
          rw [hc, hclient] at hclient'
          cases hinv.current hopen i o none ho (by rw [hwork]; rfl) b hclient'
        · refine .inr (.inr ⟨j, o', modifyAt_eq_some.mpr (.inr ⟨?_, ho'⟩), hwork'⟩)
          rintro rfl
          rw [ho] at ho'
          cases ho'
          rw [hwork] at hwork'
          cases hwork'
          exact hb rfl

theorem opened (h : Live r) (hinv : Inv r) (hknown : Known r) {p : ℕ} {ok : Bool} (hs : r.opened p ok = some r') :
    Live r' := by
  have hhosting := (hinv.opened hs).hosting
  have hnext (session : S) (y : Handle S) (g : ℕ) (hg : g < r.nextHandle) :
      (Function.update r.handles r.nextHandle (some y) g).map (·.closing) = (r.handles g).map (·.closing) := by
    rw [Function.update_of_ne (by omega)]
  rw [Router.opened] at hs
  split at hs
  next session hp =>
    split_ifs at hs with hok hisClosing
    · cases hs
      exact h.setSessions hinv hknown hhosting (fun _ _ => id) (fun _ _ => .inl) (hnext session _)
    · cases hs
      have hnone := (hinv.hosting.running p session _ hp not_false).2
      refine h.setSessions hinv hknown hhosting (fun session' g hg => ?_) (fun session' g hg => ?_) (hnext session _)
      · show Function.update r.hostedSessions session _ session' = some g
        rw [Function.update_of_ne, hg]
        rintro rfl
        rw [hnone] at hg
        cases hg
      · have hg' : Function.update r.hostedSessions session _ session' = some g := hg
        rw [Function.update_apply] at hg'
        split_ifs at hg'
        · cases hg'
          refine .inr ⟨rfl, ?_⟩
          show (Function.update r.handles r.nextHandle _ r.nextHandle).map (·.closing) = _
          rw [Function.update_self]
          simpa using hisClosing
        · exact .inl hg'
    · cases hs
      exact h.setSessions hinv hknown hhosting (fun _ _ => id) (fun _ _ => .inl) fun _ _ => rfl
  · cases hs

/-- A handle is closed, or terminates. -/
theorem setHandle (h : Live r) (hinv : Inv r) (hknown : Known r) {g : ℕ} {f : Handle S → Handle S}
    (hhosting : Hosting (r.setHandle g f).toSessions) (hf : ∀ x, (f x).closing = x.closing) : Live (r.setHandle g f) :=
  h.setSessions hinv hknown hhosting (fun _ _ => id) (fun _ _ => .inl) fun g' _ => map_modifyAt hf g'

theorem invalidate (h : Live r) (hinv : Inv r) {g : ℕ} (hs : r.invalidate g = some r') : Live r' := by
  have hinv' := hinv.invalidate hs
  rw [Router.invalidate] at hs
  split at hs
  · cases hs
  next y hy =>
    split_ifs at hs with hterminated hhosted
    · cases hs
      have hreleased := h.releaseAll fun _ x => x.member && decide (x.handle = g)
      have hold {g' : ℕ} (hg' : Router.IsHosted { r.releaseAll (fun _ x => x.member && decide (x.handle = g)) with
          hostedSessions := Function.update r.hostedSessions y.session none } g') : r.IsHosted g' := by
        obtain ⟨session, hsession⟩ := (Inv.isHosted_iff hinv'.hosting g').mp hg'
        refine (Inv.isHosted_iff hinv.hosting g').mpr ⟨session, ?_⟩
        simp only [Function.update_apply] at hsession
        split_ifs at hsession
        exact hsession
      refine ⟨?_, fun a x hx hmember hnone hg' => hreleased.calm a x hx hmember hnone (hold hg'),
        fun g' y' hg' => hreleased.closingHandle g' y' (hold hg'), hreleased.owned⟩
      intro c a x hclient hx hnone
      obtain ⟨hmember, hg'⟩ := hreleased.registered c a x hclient hx hnone
      refine ⟨hmember, ?_⟩
      obtain ⟨session, hsession⟩ := (Inv.isHosted_iff hinv.hosting x.handle).mp hg'
      refine (Inv.isHosted_iff hinv'.hosting x.handle).mpr ⟨session, ?_⟩
      refine (Function.update_of_ne ?_ _ _).trans hsession
      rintro rfl
      -- All members of the session are being released.
      obtain ⟨x', -, rfl⟩ := Option.map_eq_some_iff.mp hx
      rw [hhosted] at hsession
      split_ifs at hnone hmember hsession with hchosen
      exact hchosen ⟨by simp [hmember, Option.some.inj hsession], hnone⟩
    · cases hs
      exact h

theorem removeSession (h : Live r) (hknown : Known r) (session : S) : Live (r.removeSession session) := by
  rw [Router.removeSession]
  split_ifs
  · exact h
  · split
    · exact h
    next g hg =>
      have hreleased := h.releaseAll fun _ x => x.member && decide (x.handle = g)
      have hfresh := hknown.removal _ le_rfl
      refine ⟨hreleased.registered, ?_, ?_, hreleased.owned⟩
      · intro a x hx hmember hnone hhosted
        obtain ⟨hopen, hremovals⟩ := hreleased.calm a x hx hmember hnone hhosted
        refine ⟨hopen, fun k m hm hmg => ?_⟩
        have hm' : Function.update r.removals r.nextRemoval _ k = some m := hm
        rw [Function.update_apply] at hm'
        split_ifs at hm'
        · cases hm'
          obtain ⟨x', -, rfl⟩ := Option.map_eq_some_iff.mp hx
          exfalso
          split_ifs at hnone hmember hmg with hchosen
          exact hchosen ⟨by simp [hmember, ← hmg], hnone⟩
        · exact hremovals k m hm' hmg
      · intro g' y hhosted hy hclosing
        refine (hreleased.closingHandle g' y hhosted hy hclosing).imp_left fun ⟨k, m, hm, hmg, hstate⟩ => ?_
        refine ⟨k, m, (Function.update_of_ne ?_ _ _).trans hm, hmg, hstate⟩
        rintro rfl
        have hm' : r.removals r.nextRemoval = some m := hm
        rw [hfresh] at hm'
        cases hm'

theorem goOnRemoving (h : Live r) (hinv : Inv r) {k : ℕ} (hs : r.goOnRemoving k = some r') : Live r' := by
  have hinv' := hinv.goOnRemoving hs
  rw [Router.goOnRemoving] at hs
  split at hs
  next session g members hk =>
    split_ifs at hs with hall
    cases hs
    have hhosted {g' : ℕ} : Router.IsHosted { r.setHandle g (fun x => { x with closing := true }) with
        removals := modifyAt r.removals k fun m => { m with state := .closing } } g' ↔ r.IsHosted g' :=
      (Inv.isHosted_iff hinv'.hosting g').trans (Inv.isHosted_iff hinv.hosting g').symm
    refine ⟨fun c a x hclient hx hnone => ?_, fun a x hx hmember hnone hg' => ?_, fun g' y hg' hy hclosing => ?_, h.owned⟩
    · exact (h.registered c a x hclient hx hnone).imp_right hhosted.mpr
    · obtain ⟨hopen, hremovals⟩ := h.calm a x hx hmember hnone (hhosted.mp hg')
      have hne : x.handle ≠ g := by
        rintro rfl
        cases hremovals k _ hk rfl
      refine ⟨?_, fun j m hm hmg => ?_⟩
      · show (modifyAt r.handles g _ x.handle).map (·.closing) = _
        rw [modifyAt_apply, if_neg hne, hopen]
      · rcases modifyAt_eq_some.mp hm with ⟨rfl, m', hm', rfl⟩ | ⟨-, hm⟩
        · rw [hk] at hm'
          cases hm'
          cases hremovals j _ hk hmg
        · exact hremovals j m hm hmg
    · by_cases hsame : g' = g
      · exact .inl ⟨k, _, modifyAt_eq_some.mpr (.inl ⟨rfl, _, hk, rfl⟩), hsame.symm, by simp⟩
      · have hy' : r.handles g' = some y := (modifyAt_eq_some.mp hy).resolve_left (fun hg => hsame hg.1) |>.2
        rcases h.closingHandle g' y (hhosted.mp hg') hy' hclosing with ⟨j, m, hm, hmg, hstate⟩ | hclosed
        · refine .inl ⟨j, m, modifyAt_eq_some.mpr (.inr ⟨?_, hm⟩), hmg, hstate⟩
          rintro rfl
          rw [hk] at hm
          cases hm
          exact hsame hmg.symm
        · exact .inr hclosed
  · cases hs

theorem removed (h : Live r) (hinv : Inv r) (hknown : Known r) {k : ℕ} (ok : Bool) (hs : r.removed k ok = some r') :
    Live r' := by
  have hinv' := hinv.removed ok hs
  rw [Router.removed] at hs
  split at hs
  next session g hk =>
    cases hs
    have hold {g' : ℕ} (hg' : Router.IsHosted { r.setHandle g (fun x => { x with closed := true }) with
        hostedSessions := deleteIf r.hostedSessions session g
        removals := modifyAt r.removals k fun m => { m with state := .done } } g') : r.IsHosted g' ∧ g' ≠ g := by
      obtain ⟨session', hsession'⟩ := (Inv.isHosted_iff hinv'.hosting g').mp hg'
      have hdelete : deleteIf r.hostedSessions session g session' = some g' := hsession'
      rw [deleteIf_apply] at hdelete
      split_ifs at hdelete with hgone
      refine ⟨(Inv.isHosted_iff hinv.hosting g').mpr ⟨session', hdelete⟩, ?_⟩
      rintro rfl
      have hid := hinv.hosting.hosted session' g' hdelete
      rw [hknown.removed k _ hk] at hid
      obtain rfl : session = session' := Option.some.inj hid
      exact hgone ⟨rfl, hdelete⟩
    refine ⟨fun c a x hclient hx hnone => ?_, fun a x hx hmember hnone hg' => ?_, fun g' y hg' hy hclosing => ?_, h.owned⟩
    · obtain ⟨hmember, hhosted⟩ := h.registered c a x hclient hx hnone
      obtain ⟨session', hsession'⟩ := (Inv.isHosted_iff hinv.hosting x.handle).mp hhosted
      refine ⟨hmember, (Inv.isHosted_iff hinv'.hosting x.handle).mpr ⟨session', ?_⟩⟩
      show deleteIf r.hostedSessions session g session' = some x.handle
      rw [deleteIf_apply, if_neg, hsession']
      rintro ⟨rfl, hg⟩
      rw [hsession'] at hg
      cases (h.calm a x hx hmember hnone hhosted).2 k _ hk (Option.some.inj hg).symm
    · obtain ⟨hopen, hremovals⟩ := h.calm a x hx hmember hnone (hold hg').1
      refine ⟨?_, fun j m hm hmg => ?_⟩
      · show (modifyAt r.handles g _ x.handle).map (·.closing) = _
        rw [modifyAt_apply, if_neg (hold hg').2, hopen]
      · rcases modifyAt_eq_some.mp hm with ⟨-, m', -, rfl⟩ | ⟨-, hm⟩
        · rfl
        · exact hremovals j m hm hmg
    · obtain ⟨hhosted, hne⟩ := hold hg'
      have hy' : r.handles g' = some y := (modifyAt_eq_some.mp hy).resolve_left (fun hg => hne hg.1) |>.2
      rcases h.closingHandle g' y hhosted hy' hclosing with ⟨j, m, hm, hmg, hstate⟩ | hclosed
      · refine .inl ⟨j, m, modifyAt_eq_some.mpr (.inr ⟨?_, hm⟩), hmg, hstate⟩
        rintro rfl
        rw [hk] at hm
        cases hm
        exact hne hmg.symm
      · exact .inr hclosed
  · cases hs

/-- While the router closes, no attachment of a client is left that is not being released. -/
theorem not_registered (h : Live r) (hinv : Inv r) (hquiet : r.closing.Quiet) {c : C} {a : ℕ} {x : ClientAttachment C}
    (hclient : r.attachmentsByClient c = some a) (hx : r.attachments a = some x) : x.releasing ≠ none := by
  intro hnone
  obtain ⟨hmember, hhosted⟩ := h.registered c a x hclient hx hnone
  exact hinv.emptied hquiet a x hx hmember hhosted hnone

theorem goOnClosing (h : Live r) (hinv : Inv r) (hs : r.goOnClosing = some r') : Live r' := by
  have hinv' := hinv.goOnClosing hs
  rw [Router.goOnClosing] at hs
  split at hs
  next operations openings hclosing =>
    split_ifs at hs with hall
    cases hs
    have hreleased := h.releaseAll fun _ x => x.member && decide (r.IsHosted x.handle)
    refine ⟨hreleased.registered, hreleased.calm, fun g y hg hy hyclosing => .inl ?_, hreleased.owned⟩
    refine (h.closingHandle g y hg hy hyclosing).resolve_right ?_
    rw [hclosing]
    exact not_false
  next attachments hclosing =>
    split_ifs at hs with hall
    cases hs
    have hquiet : r.closing.Quiet := by
      rw [hclosing]
      trivial
    refine ⟨fun c a x hclient hx hnone => ?_, fun a x hx hmember hnone hg => ?_, fun _ _ _ _ _ => .inr trivial, h.owned⟩
    · exact absurd hnone (h.not_registered hinv hquiet hclient hx)
    · exact absurd hnone (hinv'.emptied trivial a x hx hmember hg)
  next handles results hclosing =>
    split_ifs at hs with hall
    cases hs
    have hquiet : r.closing.Quiet := by
      rw [hclosing]
      trivial
    refine ⟨fun c a x hclient => (by cases hclient), fun a x hx hmember hnone hg => ?_, fun _ _ _ _ _ => .inr trivial,
      fun a x hx hnone => ?_⟩
    · exact absurd hnone (hinv'.emptied trivial a x hx hmember hg)
    · rcases h.owned a x hx hnone with hfailed | hclient | hwork
      · exact .inl hfailed
      · exact absurd hnone (h.not_registered hinv hquiet hclient hx)
      · exact .inr (.inr hwork)
  · cases hs

theorem handleClosed (h : Live r) (hinv : Inv r) (hknown : Known r) {g : ℕ} {ok : Bool}
    (hs : r.handleClosed g ok = some r') : Live r' := by
  have hinv' := hinv.handleClosed hs
  rw [Router.handleClosed] at hs
  split at hs
  next handles results hclosing =>
    split_ifs at hs with hg
    cases hs
    have hset := h.setHandle hinv hknown (f := fun x => { x with closed := true }) hinv'.hosting fun _ => rfl
    exact ⟨hset.registered, hset.calm, fun _ _ _ _ _ => .inr trivial, hset.owned⟩
  · cases hs

theorem step (h : Live r) (hinv : Inv r) (hknown : Known r) {a : Action C S} (horderly : r.Orderly a)
    (hs : r.step a = some r') : Live r' := by
  have hinv' := hinv.step hs
  cases a with
  | attachClient client session =>
    cases hs
    split_ifs
    · exact h
    · exact h.runForClient hinv client _
  | detachClient client =>
    cases hs
    exact h.runForClient hinv client _
  | disconnect client =>
    cases hs
    exact (h.runForClient hinv client .disconnect).congr rfl rfl rfl rfl rfl
  | executeServiceCall client session a =>
    cases hs
    exact h.runForClient hinv client _
  | removeSession session =>
    cases hs
    exact h.removeSession hknown session
  | beginClosing =>
    cases hs
    exact h.congr rfl rfl rfl rfl rfl
  | close =>
    change r.close = some r' at hs
    rw [Router.close] at hs
    split_ifs at hs
    split at hs
    next hnot =>
      cases hs
      refine ⟨h.registered, h.calm, fun g y hg hy hclosing => .inl ?_, h.owned⟩
      refine (h.closingHandle g y hg hy hclosing).resolve_right ?_
      rw [hnot]
      exact not_false
    · cases hs
      exact h
  | run i => exact h.run hinv hknown horderly hs
  | resolved p ok =>
    change r.resolved p ok = some r' at hs
    rw [Router.resolved] at hs
    split at hs <;> cases hs
    exact h.setSessions hinv hknown hinv'.hosting (fun _ _ => id) (fun _ _ => .inl) fun _ _ => rfl
  | opened p ok => exact h.opened hinv hknown hs
  | drained p ok =>
    change r.drained p ok = some r' at hs
    rw [Router.drained] at hs
    split at hs <;> cases hs
    refine h.setSessions hinv hknown hinv'.hosting (fun _ _ => id) (fun _ _ => .inl) fun g _ => ?_
    apply map_modifyAt
    exact fun _ => rfl
  | acquired a ok => exact h.changes (hinv.acquired_changes hs)
  | callSettled a awaited => exact h.changes (hinv.callSettled_changes hs)
  | goOnReleasing a => exact h.changes (hinv.goOnReleasing_changes hs)
  | released a ok => exact h.changes (hinv.released_changes hs)
  | terminated g =>
    obtain ⟨x, -, rfl⟩ := Option.map_eq_some_iff.mp hs
    exact h.setHandle hinv hknown hinv'.hosting fun _ => rfl
  | invalidate g => exact h.invalidate hinv hs
  | goOnRemoving k => exact h.goOnRemoving hinv hs
  | removed k ok => exact h.removed hinv hknown ok hs
  | goOnClosing => exact h.goOnClosing hinv hs
  | handleClosed g ok => exact h.handleClosed hinv hknown hs

end Live

end Phi.Server

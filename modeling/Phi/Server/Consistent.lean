import Phi.Server.Attached
import Phi.Server.Effects

/-!
# Sessions and attachments

What a handle is closed for has been released before (`Served`), and with that the whole of what the router keeps: one
attachment of a client, on a session that is hosted and not being closed; one open handle of a session; one release of a
lease.
-/

set_option linter.unusedSectionVars false

namespace Phi.Server

variable {C S : Type} [DecidableEq C] [DecidableEq S]

/-- The handle of a registered attachment is not being closed: `close` has been waiting for its release. -/
structure Served (r : Router C S) : Prop where
  kept : ∀ c a x, r.attachmentsByClient c = some a → r.attachments a = some x → x.member = true
  removal : ∀ k session g members, r.removals k = some ⟨session, g, .releasing members⟩ →
    ∀ a x, r.attachments a = some x → x.member = true → x.handle = g → a ∈ members
  closing : ∀ attachments, r.closing = .releasing attachments →
    ∀ a x, r.attachments a = some x → x.member = true → r.IsHosted x.handle → a ∈ attachments
  hosted : ∀ a x, r.attachments a = some x → x.member = true → r.IsHosted x.handle →
    (r.handles x.handle).map (·.closing) = some false
  registered : ∀ c a x, r.attachmentsByClient c = some a → r.attachments a = some x →
    (r.handles x.handle).map (·.closing) = some false

namespace Served

variable {r r' : Router C S}

theorem init : Served ({} : Router C S) where
  kept _ _ _ h := by cases h
  removal _ _ _ _ h := by cases h
  closing _ h := by cases h
  hosted _ _ h := by cases h
  registered _ _ _ h := by cases h

/-- Attachments leave, and nothing new is waited for. -/
theorem mono (h : Served r)
    (hattachments : ∀ a y, r'.attachments a = some y →
      ∃ x, r.attachments a = some x ∧ y.handle = x.handle ∧ (y.member = true → x.member = true))
    (hclients : ∀ c a, r'.attachmentsByClient c = some a → r.attachmentsByClient c = some a
      ∧ ∀ x y, r.attachments a = some x → r'.attachments a = some y → y.member = x.member)
    (hremovals : ∀ k session g members, r'.removals k = some ⟨session, g, .releasing members⟩ →
      r.removals k = some ⟨session, g, .releasing members⟩)
    (hclosing : ∀ attachments, r'.closing = .releasing attachments → r.closing = .releasing attachments)
    (hhosted : ∀ a x, r.attachments a = some x → r'.IsHosted x.handle → r.IsHosted x.handle)
    (hhandles : ∀ a x, r.attachments a = some x → x.member = true → (r.handles x.handle).map (·.closing) = some false →
      (r'.handles x.handle).map (·.closing) = some false) : Served r' where
  kept c a y hclient hy := by
    obtain ⟨hclient, hmember⟩ := hclients c a hclient
    obtain ⟨x, hx, -, -⟩ := hattachments a y hy
    exact (hmember x y hx hy).trans (h.kept c a x hclient hx)
  removal k session g members hk a y hy hmember hg := by
    obtain ⟨x, hx, hhandle, hx'⟩ := hattachments a y hy
    exact h.removal k session g members (hremovals k session g members hk) a x hx (hx' hmember) (hhandle ▸ hg)
  closing attachments hclosed a y hy hmember hg := by
    obtain ⟨x, hx, hhandle, hx'⟩ := hattachments a y hy
    rw [hhandle] at hg
    exact h.closing attachments (hclosing attachments hclosed) a x hx (hx' hmember) (hhosted a x hx hg)
  hosted a y hy hmember hg := by
    obtain ⟨x, hx, hhandle, hx'⟩ := hattachments a y hy
    rw [hhandle] at hg ⊢
    exact hhandles a x hx (hx' hmember) (h.hosted a x hx (hx' hmember) (hhosted a x hx hg))
  registered c a y hclient hy := by
    obtain ⟨hclient, -⟩ := hclients c a hclient
    obtain ⟨x, hx, hhandle, -⟩ := hattachments a y hy
    rw [hhandle]
    exact hhandles a x hx (h.kept c a x hclient hx) (h.registered c a x hclient hx)

/-- Neither attachments nor sessions change. -/
theorem congr (h : Served r) (hsessions : r'.handles = r.handles ∧ r'.hostedSessions = r.hostedSessions)
    (hattachments : r'.attachments = r.attachments ∧ r'.attachmentsByClient = r.attachmentsByClient)
    (hremovals : r'.removals = r.removals)
    (hclosing : ∀ attachments, r'.closing = .releasing attachments → r.closing = .releasing attachments) : Served r' := by
  refine h.mono (fun a y hy => ⟨y, ?_, rfl, id⟩) (fun c a hc => ⟨?_, fun x y hx hy => ?_⟩) (fun k session g members hk => ?_)
    hclosing (fun a x hx hg => ?_) fun a x hx _ hopen => ?_
  · rwa [hattachments.1] at hy
  · rwa [hattachments.2] at hc
  · rw [hattachments.1, hx] at hy
    cases hy
    rfl
  · rwa [hremovals] at hk
  · rwa [Router.IsHosted, hsessions.1, hsessions.2] at hg
  · rwa [hsessions.1]

/-- Attachments change, and stay in the sets they are in. -/
theorem mapAttachments (h : Served r) {f : ℕ → ClientAttachment C → ClientAttachment C}
    (hf : ∀ a x, r.attachments a = some x → (f a x).handle = x.handle ∧ (f a x).member = x.member) :
    Served { r with attachments := fun a => (r.attachments a).map (f a) } := by
  refine h.mono (fun a y hy => ?_) (fun c a hc => ⟨hc, fun x y hx hy => ?_⟩) (fun _ _ _ _ => id) (fun _ => id)
    (fun _ _ _ => id) fun _ _ _ _ => id
  · obtain ⟨x, hx, rfl⟩ := Option.map_eq_some_iff.mp hy
    exact ⟨x, hx, (hf a x hx).1, fun hmember => (hf a x hx).2 ▸ hmember⟩
  · obtain ⟨x', hx', rfl⟩ := Option.map_eq_some_iff.mp hy
    rw [hx] at hx'
    cases hx'
    exact (hf a x hx).2

theorem releaseAll (h : Served r) (chosen : ℕ → ClientAttachment C → Bool) : Served (r.releaseAll chosen) := by
  refine h.mapAttachments fun a x _ => ?_
  split_ifs <;> exact ⟨rfl, rfl⟩

theorem setAttachment (h : Served r) {a : ℕ} {f : ClientAttachment C → ClientAttachment C}
    (hf : ∀ x, r.attachments a = some x → (f x).handle = x.handle ∧ (f x).member = x.member) :
    Served (r.setAttachment a f) := by
  rw [Router.setAttachment, modifyAt_eq_map]
  refine @mapAttachments _ _ _ _ _ h (fun b x => if b = a then f x else x) fun b x hx => ?_
  split_ifs with hb
  · exact hf x (hb ▸ hx)
  · exact ⟨rfl, rfl⟩

/-- An attachment leaves its session; it is not registered then. -/
theorem leave (h : Served r) {a : ℕ} {f : ClientAttachment C → ClientAttachment C} {clients : C → Option ℕ}
    (hf : ∀ x, (f x).handle = x.handle ∧ (f x).member = false)
    (hclients : ∀ c b, clients c = some b → r.attachmentsByClient c = some b ∧ b ≠ a) :
    Served { r with attachments := modifyAt r.attachments a f, attachmentsByClient := clients } := by
  refine h.mono (fun b y hy => ?_) (fun c b hc => ⟨(hclients c b hc).1, fun x y hx hy => ?_⟩) (fun _ _ _ _ => id)
    (fun _ => id) (fun _ _ _ => id) fun _ _ _ _ => id
  · rcases modifyAt_eq_some.mp hy with ⟨rfl, x, hx, rfl⟩ | ⟨-, hy⟩
    · refine ⟨x, hx, (hf x).1, fun hmember => ?_⟩
      rw [(hf x).2] at hmember
      cases hmember
    · exact ⟨y, hy, rfl, id⟩
  · rcases modifyAt_eq_some.mp hy with ⟨hb, -⟩ | ⟨-, hy⟩
    · exact absurd hb (hclients c b hc).2
    · rw [hx] at hy
      cases hy
      rfl

theorem changes (h : Served r) (hinv : Inv r) {a : ℕ} (hc : Inv.Changes r a r') : Served r' := by
  cases hc with
  | set x f hx hf =>
    refine h.setAttachment fun x' hx' => ?_
    rw [hx] at hx'
    cases hx'
    exact ⟨hf.handle, hf.kept⟩
  | clear x ok hx hcounted =>
    refine h.leave (fun _ => ⟨rfl, rfl⟩) fun c b hb => ?_
    rw [deleteIf_apply] at hb
    split_ifs at hb with hgone
    refine ⟨hb, ?_⟩
    rintro rfl
    obtain ⟨y, hy, hclient, -⟩ := hinv.registered c b hb
    rw [hx] at hy
    cases hy
    exact hgone ⟨hclient.symm, hclient ▸ hb⟩

/-- What has settled is in no set. -/
theorem not_member_of_settled (hinv : Inv r) {a : ℕ} {x : ClientAttachment C} (hsettled : (r.releaseSettled a).isSome)
    (hx : r.attachments a = some x) : x.member = false := by
  obtain ⟨phase, hphase, hcleared⟩ := Inv.cleared_of_settled hsettled hx
  have hcounted := hinv.counted a x hx
  rw [ClientAttachment.Counted, hphase] at hcounted
  cases phase with
  | publishing ok => exact hcounted.1
  | settled ok => exact hcounted.1
  | operations n => exact hcleared.elim
  | lease => exact hcleared.elim
  | releasing => exact hcleared.elim

/-! ### Steps -/

theorem attachTo (h : Served r) (hinv : Inv r) (hknown : Known r) (hlive : Live r) {i g : ℕ} {o : Operation C S}
    (ho : r.operations i = some o) (hwork : ∀ a, o.work ≠ .acquiring a) (hattaching : o.work.Attaching)
    (hremoved : r.isBeingRemoved g = false) (hg : g < r.nextHandle) : Served (r.attachTo i o.client g) := by
  have hlive' := hlive.attachTo hinv hknown ho hwork hattaching hremoved hg
  have hnext := hinv.freshAttachment _ le_rfl
  have hold {a : ℕ} {x : ClientAttachment C}
      (hx : Function.update r.attachments r.nextAttachment (some { client := o.client, handle := g }) a = some x) :
      (a = r.nextAttachment ∧ x = { client := o.client, handle := g }) ∨ r.attachments a = some x := by
    rw [Function.update_apply] at hx
    split_ifs at hx with ha
    · cases hx
      exact .inl ⟨ha, rfl⟩
    · exact .inr hx
  have hclient {c : C} {a : ℕ} (hc : r.attachmentsByClient c = some a) : a ≠ r.nextAttachment := by
    rintro rfl
    obtain ⟨x, hx, -⟩ := hinv.registered c _ hc
    rw [hnext] at hx
    cases hx
  refine ⟨fun c a x hc hx => ?_, fun k session g' members hk a x hx hmember hg' => ?_, fun attachments hclosing => ?_,
    fun a x hx hmember hhosted => ?_, fun c a x hc hx => ?_⟩
  · exact h.kept c a x hc ((hold hx).resolve_left fun hnew => hclient hc hnew.1)
  · rcases hold hx with ⟨-, rfl⟩ | hx
    · cases Live.removals_done hknown hremoved hk hg'.symm
    · exact h.removal k session g' members hk a x hx hmember hg'
  · have hquiet : r.closing.Quiet := by
      rw [show r.closing = _ from hclosing]
      trivial
    exact absurd hattaching (hinv.quiet hquiet i o ho)
  · rcases hold hx with ⟨-, rfl⟩ | hx'
    · exact (hlive'.calm a _ hx hmember rfl hhosted).1
    · exact h.hosted a x hx' hmember hhosted
  · exact h.registered c a x hc ((hold hx).resolve_left fun hnew => hclient hc hnew.1)

theorem register (h : Served r) {i a : ℕ} {x : ClientAttachment C} {work : Work S} (hx : r.attachments a = some x)
    (hhosted : r.IsHosted x.handle) (hmember : x.member = true) :
    Served { r.setWork i work with
      attachmentsByClient := Function.update r.attachmentsByClient x.client (some a) } := by
  have hold {c : C} {b : ℕ} (hb : Function.update r.attachmentsByClient x.client (some a) c = some b) :
      b = a ∨ r.attachmentsByClient c = some b := by
    rw [Function.update_apply] at hb
    split_ifs at hb
    · exact .inl (Option.some.inj hb).symm
    · exact .inr hb
  have hsame {y : ClientAttachment C} (hy : r.attachments a = some y) : y = x := by
    rw [hx] at hy
    exact (Option.some.inj hy).symm
  refine ⟨fun c b y hc hy => ?_, h.removal, h.closing, h.hosted, fun c b y hc hy => ?_⟩
  · rcases hold hc with rfl | hc
    · rw [hsame hy]
      exact hmember
    · exact h.kept c b y hc hy
  · rcases hold hc with rfl | hc
    · rw [hsame hy]
      exact h.hosted b x hx hmember hhosted
    · exact h.registered c b y hc hy

theorem run (h : Served r) (hinv : Inv r) (hknown : Known r) (hlive : Live r) {i : ℕ} (horderly : r.Orderly (.run i))
    (hrun : r.run i = some r') : Served r' := by
  obtain ⟨o, ho, hcase⟩ := Router.run_cases hrun
  have hidle {r₁ : Router C S} (h₁ : Served r₁) (work : Work S) : Served (r₁.setWork i work) :=
    h₁.congr ⟨rfl, rfl⟩ ⟨rfl, rfl⟩ rfl fun _ => id
  have hfinish {r₁ : Router C S} (h₁ : Served r₁) (c : C) : Served (r₁.finish i c) :=
    h₁.congr ⟨rfl, rfl⟩ ⟨rfl, rfl⟩ rfl fun _ => id
  have hunlist (p : ℕ) (session : S) (first : Bool) : Served (r.unlist p session first) := by
    rw [Router.unlist]
    split_ifs
    · exact h.congr ⟨rfl, rfl⟩ ⟨rfl, rfl⟩ rfl fun _ => id
    · exact h
  cases hcase with
  | finish => exact hfinish h _
  | finishDisconnect => exact h.congr ⟨rfl, rfl⟩ ⟨rfl, rfl⟩ rfl fun _ => id
  | acquire session hwork hready hrefuses =>
    rw [Router.acquire]
    split
    · exact hidle h _
    · split
      · exact hidle h _
      · exact h.congr ⟨rfl, rfl⟩ ⟨rfl, rfl⟩ rfl fun _ => id
  | openingFailed current p first session => exact hfinish (hunlist p session first) _
  | opened current p first session => exact hidle (hunlist p session first) _
  | replace => exact hidle (h.releaseAll _) _
  | letGo => exact hidle (h.releaseAll _) _
  | attachTo g hwork =>
    have htarget : g ∈ r.attachesTo i := by
      rw [Router.attachesTo, ho]
      rcases hwork with ⟨hwork, hrefuses⟩ | ⟨a, hwork, hsettled⟩
      · simp [hwork, hrefuses]
      · simp [hwork, hsettled]
    have hg : g < r.nextHandle := by
      rcases hwork with ⟨hwork, -⟩ | ⟨a, hwork, -⟩ <;> exact hknown.work i o g ho (by rw [hwork]; rfl)
    refine h.attachTo hinv hknown hlive ho ?_ ?_ (horderly g htarget) hg
    · rcases hwork with ⟨hwork, -⟩ | ⟨a, hwork, -⟩ <;> simp [hwork]
    · rcases hwork with ⟨hwork, -⟩ | ⟨a, hwork, -⟩ <;> simp [hwork, Work.Attaching]
  | call session a =>
    have hset : Served (r.setAttachment a fun x => { x with operations := x.operations + 1 }) :=
      h.setAttachment fun _ _ => ⟨rfl, rfl⟩
    exact hfinish hset _
  | failed a x hwork hx hfailed =>
    have hleft : Served (r.setAttachment a fun x => { x with member := false }) := by
      refine h.leave (fun _ => ⟨rfl, rfl⟩) fun c b hc => ⟨hc, ?_⟩
      rintro rfl
      obtain ⟨y, hy, -, hlease, -⟩ := hinv.registered c b hc
      rw [hx] at hy
      cases hy
      rw [hfailed] at hlease
      cases hlease
    exact hfinish hleft _
  | reject => exact hidle (h.releaseAll _) _
  | register a x hwork hx hlease hhosted hmember hrefuses => exact h.register hx hhosted hmember

/-- The sessions change, and none is hosted but those that were, and new ones. -/
theorem setSessions (h : Served r) (hinv : Inv r) (hknown : Known r) {s : Sessions S} (hs : Hosting s)
    (hnew : ∀ session g, s.hostedSessions session = some g → g < r.nextHandle → r.hostedSessions session = some g)
    (hclosing : ∀ g, g < r.nextHandle → (s.handles g).map (·.closing) = (r.handles g).map (·.closing)) :
    Served { r with toSessions := s } := by
  refine h.mono (fun a y hy => ⟨y, hy, rfl, id⟩) (fun c a hc => ⟨hc, fun x y hx hy => ?_⟩) (fun _ _ _ _ => id) (fun _ => id)
    (fun a x hx hg => ?_) fun a x hx _ hopen => (hclosing _ (hknown.attachment a x hx)).trans hopen
  · have hy' : r.attachments a = some y := hy
    rw [hx] at hy'
    cases hy'
    rfl
  · obtain ⟨session, hsession⟩ := (@Inv.isHosted_iff _ _ _ _ { r with toSessions := s } hs x.handle).mp hg
    exact (Inv.isHosted_iff hinv.hosting _).mpr ⟨session, hnew session _ hsession (hknown.attachment a x hx)⟩

theorem opened (h : Served r) (hinv : Inv r) (hknown : Known r) {p : ℕ} {ok : Bool} (hs : r.opened p ok = some r') :
    Served r' := by
  have hhosting := (hinv.opened hs).hosting
  have hnext (y : Handle S) (g : ℕ) (hg : g < r.nextHandle) :
      (Function.update r.handles r.nextHandle (some y) g).map (·.closing) = (r.handles g).map (·.closing) := by
    rw [Function.update_of_ne (by omega)]
  rw [Router.opened] at hs
  split at hs
  next session hp =>
    split_ifs at hs
    · cases hs
      exact h.setSessions hinv hknown hhosting (fun _ _ hg _ => hg) (hnext _)
    · cases hs
      refine h.setSessions hinv hknown hhosting (fun session' g hg hlt => ?_) (hnext _)
      have hg' : Function.update r.hostedSessions session (some r.nextHandle) session' = some g := hg
      rw [Function.update_apply] at hg'
      split_ifs at hg'
      · cases hg'
        exact absurd hlt (lt_irrefl _)
      · exact hg'
    · cases hs
      exact h.setSessions hinv hknown hhosting (fun _ _ hg _ => hg) fun _ _ => rfl
  · cases hs

/-- A handle is closed, or terminates. -/
theorem setHandle (h : Served r) (hinv : Inv r) (hknown : Known r) {g : ℕ} {f : Handle S → Handle S}
    (hhosting : Hosting (r.setHandle g f).toSessions) (hf : ∀ x, (f x).closing = x.closing) : Served (r.setHandle g f) :=
  h.setSessions hinv hknown hhosting (fun _ _ hg _ => hg) fun g' _ => map_modifyAt hf g'

theorem invalidate (h : Served r) (hinv : Inv r) (hknown : Known r) {g : ℕ} (hs : r.invalidate g = some r') : Served r' := by
  have hinv' := hinv.invalidate hs
  rw [Router.invalidate] at hs
  split at hs
  · cases hs
  next y hy =>
    split_ifs at hs with hterminated hhosted
    · cases hs
      have hreleased := h.releaseAll fun _ x => x.member && decide (x.handle = g)
      have hknown' := hknown.releaseAll fun _ x => x.member && decide (x.handle = g)
      refine hreleased.setSessions (hinv.releaseAll _) hknown' hinv'.hosting (fun session g' hg' _ => ?_) fun _ _ => rfl
      have hsession : Function.update r.hostedSessions y.session none session = some g' := hg'
      rw [Function.update_apply] at hsession
      split_ifs at hsession
      exact hsession
    · cases hs
      exact h

theorem removeSession (h : Served r) (hinv : Inv r) (session : S) : Served (r.removeSession session) := by
  rw [Router.removeSession]
  split_ifs
  · exact h
  · split
    · exact h
    next g hg =>
      have hreleased := h.releaseAll fun _ x => x.member && decide (x.handle = g)
      refine ⟨hreleased.kept, fun k session' g' members hk a y hy hmember hg' => ?_, hreleased.closing, hreleased.hosted,
        hreleased.registered⟩
      have hk' : Function.update r.removals r.nextRemoval _ k = some _ := hk
      rw [Function.update_apply] at hk'
      split_ifs at hk'
      · cases hk'
        obtain ⟨x, hx, rfl⟩ := Option.map_eq_some_iff.mp hy
        have hlt : a < r.nextAttachment := by
          by_contra hle
          rw [hinv.freshAttachment a (by omega)] at hx
          cases hx
        refine List.mem_filter.mpr ⟨List.mem_range.mpr hlt, ?_⟩
        split_ifs at hmember hg' <;> simp [hx, show x.member = true from hmember, show x.handle = g from hg']
      · exact hreleased.removal k session' g' members hk' a y hy hmember hg'

theorem goOnRemoving (h : Served r) (hinv : Inv r) {k : ℕ} (hs : r.goOnRemoving k = some r') : Served r' := by
  have hinv' := hinv.goOnRemoving hs
  rw [Router.goOnRemoving] at hs
  split at hs
  next session g members hk =>
    split_ifs at hs with hall
    cases hs
    refine h.mono (fun a y hy => ⟨y, hy, rfl, id⟩) (fun c a hc => ⟨hc, fun x y hx hy => ?_⟩)
      (fun j session' g' members' hj => ?_) (fun _ => id) (fun a x hx hg => ?_) fun a x hx hmember hopen => ?_
    · have hy' : r.attachments a = some y := hy
      rw [hx] at hy'
      cases hy'
      rfl
    · rcases modifyAt_eq_some.mp hj with ⟨-, m, -, heq⟩ | ⟨-, hj⟩
      · cases heq
      · exact hj
    · exact (Inv.isHosted_iff hinv.hosting _).mpr ((Inv.isHosted_iff hinv'.hosting _).mp hg)
    · show (modifyAt r.handles g _ x.handle).map (·.closing) = some false
      rw [modifyAt_apply, if_neg, hopen]
      intro hg
      -- All that was in the set of the session has been released.
      have hsettled := List.all_eq_true.mp hall a (h.removal k session g members hk a x hx hmember hg)
      rw [not_member_of_settled hinv hsettled hx] at hmember
      cases hmember
  · cases hs

theorem removed (h : Served r) (hinv : Inv r) {k : ℕ} (ok : Bool) (hs : r.removed k ok = some r') : Served r' := by
  have hinv' := hinv.removed ok hs
  rw [Router.removed] at hs
  split at hs
  next session g hk =>
    cases hs
    refine h.mono (fun a y hy => ⟨y, hy, rfl, id⟩) (fun c a hc => ⟨hc, fun x y hx hy => ?_⟩)
      (fun j session' g' members' hj => ?_) (fun _ => id) (fun a x hx hg => ?_) fun a x hx hmember hopen => ?_
    · have hy' : r.attachments a = some y := hy
      rw [hx] at hy'
      cases hy'
      rfl
    · rcases modifyAt_eq_some.mp hj with ⟨-, m, -, heq⟩ | ⟨-, hj⟩
      · cases heq
      · exact hj
    · obtain ⟨session', hsession'⟩ := (Inv.isHosted_iff hinv'.hosting _).mp hg
      have hdelete : deleteIf r.hostedSessions session g session' = some x.handle := hsession'
      rw [deleteIf_apply] at hdelete
      split_ifs at hdelete
      exact (Inv.isHosted_iff hinv.hosting _).mpr ⟨session', hdelete⟩
    · refine Eq.trans ?_ hopen
      apply map_modifyAt
      exact fun _ => rfl
  · cases hs

theorem goOnClosing (h : Served r) (hinv : Inv r) (hs : r.goOnClosing = some r') : Served r' := by
  have hinv' := hinv.goOnClosing hs
  rw [Router.goOnClosing] at hs
  split at hs
  next operations openings hclosing =>
    split_ifs at hs with hall
    cases hs
    have hreleased := h.releaseAll fun _ x => x.member && decide (r.IsHosted x.handle)
    refine ⟨hreleased.kept, hreleased.removal, fun attachments heq a y hy hmember hg => ?_, hreleased.hosted,
      hreleased.registered⟩
    cases heq
    obtain ⟨x, hx, rfl⟩ := Option.map_eq_some_iff.mp hy
    have hlt : a < r.nextAttachment := by
      by_contra hle
      rw [hinv.freshAttachment a (by omega)] at hx
      cases hx
    refine List.mem_filter.mpr ⟨List.mem_range.mpr hlt, ?_⟩
    have hkept : x.member = true ∧ r.IsHosted x.handle := by
      split_ifs at hmember hg <;> exact ⟨hmember, hg⟩
    simp [hx, hkept.1, hkept.2]
  next attachments hclosing =>
    split_ifs at hs with hall
    cases hs
    refine h.mono (fun a y hy => ⟨y, hy, rfl, id⟩) (fun c a hc => ⟨hc, fun x y hx hy => ?_⟩) (fun _ _ _ _ => id)
      (fun attachments' heq => by cases heq) (fun a x hx hg => ?_) fun a x hx hmember hopen => ?_
    · have hy' : r.attachments a = some y := hy
      rw [hx] at hy'
      cases hy'
      rfl
    · exact (Inv.isHosted_iff hinv.hosting _).mpr ((Inv.isHosted_iff hinv'.hosting _).mp hg)
    · obtain ⟨y, hy, hfalse⟩ := Option.map_eq_some_iff.mp hopen
      have hg : ¬r.IsHosted x.handle := by
        intro hg
        have hsettled := List.all_eq_true.mp hall a (h.closing attachments hclosing a x hx hmember hg)
        rw [not_member_of_settled hinv hsettled hx] at hmember
        cases hmember
      simp [hy, hg, hfalse]
  next handles results hclosing =>
    split_ifs at hs with hall
    cases hs
    refine h.mono (fun a y hy => ⟨y, hy, rfl, id⟩) (fun c a hc => by cases hc) (fun _ _ _ _ => id)
      (fun attachments' heq => by cases heq) (fun a x hx hg => ?_) fun a x hx hmember hopen => hopen
    obtain ⟨session, hsession⟩ := (Inv.isHosted_iff hinv'.hosting _).mp hg
    exact (Inv.isHosted_iff hinv.hosting _).mpr ⟨session, (Option.filter_eq_some_iff.mp hsession).1⟩
  · cases hs

theorem step (h : Served r) (hinv : Inv r) (hknown : Known r) (hlive : Live r) {a : Action C S} (horderly : r.Orderly a)
    (hs : r.step a = some r') : Served r' := by
  have hinv' := hinv.step hs
  cases a with
  | attachClient client session =>
    cases hs
    split_ifs
    · exact h
    · exact h.congr ⟨rfl, rfl⟩ ⟨rfl, rfl⟩ rfl fun _ => id
  | detachClient client =>
    cases hs
    exact h.congr ⟨rfl, rfl⟩ ⟨rfl, rfl⟩ rfl fun _ => id
  | disconnect client =>
    cases hs
    exact h.congr ⟨rfl, rfl⟩ ⟨rfl, rfl⟩ rfl fun _ => id
  | executeServiceCall client session a =>
    cases hs
    exact h.congr ⟨rfl, rfl⟩ ⟨rfl, rfl⟩ rfl fun _ => id
  | removeSession session =>
    cases hs
    exact h.removeSession hinv session
  | beginClosing =>
    cases hs
    exact h.congr ⟨rfl, rfl⟩ ⟨rfl, rfl⟩ rfl fun _ => id
  | close =>
    change r.close = some r' at hs
    rw [Router.close] at hs
    split_ifs at hs
    split at hs <;> cases hs
    · exact h.congr ⟨rfl, rfl⟩ ⟨rfl, rfl⟩ rfl fun _ heq => by cases heq
    · exact h
  | run i => exact h.run hinv hknown hlive horderly hs
  | resolved p ok =>
    change r.resolved p ok = some r' at hs
    rw [Router.resolved] at hs
    split at hs <;> cases hs
    exact h.congr ⟨rfl, rfl⟩ ⟨rfl, rfl⟩ rfl fun _ => id
  | opened p ok => exact h.opened hinv hknown hs
  | drained p ok =>
    change r.drained p ok = some r' at hs
    rw [Router.drained] at hs
    split at hs <;> cases hs
    refine h.setSessions hinv hknown hinv'.hosting (fun _ _ hg _ => hg) fun g _ => ?_
    apply map_modifyAt
    exact fun _ => rfl
  | acquired a ok => exact h.changes hinv (hinv.acquired_changes hs)
  | callSettled a awaited => exact h.changes hinv (hinv.callSettled_changes hs)
  | goOnReleasing a => exact h.changes hinv (hinv.goOnReleasing_changes hs)
  | released a ok => exact h.changes hinv (hinv.released_changes hs)
  | terminated g =>
    obtain ⟨x, -, rfl⟩ := Option.map_eq_some_iff.mp hs
    exact h.setHandle hinv hknown hinv'.hosting fun _ => rfl
  | invalidate g => exact h.invalidate hinv hknown hs
  | goOnRemoving k => exact h.goOnRemoving hinv hs
  | removed k ok => exact h.removed hinv ok hs
  | goOnClosing => exact h.goOnClosing hinv hs
  | handleClosed g ok =>
    change r.handleClosed g ok = some r' at hs
    rw [Router.handleClosed] at hs
    split at hs
    · split_ifs at hs
      cases hs
      have hset := h.setHandle hinv hknown (f := fun x => { x with closed := true }) hinv'.hosting fun _ => rfl
      exact hset.mono (fun a y hy => ⟨y, hy, rfl, id⟩) (fun c a hc => ⟨hc, fun x y hx hy => Option.some.inj (hy.symm.trans hx) ▸ rfl⟩)
        (fun _ _ _ _ => id) (fun _ heq => by cases heq) (fun _ _ _ => id) fun _ _ _ _ => id
    · cases hs

end Served

/-! ## One attachment of a client -/

/-- Two attachments of one client that are there, or are coming, are one. -/
def Router.Single (r : Router C S) : Prop :=
  ∀ a b x y, r.attachments a = some x → r.attachments b = some y → x.client = y.client → x.acquiring ≠ .failed →
    y.acquiring ≠ .failed → ¬x.Cleared → ¬y.Cleared → a = b

/-- An operation holds an attachment for a client that has none registered. -/
theorem Inv.single {r : Router C S} (h : Inv r) (hopen : r.closing ≠ .closed) : r.Single := by
  have hheld {i a b : ℕ} {o : Operation C S} (ho : r.operations i = some o) (hholds : o.work.Holds a)
      (hb : r.attachmentsByClient o.client = some b) : False := by
    have hcurrent : o.work.current = some none := by
      rcases hholds with hwork | hwork <;> rw [hwork] <;> rfl
    cases h.current hopen i o none ho hcurrent b hb
  intro a b x y hx hy hclient hxfailed hyfailed hxcleared hycleared
  have hof {i c : ℕ} {o : Operation C S} {z : ClientAttachment C} (ho : r.operations i = some o) (hholds : o.work.Holds c)
      (hz : r.attachments c = some z) : z.client = o.client := by
    have hmap := h.holder i o c ho hholds
    rw [hz] at hmap
    exact Option.some.inj hmap
  rcases h.held hopen a x hx hxfailed hxcleared with ha | ⟨i, o, ho, hholds⟩
  · rcases h.held hopen b y hy hyfailed hycleared with hb | ⟨j, o', ho', hholds'⟩
    · rw [hclient, hb] at ha
      exact (Option.some.inj ha).symm
    · rw [hclient, hof ho' hholds' hy] at ha
      exact (hheld ho' hholds' ha).elim
  · rcases h.held hopen b y hy hyfailed hycleared with hb | ⟨j, o', ho', hholds'⟩
    · rw [← hclient, hof ho hholds hx] at hb
      exact (hheld ho hholds hb).elim
    · have hbegun {work : Work S} {c : ℕ} (hwork : work.Holds c) : work.Begun ∧ work ≠ .done := by
        rcases hwork with rfl | rfl <;> exact ⟨trivial, by simp⟩
      have hsame : o.client = o'.client := by
        rw [← hof ho hholds hx, hclient, hof ho' hholds' hy]
      obtain rfl : i = j := (h.serial hopen).unique ho ho' hsame.symm (hbegun hholds).1 (hbegun hholds').1 (hbegun hholds).2
        (hbegun hholds').2
      rw [ho] at ho'
      cases ho'
      rcases hholds with hwork | hwork <;> rcases hholds' with hwork' | hwork' <;> rw [hwork] at hwork' <;> cases hwork'
      · rfl
      · rfl

/-- What was single stays so while nobody is attached. -/
theorem Router.Single.stays {r r' : Router C S} (h : r.Single) (hs : Effect r r') (hidle : ∀ c, ¬r.IsAttaching c) :
    r'.Single := by
  intro a b x y hx hy hclient hxfailed hyfailed hxcleared hycleared
  obtain ⟨x', hx', hxclient, hxfailed', hxcleared'⟩ := (hs.attachments a x hx).resolve_right (hidle _)
  obtain ⟨y', hy', hyclient, hyfailed', hycleared'⟩ := (hs.attachments b y hy).resolve_right (hidle _)
  exact h a b x' y' hx' hy' (by rw [← hxclient, hclient, hyclient]) (mt hxfailed' hxfailed) (mt hyfailed' hyfailed)
    (mt hxcleared' hxcleared) (mt hycleared' hycleared)

/-! ## Runs -/

end Phi.Server

import Phi.Server.Serial

/-!
# Attachments and leases

What holds in every run of the router, whatever the host answers and in whatever order (`Inv`): a lease is released once
at most, it is held by the attachment that is registered for a client, or by an operation of that client, and while the
router closes nobody attaches any more.
-/

set_option linter.unusedSectionVars false

namespace Phi.Server

variable {C S : Type} [DecidableEq C] [DecidableEq S]

/-! ## One attachment -/

/-- The attachment is in no set any more. -/
def ClientAttachment.Cleared (x : ClientAttachment C) : Prop := ∃ phase, x.releasing = some phase ∧ phase.Cleared

/-- The lease is released once, when the release has come to it. -/
def ClientAttachment.Counted (x : ClientAttachment C) : Prop :=
  match x.releasing with
  | none | some (.operations _) | some .lease => x.releases = 0
  | some .releasing => x.acquiring = .lease ∧ x.releases = 1
  | some (.publishing _) | some (.settled _) =>
    x.member = false ∧ (x.acquiring = .failed ∧ x.releases = 0 ∨ x.acquiring = .lease ∧ x.releases = 1)

theorem ClientAttachment.not_cleared_of_none {x : ClientAttachment C} (h : x.releasing = none) : ¬x.Cleared := by
  rintro ⟨phase, hphase, -⟩
  rw [h] at hphase
  cases hphase

/-- What may become of an attachment while it stays where it is. -/
structure ClientAttachment.Becomes (x y : ClientAttachment C) : Prop where
  client : y.client = x.client
  handle : y.handle = x.handle
  counted : x.Counted → y.Counted
  lease : x.acquiring = .lease → y.acquiring = .lease
  failed : x.acquiring = .failed → y.acquiring = .failed
  member : y.member = true → x.member = true
  releasing : y.releasing = none → x.releasing = none
  cleared : y.Cleared ↔ x.Cleared

/-- What the host's answers, and the release itself, may make of an attachment. -/
structure ClientAttachment.GoesOn (x y : ClientAttachment C) : Prop extends x.Becomes y where
  kept : y.member = x.member
  begun : x.releasing = none → y.releasing = none

namespace ClientAttachment.Becomes

variable {x : ClientAttachment C}

theorem refl (x : ClientAttachment C) : Becomes x x := ⟨rfl, rfl, id, id, id, id, id, .rfl⟩

theorem beginRelease (h : x.releasing = none) (n : ℕ) : Becomes x { x with releasing := some (.operations n) } where
  client := rfl
  handle := rfl
  counted hcounted := by simpa [Counted, h] using hcounted
  lease := id
  failed := id
  member := id
  releasing hnone := by cases hnone
  cleared := by simp [Cleared, Release.Cleared, h]

end ClientAttachment.Becomes

/-! ## The invariant -/

/-- The attachment of the client that the operation has found, or none, as far as it goes on from that. -/
def Work.current : Work S → Option (Option ℕ)
  | .opening current _ _ | .acquired current _ => some current
  | .replacing a _ | .releasing a _ => some (some a)
  | .acquiring _ | .rejecting _ => some none
  | _ => none

/-- The operation holds the attachment: it registers it, or waits for its release. -/
def Work.Holds (work : Work S) (a : ℕ) : Prop := work = .acquiring a ∨ work = .rejecting a

def Work.Attaching : Work S → Prop
  | .attach _ | .opening _ _ _ | .acquired _ _ | .replacing _ _ | .acquiring _ | .rejecting _ | .publishing => True
  | _ => False

/-- The attachments of all sessions have been or are being released, for the router to close. -/
def Closing.Quiet : Closing → Prop
  | .releasing _ | .closing _ _ | .closed => True
  | _ => False

theorem Closing.Quiet.called {closing : Closing} (h : closing.Quiet) : closing ≠ .notCalled := by
  rintro rfl
  exact h

/-- The operations, and what `close` waits for. -/
structure Queues (r : Router C S) : Prop where
  freshOperation : ∀ i, r.nextOperation ≤ i → r.operations i = none
  serial : r.closing ≠ .closed → Serial r.toOperations
  isClosing : r.closing ≠ .notCalled → r.isClosing = true
  waiting : ∀ operations openings, r.closing = .waiting operations openings → ∀ i o, r.operations i = some o →
    o.work.Attaching → ∃ t ∈ operations, i ≤ t ∧ (r.operations t).map (·.client) = some o.client
  quiet : r.closing.Quiet → ∀ i o, r.operations i = some o → ¬o.work.Attaching

structure Inv (r : Router C S) : Prop extends Queues r where
  hosting : Hosting r.toSessions
  freshAttachment : ∀ a, r.nextAttachment ≤ a → r.attachments a = none
  counted : ∀ a x, r.attachments a = some x → x.Counted
  registered : ∀ c a, r.attachmentsByClient c = some a →
    ∃ x, r.attachments a = some x ∧ x.client = c ∧ x.acquiring = .lease ∧ ¬x.Cleared
  holder : ∀ i o a, r.operations i = some o → o.work.Holds a → (r.attachments a).map (·.client) = some o.client
  current : r.closing ≠ .closed → ∀ i o current, r.operations i = some o → o.work.current = some current →
    ∀ a, r.attachmentsByClient o.client = some a → current = some a
  held : r.closing ≠ .closed → ∀ a x, r.attachments a = some x → x.acquiring ≠ .failed → ¬x.Cleared →
    r.attachmentsByClient x.client = some a ∨ ∃ i o, r.operations i = some o ∧ o.work.Holds a
  emptied : r.closing.Quiet → ∀ a x, r.attachments a = some x → x.member = true → r.IsHosted x.handle → x.releasing ≠ none
  results : ∀ handles results, r.closing = .closing handles results → ∀ g, g ∈ handles ∨ results g ≠ none →
    ∃ x, r.handles g = some x ∧ (results g ≠ none → x.closed = true)

/-! ### Operations in their queues -/

namespace Queues

variable {r r' : Router C S}

theorem congr (h : Queues r) (hoperations : r'.toOperations = r.toOperations) (hclosing : r'.closing = r.closing)
    (hisClosing : r'.isClosing = r.isClosing) : Queues r' := by
  obtain ⟨h1, h2, h3, h4, h5⟩ := h
  refine ⟨?_, ?_, ?_, ?_, ?_⟩
  · rwa [hoperations]
  · rwa [hoperations, hclosing]
  · rwa [hclosing, hisClosing]
  · rwa [hoperations, hclosing]
  · rwa [hoperations, hclosing]

/-- An operation goes on. -/
theorem setWork (h : Queues r) {i : ℕ} {o : Operation C S} {work : Work S} (ho : r.operations i = some o)
    (hbegun : r.isReady o = true ∨ o.work.Begun) (hdone : o.work ≠ .done)
    (hattaching : work.Attaching → o.work.Attaching) : Queues (r.setWork i work) where
  freshOperation j hj := by
    show modifyAt r.operations i _ j = none
    rw [modifyAt_apply, h.freshOperation j hj]
    exact ite_self _
  serial hclosed := by
    refine (h.serial hclosed).setWork ho (hbegun.imp_left fun hready p hp q hq => ?_) hdone
    rw [Router.isReady, hp] at hready
    simpa [hq] using hready
  isClosing := h.isClosing
  waiting operations openings hclosing j o' ho' hwork := by
    have hclients (t : ℕ) : (modifyAt r.operations i (fun o => { o with work := work }) t).map (·.client)
        = (r.operations t).map (·.client) := by
      apply map_modifyAt
      exact fun _ => rfl
    have hbefore : ∃ o'', r.operations j = some o'' ∧ o''.client = o'.client ∧ o''.work.Attaching := by
      rcases modifyAt_eq_some.mp ho' with ⟨rfl, o'', ho'', rfl⟩ | ⟨-, ho'⟩
      · rw [ho] at ho''
        cases ho''
        exact ⟨o, ho, rfl, hattaching hwork⟩
      · exact ⟨o', ho', rfl, hwork⟩
    obtain ⟨o'', ho'', hclient, hwork'⟩ := hbefore
    obtain ⟨t, ht, hle, htclient⟩ := h.waiting operations openings hclosing j o'' ho'' hwork'
    exact ⟨t, ht, hle, (hclients t).trans (hclient ▸ htclient)⟩
  quiet hquiet j o' ho' hwork := by
    rcases modifyAt_eq_some.mp ho' with ⟨rfl, o'', ho'', rfl⟩ | ⟨-, ho'⟩
    · rw [ho] at ho''
      cases ho''
      exact h.quiet hquiet j o ho (hattaching hwork)
    · exact h.quiet hquiet j o' ho' hwork

/-- An operation ends. -/
theorem finish (h : Queues r) {i : ℕ} {o : Operation C S} (ho : r.operations i = some o)
    (hbegun : r.isReady o = true ∨ o.work.Begun) (hdone : o.work ≠ .done) : Queues (r.finish i o.client) := by
  have hset : Queues (r.setWork i .done) := h.setWork ho hbegun hdone False.elim
  have hi : (r.setWork i .done).operations i = some { o with work := .done } :=
    modifyAt_eq_some.mpr (.inl ⟨rfl, o, ho, rfl⟩)
  exact { hset with serial := fun hclosed => (hset.serial hclosed).forget hi rfl rfl }

theorem update_eq_some {c : C} {work : Work S} {i : ℕ} {o : Operation C S} :
    Function.update r.operations r.nextOperation (some ⟨c, r.clientOperations c, work⟩) i = some o
      ↔ (i = r.nextOperation ∧ o = ⟨c, r.clientOperations c, work⟩) ∨ (i ≠ r.nextOperation ∧ r.operations i = some o) := by
  rw [Function.update_apply]
  split_ifs with hi
  · simp [hi, eq_comm]
  · simp [hi]

/-- A new operation. -/
theorem runForClient (h : Queues r) (c : C) {work : Work S} (hbegun : ¬work.Begun)
    (hattaching : work.Attaching → r.isClosing = false) : Queues (r.runForClient c work) where
  freshOperation i hi := by
    show Function.update r.operations r.nextOperation _ i = none
    have hlt : r.nextOperation + 1 ≤ i := hi
    rw [Function.update_apply, if_neg (by omega), h.freshOperation i (by omega)]
  serial hclosed := (h.serial hclosed).enqueue h.freshOperation c hbegun
  isClosing := h.isClosing
  waiting operations openings hclosing i o ho hwork := by
    rcases update_eq_some.mp ho with ⟨-, rfl⟩ | ⟨-, ho⟩
    · have hcalled : r.closing ≠ .notCalled := by
        rw [show r.closing = _ from hclosing]
        simp
      have hopen := hattaching hwork
      rw [h.isClosing hcalled] at hopen
      cases hopen
    · obtain ⟨t, ht, hle, hclient⟩ := h.waiting operations openings hclosing i o ho hwork
      obtain ⟨q, hq, hqclient⟩ := Option.map_eq_some_iff.mp hclient
      refine ⟨t, ht, hle, Option.map_eq_some_iff.mpr ⟨q, update_eq_some.mpr (.inr ⟨?_, hq⟩), hqclient⟩⟩
      rintro rfl
      rw [h.freshOperation _ le_rfl] at hq
      cases hq
  quiet hquiet i o ho hwork := by
    rcases update_eq_some.mp ho with ⟨-, rfl⟩ | ⟨-, ho⟩
    · have hopen := hattaching hwork
      rw [h.isClosing (Closing.Quiet.called hquiet)] at hopen
      cases hopen
    · exact h.quiet hquiet i o ho hwork

end Queues

namespace Inv

variable {r r' : Router C S}

theorem init : Inv ({} : Router C S) where
  freshOperation _ _ := rfl
  serial _ := Serial.init
  hosting := Hosting.init
  freshAttachment _ _ := rfl
  counted _ _ h := by cases h
  registered _ _ h := by cases h
  holder _ _ _ h := by cases h
  current _ _ _ _ h := by cases h
  held _ _ _ h := by cases h
  isClosing h := absurd rfl h
  waiting _ _ h := by cases h
  quiet h := h.elim
  emptied h := h.elim
  results _ _ h := by cases h

/-! ### Attachments -/

/-- Attachments change, and stay where they are. -/
theorem mapAttachments (h : Inv r) {f : ℕ → ClientAttachment C → ClientAttachment C}
    (hf : ∀ a x, r.attachments a = some x → x.Becomes (f a x)) :
    Inv { r with attachments := fun a => (r.attachments a).map (f a) } where
  toQueues := ⟨h.freshOperation, h.serial, h.isClosing, h.waiting, h.quiet⟩
  hosting := h.hosting
  freshAttachment a ha := by
    show (r.attachments a).map (f a) = none
    rw [h.freshAttachment a ha]
    rfl
  counted a y hy := by
    obtain ⟨x, hx, rfl⟩ := Option.map_eq_some_iff.mp hy
    exact (hf a x hx).counted (h.counted a x hx)
  registered c a ha := by
    obtain ⟨x, hx, hclient, hlease, hcleared⟩ := h.registered c a ha
    refine ⟨f a x, ?_, (hf a x hx).client.trans hclient, (hf a x hx).lease hlease, fun hc => hcleared ((hf a x hx).cleared.mp hc)⟩
    show (r.attachments a).map (f a) = some (f a x)
    rw [hx]
    rfl
  holder i o a ho hholds := by
    obtain ⟨x, hx, hclient⟩ := Option.map_eq_some_iff.mp (h.holder i o a ho hholds)
    show ((r.attachments a).map (f a)).map (·.client) = some o.client
    rw [hx]
    exact congrArg some ((hf a x hx).client.trans hclient)
  current := h.current
  held hclosed a y hy hfailed hcleared := by
    obtain ⟨x, hx, rfl⟩ := Option.map_eq_some_iff.mp hy
    rw [(hf a x hx).client]
    exact h.held hclosed a x hx (fun hx' => hfailed ((hf a x hx).failed hx'))
      (fun hc => hcleared ((hf a x hx).cleared.mpr hc))
  emptied hquiet a y hy hmember hhosted hnone := by
    obtain ⟨x, hx, rfl⟩ := Option.map_eq_some_iff.mp hy
    have hhosted' : r.IsHosted x.handle := (hf a x hx).handle ▸ hhosted
    exact h.emptied hquiet a x hx ((hf a x hx).member hmember) hhosted' ((hf a x hx).releasing hnone)
  results := h.results

theorem setAttachment (h : Inv r) {a : ℕ} {f : ClientAttachment C → ClientAttachment C}
    (hf : ∀ x, r.attachments a = some x → x.Becomes (f x)) : Inv (r.setAttachment a f) := by
  rw [Router.setAttachment, modifyAt_eq_map]
  refine @mapAttachments _ _ _ _ _ h (fun b x => if b = a then f x else x) fun b x hx => ?_
  split_ifs with hb
  · exact hf x (hb ▸ hx)
  · exact .refl x

theorem releaseAll (h : Inv r) (chosen : ℕ → ClientAttachment C → Bool) : Inv (r.releaseAll chosen) := by
  refine h.mapAttachments fun a x _ => ?_
  split_ifs with hchosen
  · exact .beginRelease hchosen.2 _
  · exact .refl x

/-- The attachment is cleared: the lease is released, or there is none. -/
theorem clearAttachment (h : Inv r) {a : ℕ} {x : ClientAttachment C} {ok : Bool} (hx : r.attachments a = some x)
    (hcounted : x.acquiring = .failed ∧ x.releases = 0 ∨ x.acquiring = .lease ∧ x.releases = 1) :
    Inv (r.clearAttachment a x.client ok) where
  toQueues := ⟨h.freshOperation, h.serial, h.isClosing, h.waiting, h.quiet⟩
  hosting := h.hosting
  freshAttachment b hb := by
    show modifyAt r.attachments a _ b = none
    rw [modifyAt_apply, h.freshAttachment b hb]
    exact ite_self _
  counted b y hy := by
    rcases modifyAt_eq_some.mp hy with ⟨rfl, x', hx', rfl⟩ | ⟨-, hy⟩
    · rw [hx] at hx'
      cases hx'
      exact ⟨rfl, hcounted⟩
    · exact h.counted b y hy
  registered c b hb := by
    have hb' : r.attachmentsByClient c = some b ∧ b ≠ a := by
      have hdelete : deleteIf r.attachmentsByClient x.client a c = some b := hb
      rw [deleteIf_apply] at hdelete
      split_ifs at hdelete with hgone
      refine ⟨hdelete, ?_⟩
      rintro rfl
      obtain ⟨y, hy, hclient, -⟩ := h.registered c b hdelete
      rw [hx] at hy
      cases hy
      exact hgone ⟨hclient.symm, hclient ▸ hdelete⟩
    obtain ⟨y, hy, hrest⟩ := h.registered c b hb'.1
    exact ⟨y, modifyAt_eq_some.mpr (.inr ⟨hb'.2, hy⟩), hrest⟩
  holder i o b ho hholds := by
    refine Eq.trans ?_ (h.holder i o b ho hholds)
    apply map_modifyAt
    exact fun _ => rfl
  current hclosed i o current ho hwork b hb := by
    have hdelete : deleteIf r.attachmentsByClient x.client a o.client = some b := hb
    rw [deleteIf_apply] at hdelete
    split_ifs at hdelete
    exact h.current hclosed i o current ho hwork b hdelete
  held hclosed b y hy hfailed hcleared := by
    rcases modifyAt_eq_some.mp hy with ⟨rfl, x', hx', rfl⟩ | ⟨hne, hy⟩
    · exact absurd ⟨_, rfl, trivial⟩ hcleared
    · refine (h.held hclosed b y hy hfailed hcleared).imp_left fun hb => ?_
      show deleteIf r.attachmentsByClient x.client a y.client = some b
      rw [deleteIf_apply, if_neg, hb]
      rintro ⟨hclient, hlast⟩
      rw [← hclient, hb] at hlast
      exact hne (Option.some.inj hlast)
  emptied hquiet b y hy hmember hhosted := by
    rcases modifyAt_eq_some.mp hy with ⟨rfl, x', hx', rfl⟩ | ⟨-, hy⟩
    · cases hmember
    · exact h.emptied hquiet b y hy hmember hhosted
  results := h.results

/-! ### Operations -/

/-- An operation goes on. -/
theorem setWork (h : Inv r) {i : ℕ} {o : Operation C S} {work : Work S} (ho : r.operations i = some o)
    (hbegun : r.isReady o = true ∨ o.work.Begun) (hdone : o.work ≠ .done)
    (hattaching : work.Attaching → o.work.Attaching)
    (hholder : ∀ a, work.Holds a → (r.attachments a).map (·.client) = some o.client)
    (hcurrent : r.closing ≠ .closed → ∀ current, work.current = some current →
      ∀ a, r.attachmentsByClient o.client = some a → current = some a)
    (hheld : r.closing ≠ .closed → ∀ a x, o.work.Holds a → r.attachments a = some x → x.acquiring ≠ .failed →
      ¬x.Cleared → r.attachmentsByClient x.client = some a ∨ work.Holds a) :
    Inv (r.setWork i work) where
  toQueues := h.toQueues.setWork ho hbegun hdone hattaching
  hosting := h.hosting
  freshAttachment := h.freshAttachment
  counted := h.counted
  registered := h.registered
  holder j o' a ho' hholds := by
    rcases modifyAt_eq_some.mp ho' with ⟨rfl, o'', ho'', rfl⟩ | ⟨-, ho'⟩
    · rw [ho] at ho''
      cases ho''
      exact hholder a hholds
    · exact h.holder j o' a ho' hholds
  current hclosed j o' current ho' hwork := by
    rcases modifyAt_eq_some.mp ho' with ⟨rfl, o'', ho'', rfl⟩ | ⟨-, ho'⟩
    · rw [ho] at ho''
      cases ho''
      exact hcurrent hclosed current hwork
    · exact h.current hclosed j o' current ho' hwork
  held hclosed a x hx hfailed hcleared := by
    rcases h.held hclosed a x hx hfailed hcleared with hclient | ⟨j, o', ho', hholds⟩
    · exact .inl hclient
    · by_cases hj : j = i
      · rw [hj, ho] at ho'
        cases ho'
        refine (hheld hclosed a x hholds hx hfailed hcleared).imp_right fun hnew => ?_
        exact ⟨i, _, modifyAt_eq_some.mpr (.inl ⟨rfl, o, ho, rfl⟩), hnew⟩
      · exact .inr ⟨j, o', modifyAt_eq_some.mpr (.inr ⟨hj, ho'⟩), hholds⟩
  emptied := h.emptied
  results := h.results

/-- An operation ends; what it held is cleared, or no lease came. -/
theorem finish (h : Inv r) {i : ℕ} {o : Operation C S} (ho : r.operations i = some o)
    (hbegun : r.isReady o = true ∨ o.work.Begun) (hdone : o.work ≠ .done)
    (hheld : r.closing ≠ .closed → ∀ a x, o.work.Holds a → r.attachments a = some x → x.acquiring ≠ .failed →
      x.Cleared) :
    Inv (r.finish i o.client) := by
  have hset : Inv (r.setWork i .done) := by
    refine h.setWork ho hbegun hdone False.elim (fun a hholds => ?_) (fun _ current hcurrent => by cases hcurrent) ?_
    · rcases hholds with hholds | hholds <;> cases hholds
    · exact fun hclosed a x hholds hx hfailed hcleared => absurd (hheld hclosed a x hholds hx hfailed) hcleared
  exact { hset with toQueues := h.toQueues.finish ho hbegun hdone }

/-- A new operation. -/
theorem runForClient (h : Inv r) (c : C) {work : Work S} (hbegun : ¬work.Begun)
    (hattaching : work.Attaching → r.isClosing = false) : Inv (r.runForClient c work) := by
  have hidle (a : ℕ) : ¬work.Holds a := by
    rintro (rfl | rfl) <;> exact hbegun trivial
  refine { h with toQueues := h.toQueues.runForClient c hbegun hattaching, holder := ?_, current := ?_, held := ?_ }
  · intro i o a ho hholds
    rcases Queues.update_eq_some.mp ho with ⟨-, rfl⟩ | ⟨-, ho⟩
    · exact absurd hholds (hidle a)
    · exact h.holder i o a ho hholds
  · intro hclosed i o current ho hwork
    rcases Queues.update_eq_some.mp ho with ⟨-, rfl⟩ | ⟨-, ho⟩
    · cases work <;> first | exact absurd trivial hbegun | cases hwork
    · exact h.current hclosed i o current ho hwork
  · intro hclosed a x hx hfailed hcleared
    refine (h.held hclosed a x hx hfailed hcleared).imp_right fun ⟨i, o, ho, hholds⟩ => ⟨i, o, ?_, hholds⟩
    refine Queues.update_eq_some.mpr (.inr ⟨?_, ho⟩)
    rintro rfl
    rw [h.freshOperation _ le_rfl] at ho
    cases ho

/-- A new attachment, for a client that has none. -/
theorem attachTo (h : Inv r) {i : ℕ} {o : Operation C S} (ho : r.operations i = some o) (hbegun : o.work.Begun)
    (hattaching : o.work.Attaching) (hidle : ∀ a, ¬o.work.Holds a)
    (hfree : r.closing ≠ .closed → r.attachmentsByClient o.client = none) (g : ℕ) :
    Inv (r.attachTo i o.client g) := by
  have hnext := h.freshAttachment _ le_rfl
  have hdone : o.work ≠ .done := fun hdone => by rw [hdone] at hattaching; exact hattaching
  have hne {a : ℕ} {x : ClientAttachment C} (hx : r.attachments a = some x) : a ≠ r.nextAttachment := by
    rintro rfl
    rw [hnext] at hx
    cases hx
  have hquiet : ¬r.closing.Quiet := fun hquiet => h.quiet hquiet i o ho hattaching
  have hqueues : Queues (r.setWork i (.acquiring r.nextAttachment)) :=
    h.toQueues.setWork ho (.inr hbegun) hdone fun _ => hattaching
  refine ⟨hqueues.congr rfl rfl rfl, h.hosting, ?_, ?_, ?_, ?_, ?_, ?_,
    fun hquiet' => absurd hquiet' hquiet, h.results⟩
  · intro a ha
    have hlt : r.nextAttachment + 1 ≤ a := ha
    show Function.update r.attachments r.nextAttachment _ a = none
    rw [Function.update_apply, if_neg (by omega), h.freshAttachment a (by omega)]
  · intro a x hx
    have hx' : Function.update r.attachments r.nextAttachment _ a = some x := hx
    rw [Function.update_apply] at hx'
    split_ifs at hx'
    · cases hx'
      rfl
    · exact h.counted a x hx'
  · intro c a ha
    obtain ⟨x, hx, hrest⟩ := h.registered c a ha
    exact ⟨x, (Function.update_of_ne (hne hx) _ _).trans hx, hrest⟩
  · intro j o' a ho' hholds
    show (Function.update r.attachments r.nextAttachment _ a).map (·.client) = some o'.client
    rcases modifyAt_eq_some.mp ho' with ⟨rfl, o'', ho'', rfl⟩ | ⟨-, ho'⟩
    · rw [ho] at ho''
      cases ho''
      rcases hholds with hholds | hholds <;> cases hholds
      rw [Function.update_self]
      rfl
    · have hclient := h.holder j o' a ho' hholds
      obtain ⟨x, hx, -⟩ := Option.map_eq_some_iff.mp hclient
      rw [Function.update_of_ne (hne hx), hclient]
  · intro hclosed j o' current ho' hwork a ha
    rcases modifyAt_eq_some.mp ho' with ⟨rfl, o'', ho'', rfl⟩ | ⟨-, ho'⟩
    · rw [ho] at ho''
      cases ho''
      have hnone := hfree hclosed
      rw [show r.attachmentsByClient o.client = some a from ha] at hnone
      cases hnone
    · exact h.current hclosed j o' current ho' hwork a ha
  · intro hclosed a x hx hfailed hcleared
    have hx' : Function.update r.attachments r.nextAttachment _ a = some x := hx
    rw [Function.update_apply] at hx'
    split_ifs at hx' with ha
    · cases hx'
      exact .inr ⟨i, _, modifyAt_eq_some.mpr (.inl ⟨rfl, o, ho, rfl⟩), .inl (by rw [ha])⟩
    · refine (h.held hclosed a x hx' hfailed hcleared).imp_right fun ⟨j, o', ho', hholds⟩ => ?_
      refine ⟨j, o', modifyAt_eq_some.mpr (.inr ⟨?_, ho'⟩), hholds⟩
      rintro rfl
      rw [ho] at ho'
      cases ho'
      exact hidle a hholds

/-- The attachment that an operation holds becomes that of the client. -/
theorem register (h : Inv r) {i a : ℕ} {o : Operation C S} {x : ClientAttachment C} (ho : r.operations i = some o)
    (hwork : o.work = .acquiring a) (hx : r.attachments a = some x) (hlease : x.acquiring = .lease)
    (hmember : x.member = true) :
    Inv { r.setWork i .publishing with
      attachmentsByClient := Function.update r.attachmentsByClient x.client (some a) } := by
  have hattaching : o.work.Attaching := by
    rw [hwork]
    trivial
  have hclient : x.client = o.client := by
    have hclient := h.holder i o a ho (.inl hwork)
    rw [hx] at hclient
    exact Option.some.inj hclient
  have hcleared : ¬x.Cleared := by
    rintro ⟨phase, hphase, hcleared⟩
    have hcounted := h.counted a x hx
    rw [ClientAttachment.Counted, hphase] at hcounted
    cases phase with
    | publishing ok => simp [hmember] at hcounted
    | settled ok => simp [hmember] at hcounted
    | _ => exact hcleared
  have hopen : r.closing ≠ .closed := by
    intro hclosed
    exact h.quiet (by rw [hclosed]; trivial) i o ho hattaching
  have hqueues : Queues (r.setWork i .publishing) :=
    h.toQueues.setWork ho (.inr (by rw [hwork]; trivial)) (by rw [hwork]; simp) fun _ => hattaching
  refine ⟨hqueues.congr rfl rfl rfl, h.hosting, h.freshAttachment, h.counted, ?_, ?_, ?_, ?_, h.emptied,
    h.results⟩
  · intro c b hb
    have hb' : Function.update r.attachmentsByClient x.client (some a) c = some b := hb
    rw [Function.update_apply] at hb'
    split_ifs at hb' with hc
    · cases hb'
      exact ⟨x, hx, hc.symm, hlease, hcleared⟩
    · exact h.registered c b hb'
  · intro j o' b ho' hholds
    rcases modifyAt_eq_some.mp ho' with ⟨rfl, o'', ho'', rfl⟩ | ⟨-, ho'⟩
    · rcases hholds with hholds | hholds <;> cases hholds
    · exact h.holder j o' b ho' hholds
  · intro _ j o' current ho' hcurrent b hb
    rcases modifyAt_eq_some.mp ho' with ⟨rfl, o'', ho'', rfl⟩ | ⟨hne, ho'⟩
    · cases hcurrent
    · have hb' : Function.update r.attachmentsByClient x.client (some a) o'.client = some b := hb
      rw [Function.update_apply] at hb'
      split_ifs at hb' with hc
      · -- No other operation of the client has begun and not ended.
        refine absurd ((h.serial hopen).unique ho' ho (by rw [← hclient, hc]) ?_ (by rw [hwork]; trivial) ?_
          (by rw [hwork]; simp)) hne
        · revert hcurrent
          cases o'.work <;> simp [Work.current, Work.Begun]
        · rintro hdone
          rw [hdone] at hcurrent
          cases hcurrent
      · exact h.current hopen j o' current ho' hcurrent b hb'
  · intro _ b y hy hfailed hcleared'
    by_cases hb : b = a
    · have hy' : r.attachments b = some y := hy
      rw [hb, hx] at hy'
      cases hy'
      exact .inl (by rw [hb]; exact Function.update_self ..)
    · rcases h.held hopen b y hy hfailed hcleared' with hclient' | ⟨j, o', ho', hholds⟩
      · have hnone := h.current hopen i o none ho (by rw [hwork]; rfl) b
        refine .inl ((Function.update_of_ne ?_ _ _).trans hclient')
        intro hc
        rw [hc, hclient] at hclient'
        cases hnone hclient'
      · refine .inr ⟨j, o', modifyAt_eq_some.mpr (.inr ⟨?_, ho'⟩), hholds⟩
        rintro rfl
        rw [ho] at ho'
        cases ho'
        rcases hholds with hholds | hholds <;> rw [hwork] at hholds <;> cases hholds
        exact hb rfl

/-! ### Steps -/

theorem congr (h : Inv r) (hsessions : r'.toSessions = r.toSessions) (hattachments : r'.toAttachments = r.toAttachments)
    (hoperations : r'.toOperations = r.toOperations) (hclosing : r'.closing = r.closing)
    (hisClosing : r'.isClosing = r.isClosing) : Inv r' := by
  have hhosted (g : ℕ) : r'.IsHosted g ↔ r.IsHosted g := by
    rw [Router.IsHosted, Router.IsHosted, hsessions]
  obtain ⟨hqueues, h1, h2, h3, h4, h5, h6, h7, h8, h9⟩ := h
  refine ⟨hqueues.congr hoperations hclosing hisClosing, ?_, ?_, ?_, ?_, ?_, ?_, ?_, ?_, ?_⟩
  · rwa [hsessions]
  · rwa [hattachments]
  · rwa [hattachments]
  · rwa [hattachments]
  · rwa [hattachments, hoperations]
  · rwa [hattachments, hoperations, hclosing]
  · rwa [hattachments, hoperations, hclosing]
  · simp only [hhosted]
    rwa [hattachments, hclosing]
  · rwa [hsessions, hclosing]

/-- The handle of a hosted session. -/
theorem isHosted_iff (h : Hosting r.toSessions) (g : ℕ) : r.IsHosted g ↔ ∃ session, r.hostedSessions session = some g := by
  rw [Router.IsHosted]
  constructor
  · intro hg
    obtain ⟨x, -, hx⟩ := Option.bind_eq_some_iff.mp hg
    exact ⟨x.session, hx⟩
  · rintro ⟨session, hg⟩
    obtain ⟨x, hx, rfl⟩ := Option.map_eq_some_iff.mp (h.hosted session g hg)
    rw [hx]
    exact hg

/-- The sessions change, and no other is hosted. -/
theorem setSessions (h : Inv r) {s : Sessions S} (hs : Hosting s)
    (hhosted : r.closing.Quiet → ∀ session g, s.hostedSessions session = some g → r.hostedSessions session = some g)
    (hclosed : ∀ g x, r.handles g = some x → ∃ x', s.handles g = some x' ∧ (x.closed = true → x'.closed = true)) :
    Inv { r with toSessions := s } := by
  obtain ⟨⟨q1, q2, q3, q4, q5⟩, h1, h2, h3, h4, h5, h6, h7, h8, h9⟩ := h
  refine ⟨⟨q1, q2, q3, q4, q5⟩, hs, h2, h3, h4, h5, h6, h7, ?_, ?_⟩
  · intro hquiet a x hx hmember hx'
    obtain ⟨session, hsession⟩ := (@isHosted_iff _ _ _ _ { r with toSessions := s } hs x.handle).mp hx'
    exact h8 hquiet a x hx hmember ((isHosted_iff h1 _).mpr ⟨session, hhosted hquiet session _ hsession⟩)
  · intro handles results hclosing g hg
    obtain ⟨x, hx, hxclosed⟩ := h9 handles results hclosing g hg
    obtain ⟨x', hx', hkept⟩ := hclosed g x hx
    exact ⟨x', hx', fun hresult => hkept (hxclosed hresult)⟩

/-- What is left when the first that asked for a session has taken the opening off the table. -/
theorem unlist (h : Inv r) {p : ℕ} {session : S} {result : Option ℕ} (hp : r.openings p = some ⟨session, .settled result⟩)
    (first : Bool) :
    ∃ table, r.unlist p session first = { r with openingSessions := table } ∧ Inv { r with openingSessions := table } := by
  rw [Router.unlist]
  split_ifs
  · exact ⟨_, rfl, h.setSessions (h.hosting.unlist hp) (fun _ _ _ => id) fun g x hx => ⟨x, hx, id⟩⟩
  · exact ⟨r.openingSessions, rfl, h⟩

/-- What becomes of an attachment when the host answers, or the release goes on. -/
inductive Changes (r : Router C S) (a : ℕ) : Router C S → Prop
  | set (x : ClientAttachment C) (f : ClientAttachment C → ClientAttachment C) (hx : r.attachments a = some x)
    (hf : x.GoesOn (f x)) : Changes r a (r.setAttachment a f)
  | clear (x : ClientAttachment C) (ok : Bool) (hx : r.attachments a = some x)
    (hcounted : x.acquiring = .failed ∧ x.releases = 0 ∨ x.acquiring = .lease ∧ x.releases = 1) :
    Changes r a (r.clearAttachment a x.client ok)

theorem acquired_changes (h : Inv r) {a : ℕ} {ok : Bool} (hs : r.acquired a ok = some r') : Changes r a r' := by
  rw [Router.acquired] at hs
  split at hs
  · cases hs
  next x hx =>
    by_cases hpending : x.acquiring = .pending
    · rw [if_pos hpending] at hs
      cases hs
      have hcounted := h.counted a x hx
      rw [ClientAttachment.Counted] at hcounted
      refine .set x _ hx ⟨⟨rfl, rfl, fun _ => ?_, ?_, ?_, id, id, .rfl⟩, rfl, id⟩
      · rw [ClientAttachment.Counted]
        split at hcounted <;> simp_all
      · simp [hpending]
      · simp [hpending]
    · rw [if_neg hpending] at hs
      cases hs

theorem callSettled_changes (_h : Inv r) {a : ℕ} {awaited : Bool} (hs : r.callSettled a awaited = some r') :
    Changes r a r' := by
  rw [Router.callSettled] at hs
  split at hs
  · cases hs
  next x hx =>
    split_ifs at hs with hzero
    split at hs
    next n hreleasing =>
      cases hs
      refine .set x _ hx ⟨⟨rfl, rfl, fun hcounted => ?_, id, id, id, fun hnone => (by cases hnone), ?_⟩, rfl, ?_⟩
      · simpa [ClientAttachment.Counted, hreleasing] using hcounted
      · simp [ClientAttachment.Cleared, Release.Cleared, hreleasing]
      · simp [hreleasing]
    · cases hs
    · cases hs
      exact .set x _ hx ⟨⟨rfl, rfl, id, id, id, id, id, .rfl⟩, rfl, id⟩

theorem goOnReleasing_changes (h : Inv r) {a : ℕ} (hs : r.goOnReleasing a = some r') : Changes r a r' := by
  rw [Router.goOnReleasing] at hs
  split at hs
  · cases hs
  next x hx =>
    have hcounted := h.counted a x hx
    rw [ClientAttachment.Counted] at hcounted
    split at hs
    next hreleasing =>
      cases hs
      rw [hreleasing] at hcounted
      refine .set x _ hx ⟨⟨rfl, rfl, fun _ => hcounted, id, id, id, fun hnone => (by cases hnone), ?_⟩, rfl, ?_⟩
      · simp [ClientAttachment.Cleared, Release.Cleared, hreleasing]
      · simp [hreleasing]
    next hreleasing =>
      rw [hreleasing] at hcounted
      split at hs
      · cases hs
      next hfailed =>
        cases hs
        exact .clear x _ hx (.inl ⟨hfailed, hcounted⟩)
      next hlease =>
        cases hs
        refine .set x _ hx
          ⟨⟨rfl, rfl, fun _ => ⟨hlease, ?_⟩, id, id, id, fun hnone => (by cases hnone), ?_⟩, rfl, ?_⟩
        · show x.releases + 1 = 1
          rw [show x.releases = 0 from hcounted]
        · simp [ClientAttachment.Cleared, Release.Cleared, hreleasing]
        · simp [hreleasing]
    next ok hreleasing =>
      cases hs
      rw [hreleasing] at hcounted
      refine .set x _ hx ⟨⟨rfl, rfl, fun _ => hcounted, id, id, id, fun hnone => (by cases hnone), ?_⟩, rfl, ?_⟩
      · simp [ClientAttachment.Cleared, Release.Cleared, hreleasing]
      · simp [hreleasing]
    · cases hs

theorem released_changes (h : Inv r) {a : ℕ} {ok : Bool} (hs : r.released a ok = some r') : Changes r a r' := by
  rw [Router.released] at hs
  split at hs
  · cases hs
  next x hx =>
    split_ifs at hs with hreleasing
    cases hs
    have hcounted := h.counted a x hx
    rw [ClientAttachment.Counted, hreleasing] at hcounted
    exact .clear x ok hx (.inr hcounted)

theorem cleared_of_settled {a : ℕ} {x : ClientAttachment C} (hsettled : (r.releaseSettled a).isSome)
    (hx : r.attachments a = some x) : x.Cleared := by
  rw [Router.releaseSettled, hx] at hsettled
  simp only [Option.bind_some] at hsettled
  split at hsettled
  next ok hok => exact ⟨_, hok, trivial⟩
  · cases hsettled

/-- An operation goes on. -/
theorem run (h : Inv r) {i : ℕ} (hrun : r.run i = some r') : Inv r' := by
  obtain ⟨o, ho, hcase⟩ := Router.run_cases hrun
  have hcurrent (hclosed : r.closing ≠ .closed) {current : Option ℕ} (hwork : o.work.current = some current) :=
    h.current hclosed i o current ho hwork
  cases hcase with
  | finish hbegun hdone hacquiring hrejecting hmark =>
    refine h.finish ho hbegun hdone fun _ a x hholds hx _ => ?_
    rcases hholds with hholds | hholds
    · exact absurd hholds (hacquiring a)
    · exact cleared_of_settled (hrejecting a hholds) hx
  | finishDisconnect hwork =>
    refine Inv.congr (r := r.finish i o.client) ?_ rfl rfl rfl rfl rfl
    rcases hwork with ⟨hwork, hready, -⟩ | ⟨a, hwork, -⟩
    · refine h.finish ho (.inl hready) (by simp [hwork]) fun _ a x hholds => ?_
      rcases hholds with hholds | hholds <;> rw [hwork] at hholds <;> cases hholds
    · refine h.finish ho (.inr (by simp [hwork, Work.Begun])) (by simp [hwork]) fun _ b x hholds => ?_
      rcases hholds with hholds | hholds <;> rw [hwork] at hholds <;> cases hholds
  | acquire session hwork hready hrefuses =>
    have hattaching : o.work.Attaching := by simp [hwork, Work.Attaching]
    have hidle (a : ℕ) : ¬o.work.Holds a := by simp [hwork, Work.Holds]
    have hset (work : Work S) (hcur : work.current = some (r.attachmentsByClient o.client))
        (hnot : ∀ a, ¬work.Holds a) : Inv (r.setWork i work) := by
      refine h.setWork ho (.inl hready) (by simp [hwork]) (fun _ => hattaching) (fun a ha => absurd ha (hnot a)) ?_
        (fun _ a x hholds => absurd hholds (hidle a))
      intro _ current hcur' a ha
      rw [hcur] at hcur'
      rw [← Option.some.inj hcur', ha]
    rw [Router.acquire]
    split
    · exact hset _ rfl fun a => by simp [Work.Holds]
    next hhosted =>
      split
      · exact hset _ rfl fun a => by simp [Work.Holds]
      next hopening =>
        have hnew := hset (.opening (r.attachmentsByClient o.client) r.nextOpening true) rfl fun a => by simp [Work.Holds]
        exact hnew.setSessions (hnew.hosting.beginOpening hhosted hopening) (fun _ _ _ => id)
          fun g x hx => ⟨x, hx, id⟩
  | openingFailed current p first session hwork hopening =>
    obtain ⟨table, heq, hlisted⟩ := h.unlist hopening first
    rw [heq]
    refine hlisted.finish ho (.inr (by simp [hwork, Work.Begun])) (by simp [hwork]) fun _ a x hholds => ?_
    simp [hwork, Work.Holds] at hholds
  | opened current p first session g hwork hopening =>
    obtain ⟨table, heq, hlisted⟩ := h.unlist hopening first
    rw [heq]
    refine hlisted.setWork ho (.inr (by simp [hwork, Work.Begun])) (by simp [hwork]) (by simp [hwork, Work.Attaching])
      (by simp [Work.Holds]) ?_ (by simp [hwork, Work.Holds])
    intro hclosed current' hcurrent' a ha
    cases hcurrent'
    exact hcurrent hclosed (by rw [hwork]; rfl) a ha
  | replace a g hwork hrefuses =>
    refine (h.releaseAll _).setWork ho (.inr (by simp [hwork, Work.Begun])) (by simp [hwork])
      (by simp [hwork, Work.Attaching]) (by simp [Work.Holds]) ?_ (by simp [hwork, Work.Holds])
    intro hclosed current' hcurrent' b hb
    cases hcurrent'
    exact hcurrent hclosed (by rw [hwork]; rfl) b hb
  | letGo a disconnect hwork hready hclient =>
    have hidle (b : ℕ) : ¬o.work.Holds b := by
      cases disconnect <;> simp [hwork, Work.Holds]
    refine (h.releaseAll _).setWork ho (.inl hready) (by cases disconnect <;> simp [hwork]) False.elim
      (by simp [Work.Holds]) ?_ (fun _ b x hholds => absurd hholds (hidle b))
    intro _ current' hcurrent' b hb
    cases hcurrent'
    exact hclient.symm.trans hb
  | attachTo g hwork =>
    rcases hwork with ⟨hwork, -⟩ | ⟨a, hwork, hsettled⟩
    · refine h.attachTo ho (by simp [hwork, Work.Begun]) (by simp [hwork, Work.Attaching]) (by simp [hwork, Work.Holds]) ?_ g
      intro hclosed
      by_contra hsome
      obtain ⟨b, hb⟩ := Option.ne_none_iff_exists'.mp hsome
      cases hcurrent hclosed (by rw [hwork]; rfl) b hb
    · refine h.attachTo ho (by simp [hwork, Work.Begun]) (by simp [hwork, Work.Attaching]) (by simp [hwork, Work.Holds]) ?_ g
      intro hclosed
      by_contra hsome
      obtain ⟨b, hb⟩ := Option.ne_none_iff_exists'.mp hsome
      obtain rfl : a = b := Option.some.inj (hcurrent hclosed (by rw [hwork]; rfl) b hb)
      obtain ⟨x, hx, -, -, hcleared⟩ := h.registered _ a hb
      exact hcleared (cleared_of_settled (by rw [hsettled]; rfl) hx)
  | call session a hwork hready hrequires =>
    have hset : Inv (r.setAttachment a fun x => { x with operations := x.operations + 1 }) :=
      h.setAttachment fun x _ => ⟨rfl, rfl, id, id, id, id, id, .rfl⟩
    exact hset.finish ho (.inl hready) (by simp [hwork]) (by simp [hwork, Work.Holds])
  | failed a x hwork hx hfailed =>
    have hset : Inv (r.setAttachment a fun x => { x with member := false }) := by
      refine h.setAttachment fun x _ => ⟨rfl, rfl, ?_, id, id, fun hmember => (by cases hmember), id, .rfl⟩
      intro hcounted
      rw [ClientAttachment.Counted] at hcounted ⊢
      split at hcounted <;> simp_all
    have hclient : x.client = o.client := by
      have hclient := h.holder i o a ho (.inl hwork)
      rw [hx] at hclient
      exact Option.some.inj hclient
    rw [hclient]
    refine hset.finish ho (.inr (by simp [hwork, Work.Begun])) (by simp [hwork]) fun _ b y hholds hy hne => ?_
    obtain rfl : a = b := by simpa [hwork, Work.Holds] using hholds
    rcases modifyAt_eq_some.mp hy with ⟨-, x', hx', rfl⟩ | ⟨hab, -⟩
    · rw [hx] at hx'
      cases hx'
      exact absurd hfailed hne
    · exact absurd rfl hab
  | reject a x hwork hx hlease =>
    refine (h.releaseAll _).setWork ho (.inr (by simp [hwork, Work.Begun])) (by simp [hwork])
      (by simp [hwork, Work.Attaching]) ?_ ?_ ?_
    · intro b hholds
      obtain rfl : a = b := by simpa [Work.Holds] using hholds
      exact (h.releaseAll fun b _ => decide (b = a)).holder i o a ho (.inl hwork)
    · intro hclosed current' hcurrent' b hb
      cases hcurrent'
      exact hcurrent hclosed (by rw [hwork]; rfl) b hb
    · intro _ b y hholds _ _ _
      obtain rfl : a = b := by simpa [hwork, Work.Holds] using hholds
      exact .inr (.inr rfl)
  | register a x hwork hx hlease hhosted hmember hrefuses => exact h.register ho hwork hx hlease hmember

theorem resolved (h : Inv r) {p : ℕ} {ok : Bool} (hs : r.resolved p ok = some r') : Inv r' := by
  rw [Router.resolved] at hs
  split at hs
  next session hp =>
    cases hs
    refine h.setSessions (h.hosting.setOpening hp (by simp [OpeningState.Settled]) (by simp) ?_) (fun _ _ _ => id)
      fun g x hx => ⟨x, hx, id⟩
    cases ok <;> simp
  · cases hs

theorem opened (h : Inv r) {p : ℕ} {ok : Bool} (hs : r.opened p ok = some r') : Inv r' := by
  have hkeep (y : Handle S) (g : ℕ) (x : Handle S) (hx : r.handles g = some x) :
      ∃ x', Function.update r.handles r.nextHandle (some y) g = some x' ∧ (x.closed = true → x'.closed = true) := by
    refine ⟨x, ?_, id⟩
    rw [Function.update_of_ne, hx]
    rintro rfl
    rw [h.hosting.freshHandle _ le_rfl] at hx
    cases hx
  rw [Router.opened] at hs
  split at hs
  next session hp =>
    have hnew (closing : Bool) := h.hosting.addHandle (x := { session := session, closing := closing }) hp rfl
    split_ifs at hs with hok hclosing
    · cases hs
      exact h.setSessions (hnew r.isClosing).1 (fun _ _ _ => id) (hkeep _)
    · cases hs
      refine h.setSessions (hnew r.isClosing).2 (fun hquiet => ?_) (hkeep _)
      exact absurd (h.isClosing hquiet.called) hclosing
    · cases hs
      exact h.setSessions (h.hosting.setOpening hp (by simp [OpeningState.Settled]) (by simp) (by simp))
        (fun _ _ _ => id) fun g x hx => ⟨x, hx, id⟩
  · cases hs

/-- Handles change in their flags, and none comes to be open. -/
theorem mapHandles (h : Inv r) {f : ℕ → Handle S → Handle S} (hsession : ∀ g x, (f g x).session = x.session)
    (hopen : ∀ g x, (f g x).IsOpen → x.IsOpen) (hclosed : ∀ g x, x.closed = true → (f g x).closed = true) :
    Inv { r with handles := fun g => (r.handles g).map (f g) } := by
  refine h.setSessions (h.hosting.shut hsession hopen) (fun _ _ _ => id) fun g x hx => ?_
  refine ⟨f g x, ?_, hclosed g x⟩
  show (r.handles g).map (f g) = some (f g x)
  rw [hx]
  rfl

theorem setHandle (h : Inv r) (g : ℕ) {f : Handle S → Handle S} (hsession : ∀ x, (f x).session = x.session)
    (hopen : ∀ x, (f x).IsOpen → x.IsOpen) (hclosed : ∀ x, x.closed = true → (f x).closed = true) :
    Inv (r.setHandle g f) := by
  rw [Router.setHandle, modifyAt_eq_map]
  refine @mapHandles _ _ _ _ _ h (fun g' x => if g' = g then f x else x) (fun g' x => ?_) (fun g' x => ?_) fun g' x => ?_
  · split_ifs
    · exact hsession x
    · rfl
  · split_ifs
    · exact hopen x
    · exact id
  · split_ifs
    · exact hclosed x
    · exact id

/-- A handle is closed. -/
theorem closeHandle (h : Inv r) (g : ℕ) : Inv (r.setHandle g fun x => { x with closed := true }) :=
  h.setHandle g (fun _ => rfl) (fun _ ho => by cases ho.1) fun _ _ => rfl

theorem drained (h : Inv r) {p : ℕ} (ok : Bool) (hs : r.drained p ok = some r') : Inv r' := by
  rw [Router.drained] at hs
  split at hs
  next session g hp =>
    cases hs
    have hclosed := h.closeHandle g
    refine hclosed.setSessions (hclosed.hosting.endDraining hp ?_) (fun _ _ _ => id) fun g x hx => ⟨x, hx, id⟩
    intro x hx ho
    rcases modifyAt_eq_some.mp hx with ⟨-, y, -, rfl⟩ | ⟨hne, -⟩
    · cases ho.1
    · exact hne rfl
  · cases hs

/-- The host has answered, or the release goes on. -/
theorem changes (h : Inv r) {a : ℕ} (hc : Changes r a r') : Inv r' := by
  cases hc with
  | set x f hx hf =>
    refine h.setAttachment fun x' hx' => ?_
    rw [hx] at hx'
    cases hx'
    exact hf.toBecomes
  | clear x ok hx hcounted => exact h.clearAttachment hx hcounted

theorem terminated (h : Inv r) {g : ℕ} (hs : r.terminated g = some r') : Inv r' := by
  obtain ⟨x, -, rfl⟩ := Option.map_eq_some_iff.mp hs
  exact h.setHandle g (fun _ => rfl) (fun _ ho => by cases ho.2) fun _ => id

theorem invalidate (h : Inv r) {g : ℕ} (hs : r.invalidate g = some r') : Inv r' := by
  rw [Router.invalidate] at hs
  split at hs
  · cases hs
  next x hx =>
    split_ifs at hs with hterminated hhosted
    · cases hs
      have hreleased := h.releaseAll fun _ x => x.member && decide (x.handle = g)
      refine hreleased.setSessions (hreleased.hosting.unhost ?_ ?_) ?_ fun g x hx => ⟨x, hx, id⟩
      · intro session g' hg'
        simp only [Function.update_apply] at hg'
        split_ifs at hg'
        exact hg'
      · intro session g' y hg' hy ho
        rw [Function.update_apply, if_neg]
        · exact hg'
        · rintro rfl
          have hgg : r.hostedSessions x.session = some g' := hg'
          rw [hhosted] at hgg
          cases hgg
          have hyx : r.handles g = some y := hy
          rw [hx] at hyx
          cases hyx
          rw [ho.2] at hterminated
          cases hterminated
      · intro _ session g' hg'
        simp only [Function.update_apply] at hg'
        split_ifs at hg'
        exact hg'
    · cases hs
      exact h

theorem removeSession (h : Inv r) (session : S) : Inv (r.removeSession session) := by
  rw [Router.removeSession]
  split_ifs
  · exact h
  · split
    · exact h
    next g _ => exact (h.releaseAll fun _ x => x.member && decide (x.handle = g)).congr rfl rfl rfl rfl rfl

theorem goOnRemoving (h : Inv r) {k : ℕ} (hs : r.goOnRemoving k = some r') : Inv r' := by
  rw [Router.goOnRemoving] at hs
  split at hs
  next session g members hk =>
    split_ifs at hs
    cases hs
    have hclosing : Inv (r.setHandle g fun x => { x with closing := true }) :=
      h.setHandle g (fun _ => rfl) (fun _ => id) fun _ => id
    exact hclosing.congr rfl rfl rfl rfl rfl
  · cases hs

theorem removed (h : Inv r) {k : ℕ} (ok : Bool) (hs : r.removed k ok = some r') : Inv r' := by
  rw [Router.removed] at hs
  split at hs
  next session g hk =>
    cases hs
    have hclosed := h.closeHandle g
    have hsub (session' : S) (g' : ℕ) (hg' : deleteIf r.hostedSessions session g session' = some g') :
        r.hostedSessions session' = some g' := by
      rw [deleteIf_apply] at hg'
      split_ifs at hg'
      exact hg'
    refine Inv.congr (hclosed.setSessions (hclosed.hosting.unhost hsub ?_) (fun _ => hsub)
      fun g x hx => ⟨x, hx, id⟩) rfl rfl rfl rfl rfl
    intro session' g' x hg' hx ho
    rw [deleteIf_apply, if_neg]
    · exact hg'
    · rintro ⟨rfl, hg⟩
      obtain rfl : g' = g := Option.some.inj (hg'.symm.trans hg)
      rcases modifyAt_eq_some.mp hx with ⟨-, y, -, rfl⟩ | ⟨hne, -⟩
      · cases ho.1
      · exact hne rfl
  · cases hs

/-- The attachments, and where the router is in closing, which it has begun. -/
theorem setClosing (h : Inv r) {closing : Closing} (hisClosing : r.isClosing = true) (hopen : closing ≠ .closed → r.closing ≠ .closed)
    (hwaiting : ∀ operations openings, closing = .waiting operations openings → ∀ i o, r.operations i = some o →
      o.work.Attaching → ∃ t ∈ operations, i ≤ t ∧ (r.operations t).map (·.client) = some o.client)
    (hquiet : closing.Quiet → ∀ i o, r.operations i = some o → ¬o.work.Attaching)
    (hemptied : closing.Quiet → ∀ a x, r.attachments a = some x → x.member = true → r.IsHosted x.handle → x.releasing ≠ none)
    (hresults : ∀ handles results, closing = .closing handles results → ∀ g, g ∈ handles ∨ results g ≠ none →
      ∃ x, r.handles g = some x ∧ (results g ≠ none → x.closed = true)) :
    Inv { r with closing := closing } where
  freshOperation := h.freshOperation
  serial hclosed := h.serial (hopen hclosed)
  isClosing _ := hisClosing
  waiting := hwaiting
  quiet := hquiet
  hosting := h.hosting
  freshAttachment := h.freshAttachment
  counted := h.counted
  registered := h.registered
  holder := h.holder
  current hclosed := h.current (hopen hclosed)
  held hclosed := h.held (hopen hclosed)
  emptied := hemptied
  results := hresults

/-- `close` waits for the operations of a client up to the last. -/
theorem listed (h : Inv r) (hopen : r.closing ≠ .closed) {i : ℕ} {o : Operation C S} (ho : r.operations i = some o)
    (hdone : o.work ≠ .done) :
    ∃ t ∈ (List.range r.nextOperation).filter fun i => (r.operations i).any fun o => r.clientOperations o.client = some i,
      i ≤ t ∧ (r.operations t).map (·.client) = some o.client := by
  obtain ⟨t, ht, hle⟩ := (h.serial hopen).last i o ho hdone
  have hclient := (h.serial hopen).client o.client t ht
  obtain ⟨q, hq, hqclient⟩ := Option.map_eq_some_iff.mp hclient
  refine ⟨t, List.mem_filter.mpr ⟨List.mem_range.mpr ?_, ?_⟩, hle, hclient⟩
  · by_contra hlt
    rw [h.freshOperation t (by omega)] at hq
    cases hq
  · simp [hq, hqclient, ht]

theorem close (h : Inv r) (hs : r.close = some r') : Inv r' := by
  rw [Router.close] at hs
  split_ifs at hs with hisClosing
  split at hs
  next hnot =>
    cases hs
    have hopen : r.closing ≠ .closed := by
      rw [hnot]
      simp
    refine h.setClosing hisClosing (fun _ => hopen) ?_ False.elim False.elim (fun _ _ hclosing => by cases hclosing)
    intro operations openings hclosing i o ho hattaching
    cases hclosing
    exact h.listed hopen ho fun hdone => by rw [hdone] at hattaching; exact hattaching
  · cases hs
    exact h

/-- What `close` waits for has ended when the last operations have. -/
theorem done_of_awaited (h : Inv r) (hopen : r.closing ≠ .closed) {i t : ℕ} {o : Operation C S}
    (ho : r.operations i = some o) (hle : i ≤ t) (hclient : (r.operations t).map (·.client) = some o.client)
    (hdone : (r.operations t).map (·.work) = some .done) : o.work = .done := by
  obtain ⟨q, hq, hqdone⟩ := Option.map_eq_some_iff.mp hdone
  rw [hq] at hclient
  rcases Nat.lt_or_eq_of_le hle with hlt | rfl
  · exact (h.serial hopen).order t q i o hlt hq ho (Option.some.inj hclient).symm (by rw [hqdone]; trivial)
  · rw [ho] at hq
    cases hq
    exact hqdone

/-- While `close` waits, nobody attaches, once all that it waits for has ended. -/
theorem not_attaching (h : Inv r) {operations openings : List ℕ} (hclosing : r.closing = .waiting operations openings)
    (hall : ∀ t ∈ operations, (r.operations t).map (·.work) = some .done) {i : ℕ} {o : Operation C S}
    (ho : r.operations i = some o) : ¬o.work.Attaching := by
  intro hattaching
  have hopen : r.closing ≠ .closed := by
    rw [hclosing]
    simp
  obtain ⟨t, ht, hle, hclient⟩ := h.waiting operations openings hclosing i o ho hattaching
  rw [h.done_of_awaited hopen ho hle hclient (hall t ht)] at hattaching
  exact hattaching

theorem goOnClosing (h : Inv r) (hs : r.goOnClosing = some r') : Inv r' := by
  rw [Router.goOnClosing] at hs
  split at hs
  next operations openings hclosing =>
    split_ifs at hs with hall
    cases hs
    have hopen : r.closing ≠ .closed := by
      rw [hclosing]
      simp
    have hcalled : r.closing ≠ .notCalled := by
      rw [hclosing]
      simp
    have hends : ∀ t ∈ operations, (r.operations t).map (·.work) = some .done := by
      intro t ht
      simpa using List.all_eq_true.mp hall.1 t ht
    have hreleased := h.releaseAll fun _ x => x.member && decide (r.IsHosted x.handle)
    refine hreleased.setClosing (h.isClosing hcalled) (fun _ => hopen) (fun _ _ hclosing' => by cases hclosing')
      (fun _ i o ho => h.not_attaching hclosing hends ho) ?_ (fun _ _ hclosing' => by cases hclosing')
    intro _ a y hy hmember hhosted
    obtain ⟨x, hx, rfl⟩ := Option.map_eq_some_iff.mp hy
    split_ifs at hmember hhosted ⊢ with hchosen
    · simp
    · intro hnone
      refine hchosen ⟨?_, hnone⟩
      have hhosted' : r.IsHosted x.handle := hhosted
      simp [hmember, hhosted']
  next attachments hclosing =>
    split_ifs at hs with hall
    cases hs
    have hquiet : r.closing.Quiet := by
      rw [hclosing]
      trivial
    have hopen : r.closing ≠ .closed := by
      rw [hclosing]
      simp
    have hhandles := @mapHandles _ _ _ _ _ h (fun g x => if r.IsHosted g then { x with closing := true } else x)
      (fun g x => by split_ifs <;> rfl) (fun g x => by split_ifs <;> exact id) (fun g x => by split_ifs <;> exact id)
    refine hhandles.setClosing (h.isClosing hquiet.called) (fun _ => hopen) (fun _ _ hclosing' => by cases hclosing')
      (fun _ => h.quiet hquiet) (fun _ => hhandles.emptied hquiet) ?_
    intro handles results hclosing' g hg
    cases hclosing'
    have hhosted : r.IsHosted g := by simpa using (List.mem_filter.mp (hg.resolve_right (by simp))).2
    obtain ⟨x, hx, -⟩ := Option.bind_eq_some_iff.mp hhosted
    refine ⟨{ x with closing := true }, ?_, fun hresult => absurd rfl hresult⟩
    show (r.handles g).map _ = _
    rw [hx, Option.map_some, if_pos hhosted]
  next handles results hclosing =>
    split_ifs at hs with hall
    cases hs
    have hquiet : r.closing.Quiet := by
      rw [hclosing]
      trivial
    have hsub (session : S) (g : ℕ) (hg : r.unhost results session = some g) : r.hostedSessions session = some g :=
      (Option.filter_eq_some_iff.mp hg).1
    have hsessions : Inv { r with hostedSessions := r.unhost results } := by
      refine h.setSessions (h.hosting.unhost hsub ?_) (fun _ => hsub) fun g x hx => ⟨x, hx, id⟩
      intro session g x hg hx ho
      refine Option.filter_eq_some_iff.mpr ⟨hg, ?_⟩
      simp only [ne_eq, decide_not, Bool.not_eq_eq_eq_not, Bool.not_true, decide_eq_false_iff_not]
      intro hresult
      have hsome : results g ≠ none := by
        rw [hresult]
        simp
      obtain ⟨y, hy, hyclosed⟩ := h.results handles results hclosing g (.inr hsome)
      rw [hx] at hy
      cases hy
      have hclosed := hyclosed hsome
      rw [ho.1] at hclosed
      cases hclosed
    exact
      { freshOperation := h.freshOperation
        serial := fun hclosed => absurd rfl hclosed
        isClosing := fun _ => h.isClosing hquiet.called
        waiting := fun _ _ hclosing' => by cases hclosing'
        quiet := fun _ => h.quiet hquiet
        hosting := hsessions.hosting
        freshAttachment := h.freshAttachment
        counted := h.counted
        registered := fun _ _ ha => by cases ha
        holder := h.holder
        current := fun hclosed => absurd rfl hclosed
        held := fun hclosed => absurd rfl hclosed
        emptied := fun _ => hsessions.emptied hquiet
        results := fun _ _ hclosing' => by cases hclosing' }
  · cases hs

theorem handleClosed (h : Inv r) {g : ℕ} {ok : Bool} (hs : r.handleClosed g ok = some r') : Inv r' := by
  rw [Router.handleClosed] at hs
  split at hs
  next handles results hclosing =>
    split_ifs at hs with hg
    cases hs
    have hquiet : r.closing.Quiet := by
      rw [hclosing]
      trivial
    have hclosed := h.closeHandle g
    refine hclosed.setClosing (h.isClosing hquiet.called) (fun _ hnot => ?_) (fun _ _ hclosing' => by cases hclosing')
      (fun _ => h.quiet hquiet) (fun _ => hclosed.emptied hquiet) ?_
    · rw [show r.closing = _ from hnot] at hclosing
      cases hclosing
    · intro handles' results' hclosing' g' hg'
      cases hclosing'
      by_cases hsame : g' = g
      · obtain ⟨x, hx, -⟩ := h.results handles results hclosing g (.inl hg.1)
        exact ⟨_, modifyAt_eq_some.mpr (.inl ⟨hsame, x, hsame ▸ hx, rfl⟩), fun _ => rfl⟩
      · rw [Function.update_of_ne hsame] at hg' ⊢
        obtain ⟨x, hx, hxclosed⟩ := h.results handles results hclosing g' hg'
        exact ⟨x, modifyAt_eq_some.mpr (.inr ⟨hsame, hx⟩), hxclosed⟩
  · cases hs

theorem step (h : Inv r) {a : Action C S} (hs : r.step a = some r') : Inv r' := by
  cases a with
  | attachClient client session =>
    cases hs
    split_ifs with hisClosing
    · exact h
    · exact h.runForClient client (by simp [Work.Begun]) fun _ => by simpa using hisClosing
  | detachClient client =>
    cases hs
    exact h.runForClient client (by simp [Work.Begun]) False.elim
  | disconnect client =>
    cases hs
    have hmark : Inv { r with disconnectedClients := Function.update r.disconnectedClients client true } :=
      h.congr rfl rfl rfl rfl rfl
    exact hmark.runForClient client (by simp [Work.Begun]) False.elim
  | executeServiceCall client session a =>
    cases hs
    exact h.runForClient client (by simp [Work.Begun]) False.elim
  | removeSession session =>
    cases hs
    exact h.removeSession session
  | beginClosing =>
    cases hs
    exact { h with toQueues := { h.toQueues with isClosing := fun _ => rfl } }
  | close => exact h.close hs
  | run i => exact h.run hs
  | resolved p ok => exact h.resolved hs
  | opened p ok => exact h.opened hs
  | drained p ok => exact h.drained ok hs
  | acquired a ok => exact h.changes (h.acquired_changes hs)
  | callSettled a awaited => exact h.changes (h.callSettled_changes hs)
  | goOnReleasing a => exact h.changes (h.goOnReleasing_changes hs)
  | released a ok => exact h.changes (h.released_changes hs)
  | terminated g => exact h.terminated hs
  | invalidate g => exact h.invalidate hs
  | goOnRemoving k => exact h.goOnRemoving hs
  | removed k ok => exact h.removed ok hs
  | goOnClosing => exact h.goOnClosing hs
  | handleClosed g ok => exact h.handleClosed hs

end Inv

end Phi.Server

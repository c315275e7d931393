import Phi.Server.Hosting

/-!
# The operations of a client

What an operation does when it goes on (`Advance`), and that the operations of one client run one after the other, until
`close` forgets them (`Serial`).
-/

set_option linter.unusedSectionVars false

namespace Phi.Server

variable {C S : Type} [DecidableEq C] [DecidableEq S]

/-- The operation has begun; it may have ended. -/
def Work.Begun : Work S → Prop
  | .attach _ | .detach | .disconnect | .call _ _ => False
  | _ => True

/-- The operation ends the mark of a client that is being disconnected. -/
def Work.Disconnects : Work S → Prop
  | .disconnect | .releasing _ true => True
  | _ => False

/-! ## What an operation does -/

/-- What an operation `o`, which is the `i`th, makes of the router when it goes on. -/
inductive Advance (r : Router C S) (i : ℕ) (o : Operation C S) : Router C S → Prop
  | finish (hbegun : r.isReady o = true ∨ o.work.Begun) (hdone : o.work ≠ .done) (hacquiring : ∀ a, o.work ≠ .acquiring a)
    (hrejecting : ∀ a, o.work = .rejecting a → (r.releaseSettled a).isSome) (hmark : ¬o.work.Disconnects) :
    Advance r i o (r.finish i o.client)
  | finishDisconnect
    (hwork : (o.work = .disconnect ∧ r.isReady o = true ∧ r.attachmentsByClient o.client = none)
      ∨ ∃ a, o.work = .releasing a true ∧ (r.releaseSettled a).isSome) :
    Advance r i o (r.finishDisconnect i o.client)
  | acquire (session : S) (hwork : o.work = .attach session) (hready : r.isReady o = true)
    (hrefuses : ¬r.Refuses o.client) :
    Advance r i o (r.acquire i (r.attachmentsByClient o.client) session)
  | openingFailed (current : Option ℕ) (p : ℕ) (first : Bool) (session : S) (hwork : o.work = .opening current p first)
    (hopening : r.openings p = some ⟨session, .settled none⟩) :
    Advance r i o ((r.unlist p session first).finish i o.client)
  | opened (current : Option ℕ) (p : ℕ) (first : Bool) (session : S) (h : ℕ) (hwork : o.work = .opening current p first)
    (hopening : r.openings p = some ⟨session, .settled (some h)⟩) :
    Advance r i o ((r.unlist p session first).setWork i (.acquired current h))
  | replace (a h : ℕ) (hwork : o.work = .acquired (some a) h) (hrefuses : ¬r.Refuses o.client) :
    Advance r i o ((r.releaseAttachment a).setWork i (.replacing a h))
  | letGo (a : ℕ) (disconnect : Bool) (hwork : o.work = if disconnect then .disconnect else .detach)
    (hready : r.isReady o = true) (hclient : r.attachmentsByClient o.client = some a) :
    Advance r i o ((r.releaseAttachment a).setWork i (.releasing a disconnect))
  | attachTo (h : ℕ)
    (hwork : (o.work = .acquired none h ∧ ¬r.Refuses o.client)
      ∨ ∃ a, o.work = .replacing a h ∧ r.releaseSettled a = some true) :
    Advance r i o (r.attachTo i o.client h)
  | call (session : S) (a : ℕ) (hwork : o.work = .call session a) (hready : r.isReady o = true)
    (hrequires : r.Requires o.client session a) :
    Advance r i o ((r.setAttachment a fun x => { x with operations := x.operations + 1 }).finish i o.client)
  | failed (a : ℕ) (x : ClientAttachment C) (hwork : o.work = .acquiring a) (hx : r.attachments a = some x)
    (hacquiring : x.acquiring = .failed) :
    Advance r i o ((r.setAttachment a fun x => { x with member := false }).finish i x.client)
  | reject (a : ℕ) (x : ClientAttachment C) (hwork : o.work = .acquiring a) (hx : r.attachments a = some x)
    (hacquiring : x.acquiring = .lease) :
    Advance r i o ((r.releaseAttachment a).setWork i (.rejecting a))
  | register (a : ℕ) (x : ClientAttachment C) (hwork : o.work = .acquiring a) (hx : r.attachments a = some x)
    (hacquiring : x.acquiring = .lease) (hhosted : r.IsHosted x.handle) (hmember : x.member = true)
    (hrefuses : ¬r.Refuses x.client) :
    Advance r i o { r.setWork i .publishing with
      attachmentsByClient := Function.update r.attachmentsByClient x.client (some a) }

theorem Router.run_cases {r r' : Router C S} {i : ℕ} (h : r.run i = some r') :
    ∃ o, r.operations i = some o ∧ Advance r i o r' := by
  rw [run] at h
  split at h
  · cases h
  next o ho =>
    refine ⟨o, ho, ?_⟩
    split at h
    next session hwork =>
      split_ifs at h with hready hrefuses hsame
      · cases h
        exact .finish (.inl hready) (by simp [hwork]) (by simp [hwork]) (by simp [hwork]) (by simp [hwork, Work.Disconnects])
      · cases h
        exact .finish (.inl hready) (by simp [hwork]) (by simp [hwork]) (by simp [hwork]) (by simp [hwork, Work.Disconnects])
      · cases h
        exact .acquire session hwork hready hrefuses
    next hwork =>
      split_ifs at h with hready
      cases h
      rw [letGo]
      split
      · rw [if_neg (by simp)]
        exact .finish (.inl hready) (by simp [hwork]) (by simp [hwork]) (by simp [hwork]) (by simp [hwork, Work.Disconnects])
      next a ha => exact .letGo a false hwork hready ha
    next hwork =>
      split_ifs at h with hready
      cases h
      rw [letGo]
      split
      next hnone =>
        rw [if_pos rfl]
        exact .finishDisconnect (.inl ⟨hwork, hready, hnone⟩)
      next a ha => exact .letGo a true hwork hready ha
    next session a hwork =>
      split_ifs at h with hready hrequires
      · cases h
        exact .call session a hwork hready hrequires
      · cases h
        exact .finish (.inl hready) (by simp [hwork]) (by simp [hwork]) (by simp [hwork]) (by simp [hwork, Work.Disconnects])
    next current p first hwork =>
      split at h
      next session result hp =>
        cases result with
        | none =>
          cases h
          exact .openingFailed current p first session hwork hp
        | some g =>
          cases h
          exact .opened current p first session g hwork hp
      · cases h
    next current g hwork =>
      split_ifs at h with hrefuses
      · cases h
        exact .finish (.inr (by simp [hwork, Work.Begun])) (by simp [hwork]) (by simp [hwork]) (by simp [hwork])
          (by simp [hwork, Work.Disconnects])
      · cases current with
        | none =>
          cases h
          exact .attachTo g (.inl ⟨hwork, hrefuses⟩)
        | some a =>
          cases h
          exact .replace a g hwork hrefuses
    next a g hwork =>
      split at h
      · cases h
      · cases h
        exact .finish (.inr (by simp [hwork, Work.Begun])) (by simp [hwork]) (by simp [hwork]) (by simp [hwork])
          (by simp [hwork, Work.Disconnects])
      next hsettled =>
        cases h
        exact .attachTo g (.inr ⟨a, hwork, hsettled⟩)
    next a hwork =>
      obtain ⟨x, hx, h⟩ := Option.bind_eq_some_iff.mp h
      rw [settleAttach] at h
      split at h
      · cases h
      next hfailed =>
        cases h
        exact .failed a x hwork hx hfailed
      next hlease =>
        split_ifs at h with hcheck
        · cases h
          exact .register a x hwork hx hlease hcheck.1 hcheck.2.1 hcheck.2.2
        · cases h
          exact .reject a x hwork hx hlease
    next a hwork =>
      obtain ⟨ok, hok, rfl⟩ := Option.map_eq_some_iff.mp h
      refine .finish (.inr (by simp [hwork, Work.Begun])) (by simp [hwork]) (by simp [hwork]) ?_
        (by simp [hwork, Work.Disconnects])
      intro b hb
      rw [hwork] at hb
      cases hb
      rw [hok]
      rfl
    next hwork =>
      cases h
      exact .finish (.inr (by simp [hwork, Work.Begun])) (by simp [hwork]) (by simp [hwork]) (by simp [hwork])
        (by simp [hwork, Work.Disconnects])
    next a disconnect hwork =>
      obtain ⟨ok, hok, rfl⟩ := Option.map_eq_some_iff.mp h
      cases disconnect with
      | false =>
        rw [if_neg (by simp)]
        exact .finish (.inr (by simp [hwork, Work.Begun])) (by simp [hwork]) (by simp [hwork]) (by simp [hwork])
          (by simp [hwork, Work.Disconnects])
      | true =>
        rw [if_pos rfl]
        exact .finishDisconnect (.inr ⟨a, hwork, by rw [hok]; rfl⟩)
    · cases h

/-! ## One after the other -/

/-- The operations of a client begin when those before have ended. -/
structure Serial (s : Operations C S) : Prop where
  last : ∀ i o, s.operations i = some o → o.work ≠ .done → ∃ t, s.clientOperations o.client = some t ∧ i ≤ t
  client : ∀ c t, s.clientOperations c = some t → (s.operations t).map (·.client) = some c
  before : ∀ i o p, s.operations i = some o → o.previous = some p → p < i ∧ (s.operations p).map (·.client) = some o.client
  chain : ∀ i o j o', j < i → s.operations i = some o → s.operations j = some o' → o'.client = o.client →
    o'.work ≠ .done → ∃ p, o.previous = some p ∧ j ≤ p
  order : ∀ i o j o', j < i → s.operations i = some o → s.operations j = some o' → o'.client = o.client → o.work.Begun →
    o'.work = .done

namespace Serial

variable {s : Operations C S}

theorem init : Serial ({} : Operations C S) where
  last _ _ h := by cases h
  client _ _ h := by cases h
  before _ _ _ h := by cases h
  chain _ _ _ _ _ h := by cases h
  order _ _ _ _ _ h := by cases h

/-- Of the operations of a client that have begun, one at most has not ended. -/
theorem unique (h : Serial s) {i j : ℕ} {o o' : Operation C S} (hi : s.operations i = some o)
    (hj : s.operations j = some o') (hclient : o'.client = o.client) (hbegun : o.work.Begun) (hbegun' : o'.work.Begun)
    (hdone : o.work ≠ .done) (hdone' : o'.work ≠ .done) : i = j := by
  rcases Nat.lt_trichotomy i j with hlt | rfl | hlt
  · exact absurd (h.order j o' i o hlt hj hi hclient.symm hbegun') hdone
  · rfl
  · exact absurd (h.order i o j o' hlt hi hj hclient hbegun) hdone'

/-- Before an operation that can begin, all others of its client have ended. -/
theorem done_of_ready (h : Serial s) {i j : ℕ} {o o' : Operation C S} (hi : s.operations i = some o)
    (hready : ∀ p, o.previous = some p → ∀ q, s.operations p = some q → q.work = .done) (hlt : j < i)
    (hj : s.operations j = some o') (hclient : o'.client = o.client) : o'.work = .done := by
  by_contra hdone
  obtain ⟨p, hp, hle⟩ := h.chain i o j o' hlt hi hj hclient hdone
  obtain ⟨q, hq, hqclient⟩ := Option.map_eq_some_iff.mp (h.before i o p hi hp).2
  have hqdone := hready p hp q hq
  rcases Nat.lt_or_eq_of_le hle with hjp | rfl
  · exact hdone (h.order p q j o' hjp hq hj (hclient.trans hqclient.symm) (by simp [hqdone, Work.Begun]))
  · rw [hj] at hq
    cases hq
    exact hdone hqdone

/-- A new operation. -/
theorem enqueue (h : Serial s) (hfresh : ∀ i, s.nextOperation ≤ i → s.operations i = none) (c : C) {work : Work S}
    (hbegun : ¬work.Begun) :
    Serial { s with
      operations := Function.update s.operations s.nextOperation (some ⟨c, s.clientOperations c, work⟩)
      nextOperation := s.nextOperation + 1
      clientOperations := Function.update s.clientOperations c (some s.nextOperation) } := by
  have hlt (i : ℕ) (o : Operation C S) (hi : s.operations i = some o) : i < s.nextOperation := by
    by_contra hle
    rw [hfresh i (by omega)] at hi
    cases hi
  have hnext := hfresh _ le_rfl
  obtain ⟨h1, h2, h3, h4, h5⟩ := h
  refine ⟨?_, ?_, ?_, ?_, ?_⟩
  · intro i o hi hdone
    simp only [Function.update_apply] at hi ⊢
    split_ifs at hi with hnew
    · cases hi
      exact ⟨s.nextOperation, by simp, by omega⟩
    · split_ifs
      · exact ⟨_, rfl, le_of_lt (hlt i o hi)⟩
      · exact h1 i o hi hdone
  · intro c' t ht
    simp only [Function.update_apply] at ht ⊢
    grind
  · intro i o p hi hp
    simp only [Function.update_apply] at hi ⊢
    grind
  · intro i o j o' hji hi hj hclient hdone
    simp only [Function.update_apply] at hi hj
    split_ifs at hi with hnew
    · cases hi
      rw [if_neg (by omega)] at hj
      obtain ⟨t, ht, hle⟩ := h1 j o' hj hdone
      exact ⟨t, by rw [← ht, hclient], hle⟩
    · rw [if_neg (by have := hlt i o hi; omega)] at hj
      exact h4 i o j o' hji hi hj hclient hdone
  · intro i o j o' hji hi hj hclient hwork
    simp only [Function.update_apply] at hi hj
    split_ifs at hi with hnew
    · cases hi
      exact absurd hwork hbegun
    · rw [if_neg (by have := hlt i o hi; omega)] at hj
      exact h5 i o j o' hji hi hj hclient hwork

/-- An operation goes on. -/
theorem setWork (h : Serial s) {i : ℕ} {o : Operation C S} {work : Work S} (hi : s.operations i = some o)
    (hbegun : (∀ p, o.previous = some p → ∀ q, s.operations p = some q → q.work = .done) ∨ o.work.Begun)
    (hdone : o.work ≠ .done) :
    Serial { s with operations := modifyAt s.operations i fun o => { o with work := work } } := by
  have hearlier (j : ℕ) (o' : Operation C S) (hlt : j < i) (hj : s.operations j = some o')
      (hclient : o'.client = o.client) : o'.work = .done := by
    rcases hbegun with hready | hwork
    · exact h.done_of_ready hi hready hlt hj hclient
    · exact h.order i o j o' hlt hi hj hclient hwork
  have hclients (j : ℕ) : (modifyAt s.operations i (fun o => { o with work := work }) j).map (·.client)
      = (s.operations j).map (·.client) := by
    apply map_modifyAt
    exact fun _ => rfl
  obtain ⟨h1, h2, h3, h4, h5⟩ := h
  refine ⟨?_, ?_, ?_, ?_, ?_⟩
  · intro j o' hj hdone'
    rcases modifyAt_eq_some.mp hj with ⟨rfl, o'', hj', rfl⟩ | ⟨-, hj'⟩
    · rw [hi] at hj'
      cases hj'
      exact h1 j o hi hdone
    · exact h1 j o' hj' hdone'
  · intro c t ht
    exact (hclients t).trans (h2 c t ht)
  · intro j o' p hj hp
    rcases modifyAt_eq_some.mp hj with ⟨rfl, o'', hj', rfl⟩ | ⟨-, hj'⟩
    · exact (h3 j o'' p hj' hp).imp_right (hclients p).trans
    · exact (h3 j o' p hj' hp).imp_right (hclients p).trans
  · intro k o' j o'' hlt hk hj hclient hdone'
    obtain ⟨q, hq, hqprevious, hqclient⟩ : ∃ q, s.operations k = some q ∧ q.previous = o'.previous ∧ q.client = o'.client := by
      rcases modifyAt_eq_some.mp hk with ⟨rfl, q, hq, rfl⟩ | ⟨-, hq⟩
      · exact ⟨q, hq, rfl, rfl⟩
      · exact ⟨o', hq, rfl, rfl⟩
    rw [← hqprevious]
    rcases modifyAt_eq_some.mp hj with ⟨rfl, q', hq', rfl⟩ | ⟨-, hq'⟩
    · rw [hi] at hq'
      cases hq'
      exact h4 k q j o hlt hq hi (hclient.trans hqclient.symm) hdone
    · exact h4 k q j o'' hlt hq hq' (hclient.trans hqclient.symm) hdone'
  · intro k o' j o'' hlt hk hj hclient hwork
    rcases modifyAt_eq_some.mp hk with ⟨rfl, q, hq, rfl⟩ | ⟨hne, hq⟩
    · rw [hi] at hq
      cases hq
      rcases modifyAt_eq_some.mp hj with ⟨rfl, -⟩ | ⟨-, hq'⟩
      · exact absurd hlt (lt_irrefl _)
      · exact hearlier j o'' hlt hq' hclient
    · rcases modifyAt_eq_some.mp hj with ⟨rfl, q', hq', rfl⟩ | ⟨-, hq'⟩
      · rw [hi] at hq'
        cases hq'
        exact absurd (h5 k o' j o hlt hq hi hclient hwork) hdone
      · exact h5 k o' j o'' hlt hq hq' hclient hwork

/-- The last operation of a client is forgotten when it has ended. -/
theorem forget (h : Serial s) {i : ℕ} {o : Operation C S} {c : C} (hi : s.operations i = some o) (hc : o.client = c)
    (hdone : o.work = .done) : Serial { s with clientOperations := deleteIf s.clientOperations c i } := by
  subst hc
  obtain ⟨h1, h2, h3, h4, h5⟩ := h
  refine ⟨?_, ?_, h3, h4, h5⟩
  · intro j o' hj hdone'
    obtain ⟨t, ht, hle⟩ := h1 j o' hj hdone'
    refine ⟨t, ?_, hle⟩
    simp only [deleteIf_apply]
    rw [if_neg, ht]
    rintro ⟨hclient, hlast⟩
    rw [← hclient, ht] at hlast
    cases hlast
    rcases Nat.lt_or_eq_of_le hle with hlt | rfl
    · exact hdone' (h5 i o j o' hlt hi hj hclient (by simp [hdone, Work.Begun]))
    · rw [hi] at hj
      cases hj
      exact hdone' hdone
  · intro c t ht
    simp only [deleteIf_apply] at ht
    split_ifs at ht
    exact h2 c t ht

end Serial

end Phi.Server

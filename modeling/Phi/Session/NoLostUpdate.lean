import Phi.Session.Appends

/-!
# No lost update

What a session promises to callers that do not wait for each other: its mutations are serial, a mutation that
fails leaves the line free for the next, and nothing starts on a line that was sealed.
-/

namespace Phi.Session

section Runs

variable {storage : InMemoryStorageState} {s s' : StorageBackedSession} {i : ℕ} {job : SessionJob}

/-! ## Progress -/

/-- An event in which nothing is called. -/
def Event.internal : Event → Bool
  | start _ => true
  | resume _ _ => true
  | commit _ _ _ => true
  | _ => false

/-- The line goes on by itself. -/
def Progress (s s' : StorageBackedSession) : Prop := ∃ event, event.internal = true ∧ s.step event = some s'

/-- How far a job has got; later points are smaller. -/
inductive Nearer : JobStatus Mutation Receipt → JobStatus Mutation Receipt → Prop where
  | refused : Nearer .refused .waiting
  | granted (m : Mutation) : Nearer (.running m) .waiting
  | ended (receipt : Receipt) (m : Mutation) : Nearer (.finished receipt) (.running m)
  | resumed {m m' : Mutation} {answer : Option InMemoryStorageState}
      (h : m.resume answer = some (.running m')) : Nearer (.running m') (.running m)
  | settled (callback : Callback) (writes : List Write) {attempt : Attempt} (h : ∀ w, attempt ≠ .asked w) :
      Nearer (.running ⟨callback, some attempt⟩) (.running ⟨callback, some (.asked writes)⟩)

theorem acc_finished (receipt : Receipt) : Acc Nearer (.finished receipt) := by
  constructor
  intro y hy
  cases hy

/-- While a callback waits, its attempt can only change from asked to something else. -/
theorem acc_of_next {callback : Callback}
    (hnext : ∀ (m : Mutation) answer m', m.callback = callback → m.resume answer = some (.running m') →
      Acc Nearer (.running m')) (attempt : Option Attempt) : Acc Nearer (.running ⟨callback, attempt⟩) := by
  have hset : ∀ attempt, (∀ w, attempt ≠ some (.asked w)) → Acc Nearer (.running ⟨callback, attempt⟩) := by
    intro attempt hne
    constructor
    intro y hy
    cases hy with
    | ended receipt => exact acc_finished receipt
    | resumed h => exact hnext _ _ _ rfl h
    | settled _ writes h => exact absurd rfl (hne writes)
  constructor
  intro y hy
  cases hy with
  | ended receipt => exact acc_finished receipt
  | resumed h => exact hnext _ _ _ rfl h
  | settled _ writes h => exact hset _ fun w heq => h w (Option.some.inj heq)

/-- Callbacks are trees, so they end. -/
theorem acc_running (callback : Callback) (attempt : Option Attempt) :
    Acc Nearer (.running ⟨callback, attempt⟩) := by
  induction callback generalizing attempt with
  | done result =>
    apply acc_of_next
    intro m answer m' hcb hm'
    rcases resume_eq_some hm' with ⟨_, _, _, hst⟩ | ⟨_, hcb', _⟩ | ⟨_, _, hcb', _⟩ | ⟨_, _, hcb', _⟩
    · cases hst
    · rw [hcb] at hcb'
      cases hcb'
    · rw [hcb] at hcb'
      cases hcb'
    · rw [hcb] at hcb'
      cases hcb'
  | read k ih =>
    apply acc_of_next
    intro m answer m' hcb hm'
    simp only [Mutation.resume, hcb, Option.some.injEq, JobStatus.running.injEq] at hm'
    subst hm'
    exact ih answer _
  | commit writes k ih =>
    apply acc_of_next
    intro m answer m' hcb hm'
    simp only [Mutation.resume, hcb, Option.some.injEq, JobStatus.running.injEq] at hm'
    subst hm'
    exact ih _ _
  | settled k ih =>
    apply acc_of_next
    intro m answer m' hcb hm'
    rcases resume_eq_some hm' with ⟨_, _, _, hst⟩ | ⟨_, hcb', _⟩ | ⟨_, _, hcb', _⟩ | ⟨k', r, hcb', _, _, hst⟩
    · cases hst
    · rw [hcb] at hcb'
      cases hcb'
    · rw [hcb] at hcb'
      cases hcb'
    · rw [hcb] at hcb'
      cases hcb'
      cases hst
      exact ih r _

theorem wellFounded_nearer : WellFounded Nearer := by
  have hrunning : ∀ m, Acc Nearer (.running m) := fun m => acc_running m.callback m.commitResult
  have hrefused : Acc Nearer (.refused : JobStatus Mutation Receipt) := by
    constructor
    intro y hy
    cases hy
  constructor
  intro status
  cases status with
  | finished receipt => exact acc_finished receipt
  | running m => exact hrunning m
  | refused => exact hrefused
  | waiting =>
    constructor
    intro y hy
    cases hy with
    | refused => exact hrefused
    | granted m => exact hrunning m

theorem cutExpand_set {α : Type*} {r : α → α → Prop} {l : List α} {a a' : α} (h : l[i]? = some a)
    (hr : r a' a) : Relation.CutExpand r (l.set i a' : Multiset α) l := by
  rcases List.getElem?_eq_some_iff.mp h with ⟨hi, hget⟩
  have hl : l.Perm (a :: (l.take i ++ l.drop (i + 1))) := by
    conv_lhs => rw [← List.take_append_drop i l, List.drop_eq_getElem_cons hi, hget]
    exact List.perm_middle
  have hset : (l.set i a').Perm (a' :: (l.take i ++ l.drop (i + 1))) := by
    rw [List.set_eq_take_append_cons_drop, if_pos hi]
    exact List.perm_middle
  rw [Multiset.coe_eq_coe.mpr hl, Multiset.coe_eq_coe.mpr hset, ← Multiset.cons_coe, ← Multiset.cons_coe,
    ← Multiset.singleton_add, ← Multiset.singleton_add]
  exact Relation.cutExpand_single_add hr _

theorem statuses_setStatus (line : MutationLine Call Mutation Receipt) (i : ℕ)
    (status : JobStatus Mutation Receipt) :
    (line.setStatus i status).jobs.map (·.status) = (line.jobs.map (·.status)).set i status := by
  apply List.ext_getElem?
  intro j
  rw [List.getElem?_map, MutationLine.getElem?_setStatus, List.getElem?_set, List.getElem?_map]
  by_cases hij : i = j
  · subst hij
    by_cases hi : i < line.jobs.length
    · simp [hi]
    · simp [hi]
  · simp [hij]

/-- A job takes one of its statuses for a nearer one. -/
theorem cutExpand_setStatus {line : MutationLine Call Mutation Receipt} {status : JobStatus Mutation Receipt}
    (hjob : line.jobs[i]? = some job) (hnearer : Nearer status job.status) :
    Relation.CutExpand Nearer ((line.setStatus i status).jobs.map (·.status) : Multiset _)
      (line.jobs.map (·.status)) := by
  rw [statuses_setStatus]
  exact cutExpand_set (by rw [List.getElem?_map, hjob]; rfl) hnearer

/-- Every internal event takes one job nearer to its end. -/
theorem cutExpand_of_progress (h : Progress s s') :
    Relation.CutExpand Nearer (s'.line.jobs.map (·.status) : Multiset _) (s.line.jobs.map (·.status)) := by
  rcases h with ⟨event, hinternal, hstep⟩
  cases event with
  | start i =>
    simp only [StorageBackedSession.step, Option.map_eq_some_iff] at hstep
    rcases hstep with ⟨line, hline, rfl⟩
    rcases MutationLine.start_eq_some hline with ⟨operation, after, hjob, -, rfl⟩
    apply cutExpand_setStatus hjob
    split
    · exact .refused
    · exact .granted _
  | resume i fails =>
    simp only [StorageBackedSession.step] at hstep
    split at hstep
    · rename_i operation after m hjob
      rw [Option.map_eq_some_iff] at hstep
      rcases hstep with ⟨status, hstatus, rfl⟩
      apply cutExpand_setStatus hjob
      cases status with
      | running m' => exact .resumed hstatus
      | finished receipt => exact .ended receipt m
      | waiting => cases (commits_of_resume hstatus).1
      | refused => cases (commits_of_resume hstatus).1
    · cases hstep
  | commit i fails timestamp =>
    simp only [StorageBackedSession.step] at hstep
    split at hstep
    · rename_i operation after callback writes hjob
      cases hstep
      apply cutExpand_setStatus hjob
      apply Nearer.settled
      intro w
      unfold StorageBackedSession.settle
      split <;> rintro ⟨⟩
    · cases hstep
  | _ => cases hinternal

/-- The line cannot go on by itself for ever. -/
theorem acc_progress (s : StorageBackedSession) : Acc (fun s' s => Progress s s') s := by
  have hwf : WellFounded fun s' s : StorageBackedSession =>
      Relation.CutExpand Nearer (s'.line.jobs.map (·.status) : Multiset _) (s.line.jobs.map (·.status)) :=
    InvImage.wf _ wellFounded_nearer.cutExpand
  exact Subrelation.accessible (fun h => cutExpand_of_progress h) (hwf.apply s)

theorem progress_of_isSome (event : Event) (hinternal : event.internal = true)
    (h : (s.step event).isSome = true) : ∃ s', Progress s s' := by
  rcases Option.isSome_iff_exists.mp h with ⟨s', hs'⟩
  exact ⟨s', event, hinternal, hs'⟩

/-- A mutation that does not wait for its commit goes on. -/
theorem resume_isSome {m : Mutation} (h : ∀ writes, m.commitResult ≠ some (.asked writes))
    (answer : Option InMemoryStorageState) : (m.resume answer).isSome = true := by
  rcases m with ⟨callback, _ | attempt⟩
  · cases callback <;> rfl
  · cases attempt with
    | asked writes => exact absurd rfl (h writes)
    | _ => cases callback <;> rfl

/-- While a job has not settled, the line goes on. -/
theorem exists_progress (h : s.line.Ordered) (hjob : s.line.jobs[i]? = some job)
    (hst : job.status.settled = false) : ∃ s', Progress s s' := by
  -- the first job that has not settled can go on
  induction i using Nat.strong_induction_on generalizing job with
  | _ i ih =>
    by_cases hearlier : ∃ j earlier, j < i ∧ s.line.jobs[j]? = some earlier ∧ earlier.status.settled = false
    · rcases hearlier with ⟨j, earlier, hji, hj, hsettled⟩
      exact ih j hji hj hsettled
    · rcases job with ⟨operation, after, status⟩
      cases status with
      | waiting =>
        have hafter : s.line.hasSettled after = true := by
          have hbefore : after = MutationLine.before i := h.after i _ hjob
          rw [hbefore]
          rcases i with _ | i
          · rfl
          · have hi : i < s.line.jobs.length := by
              have := (List.getElem?_eq_some_iff.mp hjob).1
              omega
            have hprev : s.line.jobs[i]? = some s.line.jobs[i] := List.getElem?_eq_getElem hi
            by_contra hne
            refine hearlier ⟨i, _, Nat.lt_succ_self i, hprev, ?_⟩
            simpa [MutationLine.before, MutationLine.hasSettled, hprev] using hne
        apply progress_of_isSome (.start i) rfl
        simp [StorageBackedSession.step, MutationLine.start, hjob, hafter]
      | running m =>
        by_cases hasked : ∃ writes, m.commitResult = some (.asked writes)
        · rcases m with ⟨callback, attempt⟩
          rcases hasked with ⟨writes, hasked⟩
          simp only at hasked
          subst hasked
          apply progress_of_isSome (.commit i true 0) rfl
          simp [StorageBackedSession.step, hjob]
        · have hresume := resume_isSome (m := m) (fun writes heq => hasked ⟨writes, heq⟩) none
          apply progress_of_isSome (.resume i true) rfl
          simpa [StorageBackedSession.step, hjob] using hresume
      | finished receipt => cases hst
      | refused => cases hst

/-! ## The seal -/

/-- On a sealed line an event starts nothing. -/
theorem Effect.started_of_sealed (he : Effect s s') (hsealed : s.line.sealedError = true) :
    s'.line.sealedError = true ∧ ∀ (i : ℕ) (job' : SessionJob), s'.line.jobs[i]? = some job' →
      job'.status.started = true → ∃ job : SessionJob, s.line.jobs[i]? = some job ∧ job.status.started = true := by
  -- a change of status to one that was started before
  have hset : ∀ (i : ℕ) (status : JobStatus Mutation Receipt), (status.started = true →
      ∃ job : SessionJob, s.line.jobs[i]? = some job ∧ job.status.started = true) →
      ∀ (j : ℕ) (job' : SessionJob), (s.line.setStatus i status).jobs[j]? = some job' →
        job'.status.started = true → ∃ job : SessionJob, s.line.jobs[j]? = some job ∧ job.status.started = true := by
    intro i status hold j job' hj hst
    rcases MutationLine.exists_of_getElem?_setStatus hj with ⟨job, hjob, -, -, hstatus⟩
    rw [hstatus] at hst
    by_cases hij : i = j
    · subst hij
      rw [if_pos rfl] at hst
      exact hold hst
    · rw [if_neg hij] at hst
      exact ⟨job, hjob, hst⟩
  cases he with
  | rejected => exact ⟨hsealed, fun i job hjob hst => ⟨job, hjob, hst⟩⟩
  | called c hopen =>
    rw [hsealed] at hopen
    cases hopen
  | started i hline =>
    rcases MutationLine.start_eq_some hline with ⟨operation, after, hjob, -, rfl⟩
    refine ⟨hsealed, hset i _ ?_⟩
    rw [if_pos hsealed]
    intro hst
    cases hst
  | resumed i hjob hst hanswer hresume => exact ⟨hsealed, hset i _ fun _ => ⟨_, hjob, by rw [hst]; rfl⟩⟩
  | committed i hjob hst fails timestamp => exact ⟨hsealed, hset i _ fun _ => ⟨_, hjob, by rw [hst]; rfl⟩⟩
  | closing => exact ⟨rfl, fun i job hjob hst => ⟨job, hjob, hst⟩⟩
  | closed => exact ⟨hsealed, fun i job hjob hst => ⟨job, hjob, hst⟩⟩

/-- Once the line is sealed no job starts any more. -/
theorem started_of_run_sealed {events : List Event} (hsealed : s.line.sealedError = true)
    (hrun : s.run events = some s') {job' : SessionJob} (hjob : s'.line.jobs[i]? = some job')
    (hst : job'.status.started = true) :
    ∃ job : SessionJob, s.line.jobs[i]? = some job ∧ job.status.started = true := by
  have hall : s'.line.sealedError = true ∧ ∀ (i : ℕ) (job' : SessionJob), s'.line.jobs[i]? = some job' →
      job'.status.started = true → ∃ job : SessionJob, s.line.jobs[i]? = some job ∧ job.status.started = true := by
    refine run_induction (P := fun t => t.line.sealedError = true ∧ ∀ (i : ℕ) (job' : SessionJob),
      t.line.jobs[i]? = some job' → job'.status.started = true →
        ∃ job : SessionJob, s.line.jobs[i]? = some job ∧ job.status.started = true) ?_
      ⟨hsealed, fun i job hjob hst => ⟨job, hjob, hst⟩⟩ hrun
    intro t t' ht he
    rcases he.started_of_sealed ht.1 with ⟨hsealed', hstarted⟩
    refine ⟨hsealed', fun i job' hjob' hst' => ?_⟩
    rcases hstarted i job' hjob' hst' with ⟨job, hjob, hst⟩
    exact ht.2 i job hjob hst
  exact hall.2 i job' hjob hst

end Runs

/-! ## The session as a whole -/

/-- What the session has done and can still do, when its storage was `storage` at the start. -/
structure NoLostUpdate (storage : InMemoryStorageState) (s : StorageBackedSession) : Prop where
  /-- The jobs run in call order. -/
  ordered : s.line.Ordered
  /-- They run one at a time. -/
  one_at_a_time : ∀ (i j : ℕ) (first second : SessionJob) m m', s.line.jobs[i]? = some first →
    s.line.jobs[j]? = some second → first.status = .running m → second.status = .running m' → i = j
  /-- The storage is what the commits of the jobs make of it in call order. -/
  serial : s.storage = storageAt storage s.line.jobs s.line.jobs.length
  /-- An append that returned was made on the tip the jobs before it left, and its entry stays. -/
  appended : ∀ (i : ℕ) (job : SessionJob) name entry id receipt, s.line.jobs[i]? = some job →
    job.operation = .appendToBranch name entry id → job.status = .finished receipt → receipt.result = .ok () →
    Appended (storageAt storage s.line.jobs i) (storageAt storage s.line.jobs (i + 1)) name entry id ∧
      s.storage.entries.get id = (storageAt storage s.line.jobs (i + 1)).entries.get id
  /-- An append that failed left everything as it was. -/
  failed : ∀ (i : ℕ) (job : SessionJob) name entry id receipt, s.line.jobs[i]? = some job →
    job.operation = .appendToBranch name entry id → job.status = .finished receipt → receipt.result ≠ .ok () →
    storageAt storage s.line.jobs (i + 1) = storageAt storage s.line.jobs i
  /-- The parent of an append is the append before it, if the jobs between them left the tip. -/
  chained : ∀ (i j : ℕ) (first second : SessionJob) name entry id entry' id', i < j →
    s.line.jobs[i]? = some first → s.line.jobs[j]? = some second →
    first.operation = .appendToBranch name entry id → first.succeeded = true →
    second.operation = .appendToBranch name entry' id' → second.succeeded = true →
    (∀ k, i < k → k < j → LeavesTip storage s.line.jobs name k) →
    ∃ stored, s.storage.entries.get id' = some stored ∧ stored.parentId = some id
  /-- A job leaves a tip that it does not write, and one whose commit fails as a whole. -/
  leaves : ∀ (i : ℕ) (job : SessionJob) name, s.line.jobs[i]? = some job →
    ((∀ writes timestamp result, job.status.attempt = some (.performed writes timestamp result) →
        ∀ w ∈ writes, ¬w.writesValue (branchTip name)) ∨
      (job.succeeded = false ∧ ∀ c ∈ job.commits,
        ¬(storageAt storage s.line.jobs i).Tears (c.writes (storageAt storage s.line.jobs i)))) →
    LeavesTip storage s.line.jobs name i
  /-- The path of a branch grows by the successful appends, as long as nothing else moves its tip. -/
  path : ∀ (i : ℕ) name ids, i ≤ s.line.jobs.length →
    BranchPath (storageAt storage s.line.jobs i) name ids →
    (∀ (j : ℕ) (job : SessionJob), i ≤ j → s.line.jobs[j]? = some job →
      job.operation.keepsTip name ∨ LeavesTip storage s.line.jobs name j) →
    BranchPath s.storage name ((appendedIds name (s.line.jobs.drop i)).reverse ++ ids)
  /-- While some job has not settled the line goes on, and it cannot go on for ever. -/
  unblocked : ∀ (i : ℕ) (job : SessionJob), s.line.jobs[i]? = some job → job.status.settled = false →
    ∃ s', Progress s s'
  drains : Acc (fun s' s => Progress s s') s
  /-- Nothing starts once the line is sealed. -/
  after_seal : s.line.sealedError = true → ∀ events s' (i : ℕ) (job' : SessionJob), s.run events = some s' →
    s'.line.jobs[i]? = some job' → job'.status.started = true →
    ∃ job : SessionJob, s.line.jobs[i]? = some job ∧ job.status.started = true

theorem no_lost_update (storage : InMemoryStorageState) (h0 : storage.Invariant) (events : List Event)
    (s : StorageBackedSession) (hrun : (StorageBackedSession.init storage).run events = some s) :
    NoLostUpdate storage s := by
  have h := serial_of_run hrun
  -- what is stored at the place of a job is still there at the end
  have hkept : ∀ i id stored, (storageAt storage s.line.jobs i).entries.get id = some stored →
      s.storage.entries.get id = some stored := by
    intro i id stored hget
    rw [h.storage_eq]
    rcases le_total i s.line.jobs.length with hi | hi
    · exact InMemoryStorageState.get_of_steps (storageAt_steps storage s.line.jobs hi) hget
    · unfold storageAt at hget ⊢
      rw [List.take_of_length_le hi] at hget
      rw [List.take_length]
      exact hget
  constructor
  case ordered => exact h.ordered
  case one_at_a_time =>
    intro i j first second m m' hi hj hfirst hsecond
    exact h.ordered.running_unique hi hj hfirst hsecond
  case serial => exact h.storage_eq
  case appended =>
    intro i job name entry id receipt hjob hop hst hok
    have hyes := (h.append_result hjob hop hst).mp hok
    rcases h.append_cases hjob hop with ⟨hno, -⟩ | ⟨-, happended⟩
    · rw [hyes] at hno
      cases hno
    · refine ⟨happended, ?_⟩
      rcases happended with ⟨tip, parent, stored, -, -, hstored, -⟩
      rw [hstored, hkept (i + 1) id stored hstored]
  case failed =>
    intro i job name entry id receipt hjob hop hst herr
    rcases h.append_cases hjob hop with ⟨-, hsame⟩ | ⟨hyes, -⟩
    · exact hsame
    · exact absurd ((h.append_result hjob hop hst).mpr hyes) herr
  case chained =>
    intro i j first second name entry id entry' id' hij hi hj hop hyes hop' hyes' hleaves
    rcases h.append_cases hi hop with ⟨hno, -⟩ | ⟨-, hfirst⟩
    · rw [hyes] at hno
      cases hno
    rcases h.append_cases hj hop' with ⟨hno, -⟩ | ⟨-, hsecond⟩
    · rw [hyes'] at hno
      cases hno
    rcases hfirst with ⟨-, -, -, -, -, -, -, seq, htip⟩
    rcases hsecond with ⟨tip', parent, stored, htip', hparent, hstored, hnew, -⟩
    refine ⟨stored, hkept (j + 1) id' stored hstored, ?_⟩
    -- the tip the second append read is the one the first has left
    have hsame := getValue_of_leavesTip storage s.line.jobs hij fun k hik hkj => hleaves k hik hkj
    rw [htip, htip', Option.some_inj] at hsame
    rw [hsame] at hparent
    rw [hnew, newEntry_parentId, ← Option.some_inj, ← hparent]
    rfl
  case leaves =>
    rintro i job name hjob (hw | ⟨hfailed, htears⟩)
    · exact leavesTip_of_not_writes h0 hjob hw
    · exact h.leavesTip_of_failed h0 hjob hfailed htears
  case path =>
    intro i name ids hi hpath honly
    have hend := h.branchPath h0 hpath honly hi le_rfl
    rw [h.storage_eq]
    rwa [List.take_length] at hend
  case unblocked =>
    intro i job hjob hst
    exact exists_progress h.ordered hjob hst
  case drains => exact acc_progress s
  case after_seal =>
    intro hsealed events s' i job' hrun' hjob hst
    exact started_of_run_sealed hsealed hrun' hjob hst

/-! ## Two runs -/

/-- A job alone: it is started, reads, asks for its commit, has it settled, and ends. -/
def jobEvents (i : ℕ) (fails : Bool) : List Event :=
  [.start i, .resume i false, .resume i false, .commit i fails 0, .resume i false, .resume i false]

def mainBranch : JsString := JsString.ofAscii "main"

def appendCall (id : String) : Call :=
  .appendToBranch mainBranch (.custom (JsString.ofAscii "note") none) (JsString.ofAscii id)

/-- Three appends called at once, the commit of the second fails. -/
def failingEvents : List Event :=
  [.call (.createBranch mainBranch none), .call (appendCall "a"), .call (appendCall "b"), .call (appendCall "c")]
    ++ jobEvents 0 false ++ jobEvents 1 false ++ jobEvents 2 true ++ jobEvents 3 false

theorem no_lost_update_failing :
    ∃ s, (StorageBackedSession.init .empty).run failingEvents = some s ∧ NoLostUpdate .empty s ∧
      appendedIds mainBranch s.line.jobs = [JsString.ofAscii "a", JsString.ofAscii "c"] := by
  refine ⟨_, rfl, no_lost_update .empty InMemoryStorageState.invariant_empty failingEvents _ rfl, ?_⟩
  decide

/-- Between two appends a caller sets the tip of the branch. -/
def movingEvents : List Event :=
  [.call (.createBranch mainBranch none), .call (appendCall "a"), .call (.setValue (branchTip mainBranch) .null),
    .call (appendCall "b")]
    ++ jobEvents 0 false ++ jobEvents 1 false
    ++ [.start 2, .resume 2 false, .commit 2 false 0, .resume 2 false, .resume 2 false] ++ jobEvents 3 false

/-- Both appends succeed, but the second does not stand on the first. -/
theorem append_beside_moved_tip :
    ∃ s, (StorageBackedSession.init .empty).run movingEvents = some s ∧
      appendedIds mainBranch s.line.jobs = [JsString.ofAscii "a", JsString.ofAscii "b"] ∧
      (s.storage.entries.get (JsString.ofAscii "b")).map (fun e => e.parentId) = some none := by
  refine ⟨_, rfl, ?_, rfl⟩
  decide

end Phi.Session

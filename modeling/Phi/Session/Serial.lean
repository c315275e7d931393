import Phi.Session.Session

/-!
# Mutations are serial

Whatever the order of the events, a session does what it would do if its calls ran one after another. `storageAt`
is the storage that the jobs before a place leave when their commits are made in call order; a mutation only ever
sees the storage at its own place, and what its own commit makes of it (`Reaches`). The invariant is `Serial`.
-/

namespace Phi.Session

open InMemoryStorageState (CommitResult Commit runCommits)

/-- A job of the line of a session. -/
abbrev SessionJob := Job Call Mutation Receipt

/-! ## Commits of a job -/

/-- The commit a job has attempted. -/
def JobStatus.attempt : JobStatus Mutation Receipt → Option Attempt
  | running m => m.commitResult
  | finished receipt => receipt.commitResult
  | _ => none

/-- What the storage went through with, accepted or not. -/
def commitsOf : Option Attempt → List Commit
  | some (.performed writes timestamp _) => [.new writes timestamp]
  | _ => []

def Job.commits (job : SessionJob) : List Commit := commitsOf job.status.attempt

/-- The storage as the jobs before the place `i` left it. -/
def storageAt (storage : InMemoryStorageState) (jobs : List SessionJob) (i : ℕ) : InMemoryStorageState :=
  runCommits storage ((jobs.take i).flatMap Job.commits)

/-! ## What a mutation sees -/

/-- A step of a mutation alone on a storage. -/
inductive Mutation.Step (base : InMemoryStorageState) : Mutation → Mutation → Prop where
  | resume {m m' : Mutation} {answer : Option InMemoryStorageState}
      (hanswer : ∀ s ∈ answer, s = runCommits base (commitsOf m.commitResult))
      (h : m.resume answer = some (.running m')) : Step base m m'
  | settle (callback : Callback) (writes : List Write) (fails : Bool) (timestamp : ℕ) :
      Step base ⟨callback, some (.asked writes)⟩
        ⟨callback, some (StorageBackedSession.settle base writes fails timestamp).2⟩

/-- A mutation of the call, alone on a storage, gets to this point. -/
def Reaches (base : InMemoryStorageState) (call : Call) : Mutation → Prop :=
  Relation.ReflTransGen (Mutation.Step base) (.grant call)

/-- A mutation of the call, alone on a storage, ends with this receipt. -/
def Ends (base : InMemoryStorageState) (call : Call) (receipt : Receipt) : Prop :=
  ∃ m answer, Reaches base call m ∧ m.resume answer = some (.finished receipt)

/-- What a callback does when it goes on. -/
theorem resume_eq_some {m : Mutation} {answer : Option InMemoryStorageState}
    {status : JobStatus Mutation Receipt} (h : m.resume answer = some status) :
    (∃ result, m.callback = .done result ∧ (∀ writes, m.commitResult ≠ some (.asked writes)) ∧
      status = .finished ⟨result, m.commitResult⟩) ∨
    (∃ k, m.callback = .read k ∧ status = .running ⟨k answer, m.commitResult⟩) ∨
    (∃ writes k, m.callback = .commit writes k ∧
      status = .running ⟨k (m.commit writes).2, (m.commit writes).1⟩) ∨
    ∃ k result, m.callback = .settled k ∧ (∀ writes, m.commitResult ≠ some (.asked writes)) ∧
      result = m.commitResult.bind Attempt.result ∧ status = .running ⟨k result, m.commitResult⟩ := by
  rcases m with ⟨callback, attempt⟩
  cases callback with
  | done result =>
    simp only [Mutation.resume] at h
    split at h
    · cases h
    · rename_i hasked
      cases h
      exact .inl ⟨result, rfl, fun writes heq => hasked writes heq, rfl⟩
  | read k => exact .inr (.inl ⟨k, rfl, (Option.some.inj h).symm⟩)
  | commit writes k => exact .inr (.inr (.inl ⟨writes, k, rfl, (Option.some.inj h).symm⟩))
  | settled k =>
    cases attempt with
    | none => exact .inr (.inr (.inr ⟨k, none, rfl, by simp, rfl, (Option.some.inj h).symm⟩))
    | some attempt =>
      simp only [Mutation.resume, Option.map_eq_some_iff] at h
      rcases h with ⟨r, hr, rfl⟩
      refine .inr (.inr (.inr ⟨k, some r, rfl, ?_, hr.symm, rfl⟩))
      rintro writes ⟨⟩
      cases hr

/-- A call of `commit` makes no commit by itself. -/
theorem commitsOf_commit (m : Mutation) (writes : List Write) :
    commitsOf (m.commit writes).1 = commitsOf m.commitResult := by
  unfold Mutation.commit
  cases m.commitResult with
  | none =>
    dsimp only
    split <;> rfl
  | some attempt => rfl

/-- Going on makes no commit, and the job stays started. -/
theorem commits_of_resume {m : Mutation} {answer : Option InMemoryStorageState}
    {status : JobStatus Mutation Receipt} (h : m.resume answer = some status) :
    status.started = true ∧ commitsOf status.attempt = commitsOf m.commitResult := by
  rcases resume_eq_some h with ⟨_, _, _, rfl⟩ | ⟨_, _, rfl⟩ | ⟨writes, _, _, rfl⟩ | ⟨_, _, _, _, _, rfl⟩
  · exact ⟨rfl, rfl⟩
  · exact ⟨rfl, rfl⟩
  · exact ⟨rfl, commitsOf_commit m writes⟩
  · exact ⟨rfl, rfl⟩

/-- A mutation ends with what its callback returned and the commit it attempted. -/
theorem receipt_of_resume {m : Mutation} {answer : Option InMemoryStorageState} {receipt : Receipt}
    (h : m.resume answer = some (.finished receipt)) :
    m.callback = .done receipt.result ∧ receipt.commitResult = m.commitResult := by
  rcases resume_eq_some h with ⟨_, hcb, _, hr⟩ | ⟨_, _, hr⟩ | ⟨_, _, _, hr⟩ | ⟨_, _, _, _, _, hr⟩
  · cases hr
    exact ⟨hcb, rfl⟩
  · cases hr
  · cases hr
  · cases hr

/-- Settling a commit adds it to what the storage went through with. -/
theorem settle_fst (base : InMemoryStorageState) (writes : List Write) (fails : Bool) (timestamp : ℕ) :
    (StorageBackedSession.settle base writes fails timestamp).1 =
      runCommits base (commitsOf (some (StorageBackedSession.settle base writes fails timestamp).2)) := by
  unfold StorageBackedSession.settle
  cases fails <;> rfl

/-! ## The invariant -/

/-- The session is where the calls, one after another, lead. -/
structure Serial (storage : InMemoryStorageState) (s : StorageBackedSession) : Prop where
  ordered : s.line.Ordered
  storage_eq : s.storage = storageAt storage s.line.jobs s.line.jobs.length
  reaches : ∀ (i : ℕ) (job : SessionJob) m, s.line.jobs[i]? = some job → job.status = .running m →
    Reaches (storageAt storage s.line.jobs i) job.operation m
  ends : ∀ (i : ℕ) (job : SessionJob) receipt, s.line.jobs[i]? = some job → job.status = .finished receipt →
    Ends (storageAt storage s.line.jobs i) job.operation receipt

variable {storage : InMemoryStorageState} {s s' : StorageBackedSession} {i : ℕ}

theorem serial_init (storage : InMemoryStorageState) : Serial storage (.init storage) where
  ordered := MutationLine.ordered_empty
  storage_eq := rfl
  reaches i job m hjob := by cases hjob
  ends i job receipt hjob := by cases hjob

theorem storageAt_append (storage : InMemoryStorageState) {jobs : List SessionJob} {i : ℕ}
    (hi : i ≤ jobs.length) (more : List SessionJob) :
    storageAt storage (jobs ++ more) i = storageAt storage jobs i := by
  unfold storageAt
  rw [List.take_append_of_le_length hi]

theorem storageAt_succ (storage : InMemoryStorageState) {jobs : List SessionJob} {i : ℕ} {job : SessionJob}
    (hjob : jobs[i]? = some job) :
    storageAt storage jobs (i + 1) = runCommits (storageAt storage jobs i) job.commits := by
  unfold storageAt
  rw [List.take_add_one, hjob, List.flatMap_append]
  simp only [Option.toList_some, List.flatMap_singleton, runCommits, List.foldl_append]

theorem storageAt_setStatus (storage : InMemoryStorageState) (line : MutationLine Call Mutation Receipt)
    (status : JobStatus Mutation Receipt) {i j : ℕ} (hji : j ≤ i) :
    storageAt storage (line.setStatus i status).jobs j = storageAt storage line.jobs j := by
  unfold storageAt
  congr 2
  apply List.ext_getElem?
  intro k
  simp only [List.getElem?_take]
  split
  · have hne : i ≠ k := by omega
    simp [MutationLine.getElem?_setStatus, hne]
  · rfl

/-- Jobs that have made no commit do not count. -/
theorem storageAt_length (storage : InMemoryStorageState) {jobs : List SessionJob}
    (h : ∀ (j : ℕ) (later : SessionJob), i < j → jobs[j]? = some later → later.status = .waiting) :
    storageAt storage jobs jobs.length = storageAt storage jobs (i + 1) := by
  have hdrop : (jobs.drop (i + 1)).flatMap Job.commits = [] := by
    rw [List.flatMap_eq_nil_iff]
    intro later hlater
    rcases List.mem_iff_getElem?.mp hlater with ⟨j, hj⟩
    rw [List.getElem?_drop] at hj
    rw [Job.commits, h _ later (by omega) hj]
    rfl
  unfold storageAt
  rw [List.take_length]
  conv_lhs => rw [← List.take_append_drop (i + 1) jobs, List.flatMap_append, hdrop, List.append_nil]

/-- While a job runs the storage is the one at its place, with its own commit. -/
theorem Serial.storage_running (h : Serial storage s) {job : SessionJob} {m : Mutation}
    (hjob : s.line.jobs[i]? = some job) (hst : job.status = .running m) :
    s.storage = runCommits (storageAt storage s.line.jobs i) (commitsOf m.commitResult) := by
  have hbehind := h.ordered.waiting_behind hjob (by rw [hst]; rfl)
  rw [h.storage_eq, storageAt_length storage hbehind, storageAt_succ storage hjob, Job.commits, hst]
  rfl

/-- A job that goes on keeps the invariant, when the storage is what its commit makes of the one at its place. -/
theorem Serial.setStatus (h : Serial storage s) {job : SessionJob} {status : JobStatus Mutation Receipt}
    {after : InMemoryStorageState} (hjob : s.line.jobs[i]? = some job)
    (hbehind : ∀ (j : ℕ) (later : SessionJob), i < j → s.line.jobs[j]? = some later → later.status = .waiting)
    (hordered : (s.line.setStatus i status).Ordered)
    (hstorage : after = runCommits (storageAt storage s.line.jobs i) (commitsOf status.attempt))
    (hreaches : ∀ m, status = .running m → Reaches (storageAt storage s.line.jobs i) job.operation m)
    (hends : ∀ receipt, status = .finished receipt →
      Ends (storageAt storage s.line.jobs i) job.operation receipt) :
    Serial storage { s with storage := after, line := s.line.setStatus i status } := by
  have hnew : (s.line.setStatus i status).jobs[i]? = some { job with status := status } := by
    simp [MutationLine.getElem?_setStatus, hjob]
  constructor
  case ordered => exact hordered
  case storage_eq =>
    have hbehind' : ∀ (j : ℕ) (later : SessionJob), i < j →
        (s.line.setStatus i status).jobs[j]? = some later → later.status = .waiting := by
      intro j later hij hlater
      rcases MutationLine.exists_of_getElem?_setStatus hlater with ⟨later', hlater', -, -, hst⟩
      rw [hst, if_neg (by omega)]
      exact hbehind j later' hij hlater'
    show after = _
    rw [storageAt_length storage hbehind', storageAt_succ storage hnew, storageAt_setStatus storage _ _ le_rfl]
    exact hstorage
  -- a job that is running or has finished is the one that went on, or stands before it
  case reaches =>
    intro j job' m hj hm
    rcases MutationLine.exists_of_getElem?_setStatus hj with ⟨old, hold, hop, -, hst⟩
    rw [hst] at hm
    rcases Nat.lt_trichotomy i j with hij | rfl | hij
    · rw [if_neg (by omega), hbehind j old hij hold] at hm
      cases hm
    · rw [if_pos rfl] at hm
      rw [hold, Option.some_inj] at hjob
      rw [storageAt_setStatus storage _ _ le_rfl, hop, hjob]
      exact hreaches m hm
    · rw [if_neg (by omega)] at hm
      rw [storageAt_setStatus storage _ _ hij.le, hop]
      exact h.reaches j old m hold hm
  case ends =>
    intro j job' receipt hj hm
    rcases MutationLine.exists_of_getElem?_setStatus hj with ⟨old, hold, hop, -, hst⟩
    rw [hst] at hm
    rcases Nat.lt_trichotomy i j with hij | rfl | hij
    · rw [if_neg (by omega), hbehind j old hij hold] at hm
      cases hm
    · rw [if_pos rfl] at hm
      rw [hold, Option.some_inj] at hjob
      rw [storageAt_setStatus storage _ _ le_rfl, hop, hjob]
      exact hends receipt hm
    · rw [if_neg (by omega)] at hm
      rw [storageAt_setStatus storage _ _ hij.le, hop]
      exact h.ends j old receipt hold hm

/-- What holds of the attempts that a call makes alone on a storage holds of the job at its place. -/
theorem Serial.forall_attempt (h : Serial storage s) {job : SessionJob} (hjob : s.line.jobs[i]? = some job)
    {P : Option Attempt → Prop} (hnone : P none)
    (hP : ∀ m, Reaches (storageAt storage s.line.jobs i) job.operation m → P m.commitResult) :
    P job.status.attempt := by
  cases hst : job.status with
  | waiting => exact hnone
  | refused => exact hnone
  | running m => exact hP m (h.reaches i job m hjob hst)
  | finished receipt =>
    rcases h.ends i job receipt hjob hst with ⟨m, answer, hreaches, hresume⟩
    show P receipt.commitResult
    rw [(receipt_of_resume hresume).2]
    exact hP m hreaches

/-! ## Events -/

/-- What an event does. -/
inductive Effect (s : StorageBackedSession) : StorageBackedSession → Prop where
  /-- A call that was rejected, or a session that is already closed. -/
  | rejected : Effect s s
  | called (c : Call) (hopen : s.line.sealedError = false) : Effect s { s with line := s.line.run c }
  | started (i : ℕ) {line : MutationLine Call Mutation Receipt} (h : s.line.start .grant i = some line) :
      Effect s { s with line := line }
  | resumed (i : ℕ) {job : SessionJob} {m : Mutation} {answer : Option InMemoryStorageState}
      {status : JobStatus Mutation Receipt} (hjob : s.line.jobs[i]? = some job) (hst : job.status = .running m)
      (hanswer : ∀ storage ∈ answer, storage = s.storage) (h : m.resume answer = some status) :
      Effect s { s with line := s.line.setStatus i status }
  | committed (i : ℕ) {job : SessionJob} {callback : Callback} {writes : List Write}
      (hjob : s.line.jobs[i]? = some job) (hst : job.status = .running ⟨callback, some (.asked writes)⟩)
      (fails : Bool) (timestamp : ℕ) :
      Effect s
        { s with
          storage := (StorageBackedSession.settle s.storage writes fails timestamp).1
          line := s.line.setStatus i
            (.running ⟨callback, some (StorageBackedSession.settle s.storage writes fails timestamp).2⟩) }
  | closing : Effect s { s with line := s.line.seal, state := if s.state = .isOpen then .closing else s.state }
  | closed : Effect s { s with state := .closed }

theorem effect_of_step {event : Event} (h : s.step event = some s') : Effect s s' := by
  cases event with
  | call c =>
    simp only [StorageBackedSession.step] at h
    split at h
    · rename_i s'' hcall
      cases h
      unfold StorageBackedSession.call at hcall
      rw [ite_error_eq_ok] at hcall
      rcases hcall with ⟨hopen, hcall⟩
      rcases bind_eq_ok.mp hcall with ⟨-, -, hret⟩
      cases hret
      push Not at hopen
      exact .called c (by simpa using hopen.2)
    · cases h
      exact .rejected
  | start i =>
    simp only [StorageBackedSession.step, Option.map_eq_some_iff] at h
    rcases h with ⟨line, hline, rfl⟩
    exact .started i hline
  | resume i fails =>
    simp only [StorageBackedSession.step] at h
    split at h
    · rename_i operation after m hjob
      rw [Option.map_eq_some_iff] at h
      rcases h with ⟨status, hstatus, rfl⟩
      refine .resumed i hjob rfl ?_ hstatus
      intro storage hstorage
      cases fails with
      | true => cases hstorage
      | false => exact (Option.some.inj hstorage).symm
    · cases h
  | commit i fails timestamp =>
    simp only [StorageBackedSession.step] at h
    split at h
    · rename_i operation after callback writes hjob
      cases h
      exact .committed i hjob rfl fails timestamp
    · cases h
  | close =>
    cases h
    exact .closing
  | closed =>
    simp only [StorageBackedSession.step] at h
    split at h
    · cases h
      exact .closed
    · cases h

theorem Serial.effect (h : Serial storage s) (he : Effect s s') : Serial storage s' := by
  cases he with
  | rejected => exact h
  | called c hopen =>
    have hjobs : (s.line.run c).jobs = s.line.jobs ++ [⟨c, s.line.tail, .waiting⟩] := by
      simp [MutationLine.run, hopen]
    have hold : ∀ {j : ℕ} {job : SessionJob}, (s.line.run c).jobs[j]? = some job →
        job.status ≠ .waiting → s.line.jobs[j]? = some job ∧ j ≤ s.line.jobs.length := by
      intro j job hj hne
      rw [hjobs, List.getElem?_append] at hj
      split at hj
      · exact ⟨hj, by omega⟩
      · rw [List.getElem?_singleton] at hj
        split at hj
        · cases hj
          exact absurd rfl hne
        · cases hj
    constructor
    case ordered => exact h.ordered.run c
    case storage_eq =>
      show s.storage = _
      rw [hjobs, List.length_append, List.length_singleton, storageAt_succ storage List.getElem?_concat_length,
        storageAt_append storage le_rfl]
      exact h.storage_eq
    case reaches =>
      intro j job m hj hm
      rcases hold hj (by rw [hm]; nofun) with ⟨hj, hle⟩
      show Reaches (storageAt storage (s.line.run c).jobs j) _ _
      rw [hjobs, storageAt_append storage hle]
      exact h.reaches j job m hj hm
    case ends =>
      intro j job receipt hj hm
      rcases hold hj (by rw [hm]; nofun) with ⟨hj, hle⟩
      show Ends (storageAt storage (s.line.run c).jobs j) _ _
      rw [hjobs, storageAt_append storage hle]
      exact h.ends j job receipt hj hm
  | started i hline =>
    have hordered := h.ordered.start hline
    rcases MutationLine.start_eq_some hline with ⟨operation, after, hjob, -, rfl⟩
    have hbehind := h.ordered.waiting_behind hjob rfl
    have hstorage : s.storage = storageAt storage s.line.jobs i := by
      rw [h.storage_eq, storageAt_length storage hbehind, storageAt_succ storage hjob]
      rfl
    refine h.setStatus hjob hbehind hordered ?_ ?_ ?_
    · rw [hstorage]
      split <;> rfl
    · intro m hm
      split at hm
      · cases hm
      · cases hm
        exact .refl
    · intro receipt hr
      split at hr <;> cases hr
  | resumed i hjob hst hanswer hresume =>
    rcases commits_of_resume hresume with ⟨hstarted, hcommits⟩
    have hstorage := h.storage_running hjob hst
    have hreaches := h.reaches i _ _ hjob hst
    refine h.setStatus hjob (h.ordered.waiting_behind hjob (by rw [hst]; rfl))
      (h.ordered.setStatus_running hjob hst hstarted) ?_ ?_ ?_
    · rw [hcommits, hstorage]
    · rintro m' rfl
      refine hreaches.tail (.resume ?_ hresume)
      intro answer hmem
      rw [hanswer answer hmem, hstorage]
    · rintro receipt rfl
      exact ⟨_, _, hreaches, hresume⟩
  | committed i hjob hst fails timestamp =>
    have hstorage : s.storage = storageAt storage s.line.jobs i := h.storage_running hjob hst
    refine h.setStatus hjob (h.ordered.waiting_behind hjob (by rw [hst]; rfl))
      (h.ordered.setStatus_running hjob hst rfl) ?_ ?_ ?_
    · rw [settle_fst, hstorage]
      rfl
    · rintro m ⟨⟩
      rw [hstorage]
      exact (h.reaches i _ _ hjob hst).tail (.settle ..)
    · rintro receipt ⟨⟩
  | closing => exact ⟨h.ordered.seal, h.storage_eq, h.reaches, h.ends⟩
  | closed => exact ⟨h.ordered, h.storage_eq, h.reaches, h.ends⟩

theorem run_cons (s : StorageBackedSession) (event : Event) (events : List Event) :
    s.run (event :: events) = (s.step event).bind fun s' => s'.run events := rfl

/-- What every event keeps holds at the end of every run. -/
theorem run_induction {P : StorageBackedSession → Prop} (hstep : ∀ s s', P s → Effect s s' → P s')
    {events : List Event} (hs : P s) (hrun : s.run events = some s') : P s' := by
  induction events generalizing s with
  | nil =>
    cases hrun
    exact hs
  | cons event events ih =>
    rw [run_cons, Option.bind_eq_some_iff] at hrun
    rcases hrun with ⟨next, hnext, hrun⟩
    exact ih (hstep s next hs (effect_of_step hnext)) hrun

theorem serial_of_run {events : List Event} (hrun : (StorageBackedSession.init storage).run events = some s) :
    Serial storage s :=
  run_induction (fun _ _ h he => h.effect he) (serial_init storage) hrun

end Phi.Session

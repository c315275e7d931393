import Phi.Session.Serial

/-!
# Appends to a branch

An append takes as its parent the tip that the jobs before it left, and moves the tip in the same commit, so the
appends to a branch follow one another on its path as long as nothing else moves its tip. A job that does not
write the tip leaves it, and so does one whose commit fails as a whole.
-/

namespace Phi.Session

open InMemoryStorageState (CommitResult Commit runCommits)

/-! ## Values -/

/-- The write is about the value at the address. -/
def CommittedWrite.writesValue (address : StoreAddress) : CommittedWrite → Prop
  | setValue _ a _ => a = address
  | deleteValue _ a => a = address
  | _ => False

/-- The write is about the value at the address. -/
def Write.writesValue (address : StoreAddress) : Write → Prop
  | setValue a _ => a = address
  | deleteValue a => a = address
  | _ => False

theorem writesValue_commitWrite {address : StoreAddress} {w : Write} {seq timestamp : ℕ} :
    (commitWrite w seq timestamp).writesValue address ↔ w.writesValue address := by
  cases w <;> rfl

theorem writesValue_prepare {address : StoreAddress} {ws : List Write} (h : ∀ w ∈ ws, ¬w.writesValue address)
    (firstSeq timestamp : ℕ) :
    ∀ w ∈ prepareStorageCommit ws firstSeq timestamp, ¬w.writesValue address := by
  induction ws generalizing firstSeq with
  | nil => simp [prepareStorageCommit]
  | cons w ws ih =>
    rw [List.forall_mem_cons] at h
    rw [prepareStorageCommit, List.forall_mem_cons, writesValue_commitWrite]
    exact ⟨h.1, ih h.2 _⟩

namespace InMemoryStorageState

variable {s s' : InMemoryStorageState} {address : StoreAddress}

theorem getValue_put (ha : address.Valid) {w : CommittedWrite} (hw : ¬w.writesValue address) :
    (s.put w).getValue address = s.getValue address := by
  have hne : ∀ a : StoreAddress, a ≠ address → physicalKey a ≠ physicalKey address := by
    intro a hne heq
    exact hne (eq_of_physicalKey_eq ha heq.symm).symm
  cases w with
  | setValue seq a value => simp only [getValue, put, Table.get_set, if_neg (hne a hw)]
  | deleteValue seq a => simp only [getValue, put, Table.get_erase, if_neg (hne a hw)]
  | _ => rfl

theorem getValue_applyValidated (ha : address.Valid) {ws : List CommittedWrite}
    (h : ∀ w ∈ ws, ¬w.writesValue address) :
    (s.applyValidated ws).1.getValue address = s.getValue address := by
  induction ws generalizing s with
  | nil => rfl
  | cons w ws ih =>
    rw [List.forall_mem_cons] at h
    unfold applyValidated
    cases happly : s.applyWrite w with
    | error e => rfl
    | ok s' =>
      have hput := eq_put_of_applyWrite happly
      subst hput
      exact (ih h.2).trans (getValue_put ha h.1)

/-- A commit that does not write a value leaves it, also when it throws. -/
theorem getValue_perform (ha : address.Valid) {ws : List Write} (h : ∀ w ∈ ws, ¬w.writesValue address)
    (timestamp : ℕ) : (s.perform (.new ws timestamp)).1.getValue address = s.getValue address := by
  rw [perform_eq, applyCommitted]
  cases hok : s.validateCommitted (Commit.writes s (.new ws timestamp)) with
  | error e => rfl
  | ok u => exact getValue_applyValidated ha (writesValue_prepare h _ _)

/-- A commit whose addresses can be built is made as a whole or not at all. -/
theorem commit_of_addressOk {ws : List Write} {timestamp : ℕ}
    (h : ∀ w ∈ prepareStorageCommit ws s.nextSeq timestamp, w.AddressOk) :
    (∃ e, s.commit ws timestamp = (s, .error e)) ∨
      ∃ result, s.commit ws timestamp =
        ((prepareStorageCommit ws s.nextSeq timestamp).foldl put s, .ok result) := by
  cases hok : s.validateCommitted (prepareStorageCommit ws s.nextSeq timestamp) with
  | error e =>
    refine .inl ⟨e, ?_⟩
    simp only [commit, prepareCommit, hok, error_bind]
  | ok u =>
    right
    simp only [commit, prepareCommit, hok, ok_bind, pure, Except.pure, applyValidated_of_addressOk h]
    exact ⟨_, rfl⟩

end InMemoryStorageState

/-! ## Appends -/

/-- The writes of an append on a storage. -/
def AppendWrites (base : InMemoryStorageState) (name : JsString) (entry : BranchEntry) (id : JsString)
    (writes : List Write) : Prop :=
  (branchTip name).Valid ∧ ∃ tip parent, base.getValue (branchTip name) = some tip ∧
    tipParent tip.value = some parent ∧
    writes = [.entry (entry.newEntry id parent), .setValue (branchTip name) (.string id)]

/-- How far the commit of the writes has got. -/
inductive Attempted (base : InMemoryStorageState) (writes : List Write) : Attempt → Prop where
  | refused : Attempted base writes .refused
  | asked : Attempted base writes (.asked writes)
  | failed : Attempted base writes (.failed writes)
  | performed (timestamp : ℕ) :
      Attempted base writes (.performed writes timestamp (base.commit writes timestamp).2)

/-- The points a mutation of an append passes. -/
inductive AppendAt (base : InMemoryStorageState) (name : JsString) (entry : BranchEntry) (id : JsString) :
    Mutation → Prop where
  | granted : AppendAt base name entry id ⟨appendCallback name entry id, none⟩
  | thrown (e : SessionError) : AppendAt base name entry id ⟨.done (.error e), none⟩
  | committing {writes : List Write} (hw : AppendWrites base name entry id writes) :
      AppendAt base name entry id ⟨.awaitCommit writes, none⟩
  | awaiting {writes : List Write} {attempt : Attempt} (hw : AppendWrites base name entry id writes)
      (ha : Attempted base writes attempt) : AppendAt base name entry id ⟨.awaitCommitted, some attempt⟩
  | returned {writes : List Write} {attempt : Attempt} {result : Except SessionError CommitResult}
      (hw : AppendWrites base name entry id writes) (ha : Attempted base writes attempt)
      (hr : attempt.result = some result) :
      AppendAt base name entry id ⟨.done (result.map fun _ => ()), some attempt⟩

section Append

variable {base : InMemoryStorageState} {name id : JsString} {entry : BranchEntry}

/-- What the callback of an append makes of the storage it reads. -/
theorem appendAt_of_read {m m' : Mutation} {answer : Option InMemoryStorageState}
    (hm : m = ⟨appendCallback name entry id, none⟩) (hanswer : ∀ s ∈ answer, s = base)
    (h : m.resume answer = some (.running m')) : AppendAt base name entry id m' := by
  subst hm
  cases hv : validateAddress (branchTip name) with
  | error e =>
    simp only [appendCallback, hv, Mutation.resume] at h
    cases h
  | ok u =>
    simp only [appendCallback, hv, Mutation.resume, Option.some.injEq, JobStatus.running.injEq] at h
    subst h
    cases answer with
    | none => exact .thrown _
    | some s =>
      have hs : s = base := hanswer s rfl
      subst hs
      cases htip : s.getValue (branchTip name) with
      | none =>
        simp only [htip]
        exact .thrown _
      | some tip =>
        cases hparent : tipParent tip.value with
        | none =>
          simp only [htip, hparent]
          exact .thrown _
        | some parent =>
          simp only [htip, hparent]
          exact .committing ⟨hv, tip, parent, htip, hparent, rfl⟩

theorem AppendAt.step {m m' : Mutation} (h : AppendAt base name entry id m) (hstep : Mutation.Step base m m') :
    AppendAt base name entry id m' := by
  cases hstep with
  | resume hanswer hresume =>
    cases h with
    | granted => exact appendAt_of_read rfl hanswer hresume
    | thrown e => cases hresume
    | @committing writes hw =>
      cases hresume
      refine .awaiting hw ?_
      split
      · exact .refused
      · exact .asked
    | @awaiting writes attempt hw ha =>
      rcases resume_eq_some hresume with ⟨_, hcb, _⟩ | ⟨_, hcb, _⟩ | ⟨_, _, hcb, _⟩ | ⟨k, r, hcb, hne, hr, hst⟩
      · cases hcb
      · cases hcb
      · cases hcb
      · cases hcb
        cases hst
        have hr : attempt.result = r := hr.symm
        cases r with
        | some result => exact .returned hw ha hr
        | none =>
          cases ha with
          | asked => exact absurd rfl (hne writes)
          | _ => cases hr
    | returned hw ha hr =>
      rcases resume_eq_some hresume with ⟨_, _, _, hst⟩ | ⟨_, hcb, _⟩ | ⟨_, _, hcb, _⟩ | ⟨_, _, hcb, _⟩
      · cases hst
      · cases hcb
      · cases hcb
      · cases hcb
  | settle callback writes fails timestamp =>
    cases h with
    | awaiting hw ha =>
      cases ha
      refine .awaiting hw ?_
      unfold StorageBackedSession.settle
      cases fails with
      | true => exact .failed
      | false => exact .performed timestamp
    | returned hw ha hr => cases hr

theorem appendAt_of_reaches {m : Mutation} (h : Reaches base (.appendToBranch name entry id) m) :
    AppendAt base name entry id m := by
  induction h with
  | refl => exact .granted
  | tail _ hstep ih => exact ih.step hstep

/-- The append was made: its entry stands on the tip of before, and is the tip of after. -/
def Appended (base after : InMemoryStorageState) (name : JsString) (entry : BranchEntry) (id : JsString) : Prop :=
  ∃ tip parent stored, base.getValue (branchTip name) = some tip ∧ tipParent tip.value = some parent ∧
    after.entries.get id = some stored ∧ stored.toNewEntry = entry.newEntry id parent ∧
    ∃ seq, after.getValue (branchTip name) = some ⟨branchTip name, .string id, seq⟩

theorem newEntry_id (entry : BranchEntry) (id : JsString) (parent : Option JsString) :
    (entry.newEntry id parent).id = id := by
  cases entry <;> rfl

theorem newEntry_parentId (entry : BranchEntry) (id : JsString) (parent : Option JsString) :
    (entry.newEntry id parent).parentId = parent := by
  cases entry <;> rfl

theorem appended_of_commit {writes : List Write} (hw : AppendWrites base name entry id writes) (timestamp : ℕ) :
    (∃ e, base.commit writes timestamp = (base, .error e)) ∨
      ∃ after result, base.commit writes timestamp = (after, .ok result) ∧ Appended base after name entry id := by
  rcases hw with ⟨hvalid, tip, parent, htip, hparent, rfl⟩
  have haddr : ∀ w ∈ prepareStorageCommit
      [.entry (entry.newEntry id parent), .setValue (branchTip name) (.string id)] base.nextSeq timestamp,
      w.AddressOk := by
    intro w hw
    simp only [prepareStorageCommit, List.mem_cons, List.not_mem_nil, or_false] at hw
    rcases hw with rfl | rfl
    · trivial
    · exact hvalid
  rcases InMemoryStorageState.commit_of_addressOk haddr with herr | ⟨r, hr⟩
  · exact .inl herr
  · refine .inr ⟨_, r, hr, tip, parent, ⟨entry.newEntry id parent, base.nextSeq, timestamp⟩, htip, hparent, ?_,
      rfl, base.nextSeq + 1, ?_⟩
    · simp [prepareStorageCommit, commitWrite, InMemoryStorageState.put, newEntry_id]
    · simp [prepareStorageCommit, commitWrite, InMemoryStorageState.put, InMemoryStorageState.getValue]

end Append

/-- The storage took the commit of the job. -/
def Job.succeeded (job : SessionJob) : Bool :=
  match job.status.attempt with
  | some (.performed _ _ (.ok _)) => true
  | _ => false

section Runs

variable {storage base : InMemoryStorageState} {s s' : StorageBackedSession} {i : ℕ} {job : SessionJob}
  {name id : JsString} {entry : BranchEntry}

/-- What an attempt at the writes of an append leaves. -/
theorem appended_of_attempt {attempt : Option Attempt} {writes : List Write}
    (hw : AppendWrites base name entry id writes) (ha : ∀ a ∈ attempt, Attempted base writes a) :
    ((∀ w t r, attempt ≠ some (.performed w t (.ok r))) ∧ runCommits base (commitsOf attempt) = base) ∨
      ∃ t r, attempt = some (.performed writes t (.ok r)) ∧
        Appended base (runCommits base (commitsOf attempt)) name entry id := by
  cases attempt with
  | none => exact .inl ⟨by simp, rfl⟩
  | some attempt =>
    cases ha attempt rfl with
    | performed timestamp =>
      rcases appended_of_commit hw timestamp with ⟨e, he⟩ | ⟨after, r, hr, happended⟩
      · refine .inl ⟨by simp [he], ?_⟩
        simp only [commitsOf, runCommits, List.foldl_cons, List.foldl_nil, InMemoryStorageState.perform, he]
      · refine .inr ⟨timestamp, r, by rw [hr], ?_⟩
        simpa only [commitsOf, runCommits, List.foldl_cons, List.foldl_nil, InMemoryStorageState.perform, hr]
          using happended
    | _ => exact .inl ⟨by simp, rfl⟩

theorem succeeded_eq_true : job.succeeded = true ↔ ∃ w t r, job.status.attempt = some (.performed w t (.ok r)) := by
  unfold Job.succeeded
  constructor
  · intro h
    split at h
    · exact ⟨_, _, _, by assumption⟩
    · cases h
  · rintro ⟨w, t, r, h⟩
    rw [h]

/-- An append, wherever it has got to, has either left the storage at its place or was made on it. -/
theorem Serial.append_cases (h : Serial storage s) (hjob : s.line.jobs[i]? = some job)
    (hop : job.operation = .appendToBranch name entry id) :
    (job.succeeded = false ∧ storageAt storage s.line.jobs (i + 1) = storageAt storage s.line.jobs i) ∨
      (job.succeeded = true ∧
        Appended (storageAt storage s.line.jobs i) (storageAt storage s.line.jobs (i + 1)) name entry id) := by
  rw [storageAt_succ storage hjob, Job.commits]
  -- the job has no attempt, or is at a point of an append that has one
  have hattempt : job.status.attempt = none ∨ ∃ writes,
      AppendWrites (storageAt storage s.line.jobs i) name entry id writes ∧
        ∀ a ∈ job.status.attempt, Attempted (storageAt storage s.line.jobs i) writes a := by
    refine h.forall_attempt hjob (P := fun attempt => attempt = none ∨ ∃ writes,
      AppendWrites (storageAt storage s.line.jobs i) name entry id writes ∧
        ∀ a ∈ attempt, Attempted (storageAt storage s.line.jobs i) writes a) (.inl rfl) ?_
    intro m hm
    cases appendAt_of_reaches (hop ▸ hm) with
    | awaiting hw ha => exact .inr ⟨_, hw, by rintro a ⟨⟩; exact ha⟩
    | returned hw ha hr => exact .inr ⟨_, hw, by rintro a ⟨⟩; exact ha⟩
    | _ => exact .inl rfl
  rcases hattempt with hnone | ⟨writes, hw, ha⟩
  · rw [hnone]
    refine .inl ⟨?_, rfl⟩
    unfold Job.succeeded
    rw [hnone]
  · rcases appended_of_attempt hw ha with ⟨hno, heq⟩ | ⟨t, r, heq, happended⟩
    · refine .inl ⟨?_, heq⟩
      rw [← Bool.not_eq_true, succeeded_eq_true]
      rintro ⟨w, t, r, hr⟩
      exact hno w t r hr
    · exact .inr ⟨succeeded_eq_true.mpr ⟨writes, t, r, heq⟩, happended⟩

/-- An append returns exactly when it was made. -/
theorem Serial.append_result (h : Serial storage s) (hjob : s.line.jobs[i]? = some job)
    (hop : job.operation = .appendToBranch name entry id) {receipt : Receipt}
    (hst : job.status = .finished receipt) : receipt.result = .ok () ↔ job.succeeded = true := by
  rcases h.ends i job receipt hjob hst with ⟨m, answer, hreaches, hresume⟩
  rcases receipt_of_resume hresume with ⟨hcallback, hcommit⟩
  rw [succeeded_eq_true, hst]
  show _ ↔ ∃ w t r, receipt.commitResult = _
  rw [hcommit]
  cases appendAt_of_reaches (hop ▸ hreaches) with
  | granted =>
    -- the callback has ended without a read: the address was refused
    unfold appendCallback at hcallback
    split at hcallback
    · simp [← Callback.done.inj hcallback]
    · cases hcallback
  | thrown e => simp [← Callback.done.inj hcallback]
  | committing hw => cases hcallback
  | awaiting hw ha => cases hcallback
  | returned hw ha hr =>
    have hres : receipt.result = _ := (Callback.done.inj hcallback).symm
    rw [hres]
    cases ha with
    | performed timestamp =>
      cases hr
      cases (storageAt storage s.line.jobs i).commit _ timestamp |>.2 with
      | error e => simp [Except.map, Except.mapError]
      | ok r => simp [Except.map, Except.mapError]
    | asked => cases hr
    | _ =>
      cases hr
      simp [Except.map]

/-! ## Tips -/

/-- The job at the place `i` leaves the tip of the branch where it was. -/
def LeavesTip (storage : InMemoryStorageState) (jobs : List SessionJob) (name : JsString) (i : ℕ) : Prop :=
  (storageAt storage jobs (i + 1)).getValue (branchTip name) = (storageAt storage jobs i).getValue (branchTip name)

theorem storageAt_invariant (h : storage.Invariant) (jobs : List SessionJob) (i : ℕ) :
    (storageAt storage jobs i).Invariant :=
  h.steps (InMemoryStorageState.runCommits_steps _ _)

theorem storageAt_steps (storage : InMemoryStorageState) (jobs : List SessionJob) {i j : ℕ} (hij : i ≤ j) :
    Relation.ReflTransGen InMemoryStorageState.Step (storageAt storage jobs i) (storageAt storage jobs j) := by
  have hsplit : (jobs.take j).flatMap Job.commits
      = (jobs.take i).flatMap Job.commits ++ ((jobs.take j).drop i).flatMap Job.commits := by
    rw [← List.flatMap_append]
    congr 1
    conv_lhs => rw [← List.take_append_drop i (jobs.take j), List.take_take, min_eq_left hij]
  unfold storageAt
  rw [hsplit]
  simp only [runCommits, List.foldl_append]
  exact InMemoryStorageState.runCommits_steps _ _

/-- The result of an attempt is the one of a commit on the storage. -/
def PerformedOn (base : InMemoryStorageState) : Option Attempt → Prop
  | some (.performed writes timestamp result) => result = (base.commit writes timestamp).2
  | _ => True

theorem performedOn_commit {m : Mutation} (h : PerformedOn base m.commitResult) (writes : List Write) :
    PerformedOn base (m.commit writes).1 := by
  unfold Mutation.commit
  cases hm : m.commitResult with
  | none =>
    dsimp only
    split <;> trivial
  | some attempt =>
    rw [hm] at h
    exact h

theorem performedOn_of_reaches {call : Call} {m : Mutation} (h : Reaches base call m) :
    PerformedOn base m.commitResult := by
  induction h with
  | refl => trivial
  | tail _ hstep ih =>
    cases hstep with
    | resume hanswer hresume =>
      rcases resume_eq_some hresume with ⟨_, _, _, hst⟩ | ⟨_, _, hst⟩ | ⟨writes, _, _, hst⟩ | ⟨_, _, _, _, _, hst⟩
      · cases hst
      · cases hst
        exact ih
      · cases hst
        exact performedOn_commit ih writes
      · cases hst
        exact ih
    | settle callback writes fails timestamp =>
      unfold StorageBackedSession.settle
      cases fails with
      | true => trivial
      | false => rfl

/-- The result of an attempt is the one of a commit at the place of the job. -/
theorem Serial.performed_eq (h : Serial storage s) (hjob : s.line.jobs[i]? = some job) {writes : List Write}
    {timestamp : ℕ} {result : Except StorageError CommitResult}
    (ha : job.status.attempt = some (.performed writes timestamp result)) :
    result = ((storageAt storage s.line.jobs i).commit writes timestamp).2 := by
  have hall := h.forall_attempt hjob (P := PerformedOn (storageAt storage s.line.jobs i)) trivial
    fun m hm => performedOn_of_reaches hm
  rw [ha] at hall
  exact hall

/-- A job that does not write a tip leaves it. -/
theorem leavesTip_of_not_writes (h0 : storage.Invariant) (hjob : s.line.jobs[i]? = some job)
    (hw : ∀ writes timestamp result, job.status.attempt = some (.performed writes timestamp result) →
      ∀ w ∈ writes, ¬w.writesValue (branchTip name)) : LeavesTip storage s.line.jobs name i := by
  unfold LeavesTip
  rw [storageAt_succ storage hjob, Job.commits]
  by_cases hvalid : (branchTip name).Valid
  · cases hattempt : job.status.attempt with
    | none => rfl
    | some attempt =>
      cases attempt with
      | performed writes timestamp result =>
        exact InMemoryStorageState.getValue_perform hvalid (hw _ _ _ hattempt) timestamp
      | _ => rfl
  -- nothing is ever stored under an address that cannot be built
  · have hnone : ∀ {state : InMemoryStorageState}, state.Invariant → state.getValue (branchTip name) = none := by
      intro state hstate
      cases hget : state.getValue (branchTip name) with
      | none => rfl
      | some v => exact absurd (hstate.values.of_get hget).2 hvalid
    have hbase := storageAt_invariant h0 s.line.jobs i
    rw [hnone hbase, hnone (hbase.steps (InMemoryStorageState.runCommits_steps _ _))]

/-- A job whose commit failed leaves the tip, unless the failure was in the middle of the commit. -/
theorem Serial.leavesTip_of_failed (h : Serial storage s) (h0 : storage.Invariant)
    (hjob : s.line.jobs[i]? = some job) (hfailed : job.succeeded = false)
    (htears : ∀ c ∈ job.commits, ¬(storageAt storage s.line.jobs i).Tears (c.writes (storageAt storage s.line.jobs i))) :
    LeavesTip storage s.line.jobs name i := by
  unfold LeavesTip
  rw [storageAt_succ storage hjob]
  unfold Job.commits at htears ⊢
  cases hattempt : job.status.attempt with
  | none => rfl
  | some attempt =>
    cases attempt with
    | performed writes timestamp result =>
      rw [hattempt] at htears
      have hres := h.performed_eq hjob hattempt
      have herr : ∃ e, ((storageAt storage s.line.jobs i).perform (.new writes timestamp)).2 = .error e := by
        cases result with
        | ok r => simp [Job.succeeded, hattempt] at hfailed
        | error e =>
          refine ⟨e, ?_⟩
          simp only [InMemoryStorageState.perform, ← hres]
          rfl
      have hatomic := ((storageAt_invariant h0 s.line.jobs i).applyCommitted_atomic_iff _).mpr
        (htears _ (List.mem_singleton.mpr rfl))
      rw [← InMemoryStorageState.perform_eq] at hatomic
      simp only [commitsOf, runCommits, List.foldl_cons, List.foldl_nil, hatomic herr]
    | _ => rfl

/-! ## What a callback commits -/

/-- Alone on the storage, the callback commits nothing but writes as described. -/
inductive Callback.Commits (base : InMemoryStorageState) (W : List Write → Prop) : Callback → Prop where
  | done (result : Except SessionError Unit) : Commits base W (.done result)
  | read {k : Option InMemoryStorageState → Callback} (hnone : Commits base W (k none))
      (hsome : Commits base W (k (some base))) : Commits base W (.read k)
  | commit {writes : List Write} {k : Bool → Callback} (h : W writes) : Commits base W (.commit writes k)
  | settled {k : Option (Except SessionError CommitResult) → Callback} (h : Commits base W (k none)) :
      Commits base W (.settled k)

/-- The writes of an attempt that the storage has seen are as described. -/
def AttemptWrites (W : List Write → Prop) : Option Attempt → Prop
  | some (.asked writes) => W writes
  | some (.performed writes _ _) => W writes
  | _ => True

theorem attemptWrites_of_reaches {call : Call} {W : List Write → Prop} {m : Mutation}
    (hcall : call.callback.Commits base W) (h : Reaches base call m) : AttemptWrites W m.commitResult := by
  have hall : (m.commitResult = none → m.callback.Commits base W) ∧ AttemptWrites W m.commitResult := by
    induction h with
    | refl => exact ⟨fun _ => hcall, trivial⟩
    | @tail m m' _ hstep ih =>
      rcases ih with ⟨hcommits, hattempt⟩
      cases hstep with
      | resume hanswer hresume =>
        rcases resume_eq_some hresume with
          ⟨_, _, _, hst⟩ | ⟨k, hcb, hst⟩ | ⟨writes, k, hcb, hst⟩ | ⟨k, r, hcb, _, hr, hst⟩
        · cases hst
        · cases hst
          refine ⟨fun hnone => ?_, hattempt⟩
          have hread := hcommits hnone
          rw [hcb] at hread
          cases hread with
          | read hreadNone hreadSome =>
            rename_i answer
            cases answer with
            | none => exact hreadNone
            | some state =>
              rw [hanswer state rfl, hnone]
              exact hreadSome
        · cases hst
          unfold Mutation.commit
          cases hm : m.commitResult with
          | none =>
            have hcommit := hcommits hm
            rw [hcb] at hcommit
            cases hcommit with
            | commit hw =>
              refine ⟨nofun, ?_⟩
              dsimp only
              split
              · trivial
              · exact hw
          | some attempt =>
            rw [hm] at hattempt
            exact ⟨nofun, hattempt⟩
        · cases hst
          refine ⟨fun hnone => ?_, hattempt⟩
          have hsettled := hcommits hnone
          rw [hcb] at hsettled
          cases hsettled with
          | settled hk =>
            have hr : r = none := by rw [hr, show m.commitResult = none from hnone]; rfl
            rw [hr]
            exact hk
      | settle callback writes fails timestamp =>
        refine ⟨nofun, ?_⟩
        unfold StorageBackedSession.settle
        cases fails with
        | true => trivial
        | false => exact hattempt
  exact hall.2

/-- Whether a call leaves the tip of the branch to the appends: only a mutation of the caller's own and a write of
the tip itself do not. -/
def Call.keepsTip (name : JsString) : Call → Prop
  | mutate _ => False
  | setValue address _ => address ≠ branchTip name
  | deleteValue address => address ≠ branchTip name
  | _ => True

theorem branchTip_ne {branch : JsString} (h : branch ≠ name) : branchTip branch ≠ branchTip name :=
  fun heq => h (congrArg StoreAddress.key heq)

/-- A call that keeps the tip of a branch commits no write of it, unless it appends to the branch, or creates it
where it was not. -/
theorem Call.keepsTip.commits {call : Call} (h : call.keepsTip name)
    (happend : ∀ entry id, call ≠ .appendToBranch name entry id) {tip : StoredValue}
    (htip : base.getValue (branchTip name) = some tip) :
    call.callback.Commits base fun writes => ∀ w ∈ writes, ¬w.writesValue (branchTip name) := by
  cases call with
  | mutate mutation => exact h.elim
  | setValue address next => exact .commit fun w hw => by rw [List.mem_singleton.mp hw]; exact h
  | deleteValue address => exact .commit fun w hw => by rw [List.mem_singleton.mp hw]; exact h
  | appendList address element => exact .commit fun w hw => by rw [List.mem_singleton.mp hw]; exact fun hfalse => hfalse
  | deleteList address => exact .commit fun w hw => by rw [List.mem_singleton.mp hw]; exact fun hfalse => hfalse
  | appendToBranch branch entry id =>
    have hne : branch ≠ name := by
      rintro rfl
      exact happend entry id rfl
    show (appendCallback branch entry id).Commits base _
    unfold appendCallback
    split
    · exact .done _
    · refine .read (.done _) ?_
      dsimp only
      split
      · exact .done _
      · split
        · exact .done _
        · refine .commit fun w hw => ?_
          simp only [List.mem_cons, List.not_mem_nil, or_false] at hw
          rcases hw with rfl | rfl
          · exact fun hfalse => hfalse
          · exact branchTip_ne hne
  | createBranch branch at_ =>
    refine .read (.done _) ?_
    dsimp only
    split
    · exact .done _
    · rename_i hexists
      have hne : branch ≠ name := by
        rintro rfl
        rw [htip] at hexists
        exact hexists rfl
      cases at_ with
      | none => exact .commit fun w hw => by rw [List.mem_singleton.mp hw]; exact branchTip_ne hne
      | some target =>
        refine .read (.done _) ?_
        dsimp only
        split
        · exact .commit fun w hw => by rw [List.mem_singleton.mp hw]; exact branchTip_ne hne
        · exact .done _

/-- A call that keeps the tip of a branch leaves it where it is, unless it appends to the branch. -/
theorem Serial.leavesTip_of_keepsTip (h : Serial storage s) (h0 : storage.Invariant)
    (hjob : s.line.jobs[i]? = some job) (hkeeps : job.operation.keepsTip name)
    (happend : ∀ entry id, job.operation ≠ .appendToBranch name entry id) {tip : StoredValue}
    (htip : (storageAt storage s.line.jobs i).getValue (branchTip name) = some tip) :
    LeavesTip storage s.line.jobs name i := by
  apply leavesTip_of_not_writes h0 hjob
  intro writes timestamp result hattempt
  have hall := h.forall_attempt hjob
    (P := AttemptWrites fun writes => ∀ w ∈ writes, ¬w.writesValue (branchTip name)) trivial
    fun m hm => attemptWrites_of_reaches (hkeeps.commits happend htip) hm
  rw [hattempt] at hall
  exact hall

/-- The tip does not move over jobs that leave it. -/
theorem getValue_of_leavesTip (storage : InMemoryStorageState) (jobs : List SessionJob) {i j : ℕ} (hij : i ≤ j)
    (h : ∀ k, i ≤ k → k < j → LeavesTip storage jobs name k) :
    (storageAt storage jobs j).getValue (branchTip name) = (storageAt storage jobs i).getValue (branchTip name) := by
  induction j, hij using Nat.le_induction with
  | base => rfl
  | succ j hij ih =>
    rw [h j hij (Nat.lt_succ_self j)]
    exact ih fun k hik hkj => h k hik (Nat.lt_succ_of_lt hkj)

/-! ## Paths -/

/-- The ids on the path of the branch, newest first. -/
def BranchPath (s : InMemoryStorageState) (name : JsString) (ids : List JsString) : Prop :=
  ∃ tip, s.getValue (branchTip name) = some tip ∧
    ((tip.value = .null ∧ ids = []) ∨
      ∃ id e path, tip.value = .string id ∧ s.entries.get id = some e ∧ s.Ancestry e path ∧
        ids = path.map (·.id))

/-- The ids of the successful appends to the branch, in call order. -/
def appendedIds (name : JsString) (jobs : List SessionJob) : List JsString :=
  jobs.filterMap fun job =>
    match job.operation with
    | .appendToBranch branch _ id => if branch = name ∧ job.succeeded then some id else none
    | _ => none

/-- A path is kept when its tip stays and entries are added. -/
theorem BranchPath.mono {base after : InMemoryStorageState} {ids : List JsString} (h : BranchPath base name ids)
    (hsteps : Relation.ReflTransGen InMemoryStorageState.Step base after)
    (htip : after.getValue (branchTip name) = base.getValue (branchTip name)) : BranchPath after name ids := by
  rcases h with ⟨tip, hget, hnull | ⟨id, e, path, hvalue, he, hpath, hids⟩⟩
  · exact ⟨tip, htip.trans hget, .inl hnull⟩
  · refine ⟨tip, htip.trans hget, .inr ⟨id, e, path, hvalue, InMemoryStorageState.get_of_steps hsteps he, ?_, hids⟩⟩
    exact hpath.mono fun k y hy => InMemoryStorageState.get_of_steps hsteps hy

/-- An append puts its id on the path. -/
theorem BranchPath.appended {base after : InMemoryStorageState} {ids : List JsString}
    (h : BranchPath base name ids) (hsteps : Relation.ReflTransGen InMemoryStorageState.Step base after)
    (ha : Appended base after name entry id) : BranchPath after name (id :: ids) := by
  rcases ha with ⟨tip, parent, stored, htip, hparent, hstored, hnew, seq, hafter⟩
  have hid : stored.id = id := by
    rw [hnew]
    exact newEntry_id entry id parent
  have hparentId : stored.parentId = parent := by
    rw [hnew]
    exact newEntry_parentId entry id parent
  rcases h with ⟨tip', hget, hpath⟩
  rw [htip, Option.some_inj] at hget
  subst hget
  refine ⟨_, hafter, .inr ⟨id, stored, ?_⟩⟩
  rcases hpath with ⟨hnull, rfl⟩ | ⟨p, e, path, hvalue, he, hpath, rfl⟩
  · rw [hnull] at hparent
    have hroot : stored.parentId = none := by rw [hparentId, ← Option.some_inj, ← hparent]; rfl
    exact ⟨[stored], rfl, hstored, .root hroot, by simp [hid]⟩
  · rw [hvalue] at hparent
    have hstep : stored.parentId = some p := by rw [hparentId, ← Option.some_inj, ← hparent]; rfl
    refine ⟨stored :: path, rfl, hstored, ?_, by simp [hid]⟩
    refine .step hstep (InMemoryStorageState.get_of_steps hsteps he) ?_
    exact hpath.mono fun k y hy => InMemoryStorageState.get_of_steps hsteps hy

/-- When nothing but appends moves its tip, a branch grows by the successful ones, in call order. -/
theorem Serial.branchPath (h : Serial storage s) (h0 : storage.Invariant) {ids : List JsString}
    (hpath : BranchPath (storageAt storage s.line.jobs i) name ids)
    (honly : ∀ (j : ℕ) (job : SessionJob), i ≤ j → s.line.jobs[j]? = some job →
      job.operation.keepsTip name ∨ LeavesTip storage s.line.jobs name j)
    {j : ℕ} (hij : i ≤ j) (hj : j ≤ s.line.jobs.length) :
    BranchPath (storageAt storage s.line.jobs j) name
      ((appendedIds name ((s.line.jobs.take j).drop i)).reverse ++ ids) := by
  induction j, hij using Nat.le_induction with
  | base => simpa [appendedIds] using hpath
  | succ j hij ih =>
    have hpath := ih (Nat.le_of_succ_le hj)
    have hjob : s.line.jobs[j]? = some s.line.jobs[j] := List.getElem?_eq_getElem hj
    have hsteps := storageAt_steps storage s.line.jobs (Nat.le_succ j)
    have htake : (s.line.jobs.take (j + 1)).drop i = (s.line.jobs.take j).drop i ++ [s.line.jobs[j]] := by
      rw [List.take_add_one, hjob, Option.toList_some, List.drop_append_of_le_length]
      rw [List.length_take]
      omega
    rw [htake]
    by_cases happend : ∃ entry id, s.line.jobs[j].operation = .appendToBranch name entry id
    · rcases happend with ⟨entry, id, hop⟩
      rcases h.append_cases hjob hop with ⟨hno, hsame⟩ | ⟨hyes, happended⟩
      · rw [hsame]
        simpa [appendedIds, List.filterMap_append, hop, hno] using hpath
      · simpa [appendedIds, List.filterMap_append, hop, hyes] using hpath.appended hsteps happended
    · have hleaves : LeavesTip storage s.line.jobs name j := by
        rcases honly j _ hij hjob with hkeeps | hleaves
        · rcases hpath with ⟨tip, htip, -⟩
          exact h.leavesTip_of_keepsTip h0 hjob hkeeps (fun entry id hop => happend ⟨entry, id, hop⟩) htip
        · exact hleaves
      have hnone : appendedIds name [s.line.jobs[j]] = [] := by
        rw [appendedIds, List.filterMap_eq_nil_iff]
        intro job hmem
        rw [List.mem_singleton.mp hmem]
        split
        · rename_i branch entry id hop
          rw [if_neg]
          rintro ⟨rfl, -⟩
          exact happend ⟨entry, id, hop⟩
        · rfl
      rw [appendedIds, List.filterMap_append]
      rw [appendedIds] at hnone
      rw [hnone, List.append_nil]
      exact hpath.mono hsteps hleaves

end Runs

end Phi.Session

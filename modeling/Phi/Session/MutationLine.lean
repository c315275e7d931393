import Mathlib

/-!
# The mutation line

Model of `MutationLine` of `packages/agent/src/harness/session/mutation-line.ts`.

The line is a chain of promises: each job waits for the promise that was the tail when it was called, and its
own result, settled either way, is the next tail. A job is named by its place in the order of the calls, and
`after` is the job whose result it waits for. Nothing in the operations says which job may run: any job whose
predecessor has settled may start. That the jobs run one at a time and in call order is `Ordered`.

The operation, the local state of a job while it runs and the outcome it ends with are parameters.
-/

namespace Phi.Session

inductive JobStatus (ρ ω : Type*) where
  | waiting
  | running (progress : ρ)
  | finished (outcome : ω)
  /-- Rejected with the error of the seal, without being started. -/
  | refused

/-- The promise of the job has settled. -/
def JobStatus.settled {ρ ω : Type*} : JobStatus ρ ω → Bool
  | finished _ => true
  | refused => true
  | _ => false

/-- The operation of the job was called. -/
def JobStatus.started {ρ ω : Type*} : JobStatus ρ ω → Bool
  | running _ => true
  | finished _ => true
  | _ => false

structure Job (α ρ ω : Type*) where
  operation : α
  after : Option ℕ
  status : JobStatus ρ ω

structure MutationLine (α ρ ω : Type*) where
  /-- The jobs that were given to the line, in call order. -/
  jobs : List (Job α ρ ω)
  tail : Option ℕ
  sealedError : Bool

namespace MutationLine

variable {α ρ ω : Type*}

def empty : MutationLine α ρ ω := ⟨[], none, false⟩

/-- A call of `run`. On a sealed line it is rejected at once and leaves no job. -/
def run (line : MutationLine α ρ ω) (operation : α) : MutationLine α ρ ω :=
  if line.sealedError then line
  else
    { line with
      jobs := line.jobs ++ [⟨operation, line.tail, .waiting⟩]
      tail := some line.jobs.length }

/-- Whether the promise of a job, or the resolved promise the line starts with, has settled. -/
def hasSettled (line : MutationLine α ρ ω) : Option ℕ → Bool
  | none => true
  | some i => (line.jobs[i]?.map fun job => job.status.settled).getD false

def setStatus (line : MutationLine α ρ ω) (i : ℕ) (status : JobStatus ρ ω) : MutationLine α ρ ω :=
  { line with jobs := line.jobs.modify i fun job => { job with status := status } }

/-- The callback of `tail.then` in `run` is reached for the job `i`. -/
def start (line : MutationLine α ρ ω) (grant : α → ρ) (i : ℕ) : Option (MutationLine α ρ ω) :=
  match line.jobs[i]? with
  | some ⟨operation, after, .waiting⟩ =>
    if line.hasSettled after then
      some (line.setStatus i (if line.sealedError then .refused else .running (grant operation)))
    else none
  | _ => none

def «seal» (line : MutationLine α ρ ω) : MutationLine α ρ ω := { line with sealedError := true }

/-! ## Order -/

/-- The job before a place in the line. -/
def before : ℕ → Option ℕ
  | 0 => none
  | i + 1 => some i

/-- The chain is in call order: only the first job that has not settled may have been started. -/
structure Ordered (line : MutationLine α ρ ω) : Prop where
  after : ∀ (i : ℕ) (job : Job α ρ ω), line.jobs[i]? = some job → job.after = before i
  tail : line.tail = before line.jobs.length
  order : ∀ (i j : ℕ) (first second : Job α ρ ω), i < j → line.jobs[i]? = some first → line.jobs[j]? = some second →
    second.status = .waiting ∨ first.status.settled = true
  refused : ∀ (i : ℕ) (job : Job α ρ ω), line.jobs[i]? = some job → job.status = .refused → line.sealedError = true
  refused_order : ∀ (i j : ℕ) (first second : Job α ρ ω), i < j → line.jobs[i]? = some first → line.jobs[j]? = some second →
    first.status = .refused → second.status.started = false

theorem ordered_empty : (empty : MutationLine α ρ ω).Ordered where
  after i job h := by simp [empty] at h
  tail := rfl
  order i j first second _ h := by simp [empty] at h
  refused i job h := by simp [empty] at h
  refused_order i j first second _ h := by simp [empty] at h

variable {line : MutationLine α ρ ω} {i : ℕ} {job : Job α ρ ω} {status : JobStatus ρ ω}

theorem getElem?_setStatus (line : MutationLine α ρ ω) (i j : ℕ) (status : JobStatus ρ ω) :
    (line.setStatus i status).jobs[j]? =
      line.jobs[j]?.map fun job => if i = j then { job with status := status } else job := by
  simp only [setStatus, List.getElem?_modify]
  by_cases h : i = j
  · simp [h]
  · simp [h]

/-- A job is found again after a change of status, changed if it is the one. -/
theorem exists_of_getElem?_setStatus {j : ℕ} {job' : Job α ρ ω}
    (h : (line.setStatus i status).jobs[j]? = some job') :
    ∃ job, line.jobs[j]? = some job ∧ job'.operation = job.operation ∧ job'.after = job.after ∧
      job'.status = if i = j then status else job.status := by
  rw [getElem?_setStatus, Option.map_eq_some_iff] at h
  rcases h with ⟨job, hjob, rfl⟩
  refine ⟨job, hjob, ?_⟩
  by_cases hij : i = j
  · simp [hij]
  · simp [hij]

theorem Ordered.run (h : line.Ordered) (operation : α) : (line.run operation).Ordered := by
  unfold MutationLine.run
  split
  · exact h
  -- a job at the end waits, so only the jobs before it matter
  · have hlast : ∀ j job', (line.jobs ++ [⟨operation, line.tail, .waiting⟩])[j]? = some job' →
        line.jobs[j]? = some job' ∨ (j = line.jobs.length ∧ job' = ⟨operation, line.tail, .waiting⟩) := by
      intro j job' hj
      rw [List.getElem?_append] at hj
      split at hj
      · exact .inl hj
      · rw [List.getElem?_singleton] at hj
        split at hj
        · exact .inr ⟨by omega, (Option.some.inj hj).symm⟩
        · cases hj
    have hlt : ∀ {j job'}, line.jobs[j]? = some job' → j < line.jobs.length := by
      intro j job' hj
      exact (List.getElem?_eq_some_iff.mp hj).1
    constructor
    case after =>
      intro j job' hj
      rcases hlast j job' hj with hj | ⟨rfl, rfl⟩
      · exact h.after j job' hj
      · exact h.tail
    case tail => simp [before]
    case order =>
      intro j k first second hjk hj hk
      rcases hlast k second hk with hk | ⟨rfl, rfl⟩
      · rcases hlast j first hj with hj | ⟨rfl, rfl⟩
        · exact h.order j k first second hjk hj hk
        · have := hlt hk
          omega
      · exact .inl rfl
    case refused =>
      intro j job' hj hst
      rcases hlast j job' hj with hj | ⟨rfl, rfl⟩
      · exact h.refused j job' hj hst
      · cases hst
    case refused_order =>
      intro j k first second hjk hj hk hst
      rcases hlast k second hk with hk | ⟨rfl, rfl⟩
      · rcases hlast j first hj with hj | ⟨rfl, rfl⟩
        · exact h.refused_order j k first second hjk hj hk hst
        · cases hst
      · rfl

theorem Ordered.seal (h : line.Ordered) : line.seal.Ordered where
  after := h.after
  tail := h.tail
  order := h.order
  refused _ _ _ _ := rfl
  refused_order := h.refused_order

/-- Every job before one whose predecessor has settled has settled. -/
theorem Ordered.settled_of_hasSettled (h : line.Ordered) (hjob : line.jobs[i]? = some job)
    (hset : line.hasSettled job.after = true) {j : ℕ} {earlier : Job α ρ ω} (hji : j < i)
    (hearlier : line.jobs[j]? = some earlier) : earlier.status.settled = true := by
  rw [h.after i job hjob] at hset
  rcases i with _ | i
  · omega
  · have hi : i < line.jobs.length := by
      have := (List.getElem?_eq_some_iff.mp hjob).1
      omega
    have hprev : line.jobs[i]? = some line.jobs[i] := List.getElem?_eq_getElem hi
    simp only [before, hasSettled, hprev, Option.map_some, Option.getD_some] at hset
    rcases Nat.lt_or_ge j i with hj | hj
    · rcases h.order j i earlier _ hj hearlier hprev with hwait | hdone
      · rw [hwait] at hset
        cases hset
      · exact hdone
    · have heq : j = i := by omega
      subst heq
      rw [hprev, Option.some_inj] at hearlier
      rw [← hearlier]
      exact hset

/-- The jobs behind one that has not settled wait. -/
theorem Ordered.waiting_behind (h : line.Ordered) (hjob : line.jobs[i]? = some job)
    (hst : job.status.settled = false) :
    ∀ (j : ℕ) (later : Job α ρ ω), i < j → line.jobs[j]? = some later → later.status = .waiting := by
  intro j later hij hlater
  rcases h.order i j job later hij hjob hlater with hwait | hdone
  · exact hwait
  · rw [hst] at hdone
    cases hdone

/-- A change of status keeps the order when the jobs before it have settled, those behind it wait, and it is
refused only on a sealed line and started only on one that was not. -/
theorem Ordered.setStatus (h : line.Ordered)
    (hbefore : ∀ j (earlier : Job α ρ ω), j < i → line.jobs[j]? = some earlier → earlier.status.settled = true)
    (hbehind : ∀ j (later : Job α ρ ω), i < j → line.jobs[j]? = some later → later.status = .waiting)
    (hrefused : status = .refused → line.sealedError = true)
    (hstarted : status.started = true → ∀ j (earlier : Job α ρ ω), j < i → line.jobs[j]? = some earlier →
      earlier.status ≠ .refused) : (line.setStatus i status).Ordered := by
  constructor
  case after =>
    intro j job' hj
    rcases exists_of_getElem?_setStatus hj with ⟨job, hjob, -, hafter, -⟩
    rw [hafter]
    exact h.after j job hjob
  case tail =>
    show line.tail = before (line.jobs.modify i _).length
    rw [List.length_modify]
    exact h.tail
  case order =>
    intro j k first second hjk hj hk
    rcases exists_of_getElem?_setStatus hj with ⟨first', hfirst, -, -, hfs⟩
    rcases exists_of_getElem?_setStatus hk with ⟨second', hsecond, -, -, hss⟩
    rw [hfs, hss]
    by_cases hik : i = k
    · subst hik
      rw [if_neg (show ¬i = j by omega)]
      exact .inr (hbefore j first' hjk hfirst)
    · rw [if_neg hik]
      by_cases hij : i = j
      · subst hij
        exact .inl (hbehind k second' hjk hsecond)
      · rw [if_neg hij]
        exact h.order j k first' second' hjk hfirst hsecond
  case refused =>
    intro j job' hj hst
    rcases exists_of_getElem?_setStatus hj with ⟨job, hjob, -, -, hs⟩
    rw [hs] at hst
    by_cases hij : i = j
    · rw [if_pos hij] at hst
      exact hrefused hst
    · rw [if_neg hij] at hst
      exact h.refused j job hjob hst
  case refused_order =>
    intro j k first second hjk hj hk hst
    rcases exists_of_getElem?_setStatus hj with ⟨first', hfirst, -, -, hfs⟩
    rcases exists_of_getElem?_setStatus hk with ⟨second', hsecond, -, -, hss⟩
    rw [hfs] at hst
    rw [hss]
    by_cases hij : i = j
    · subst hij
      rw [if_neg (by omega), hbehind k second' hjk hsecond]
      rfl
    · rw [if_neg hij] at hst
      by_cases hik : i = k
      · subst hik
        rw [if_pos rfl]
        by_contra hne
        exact hstarted (by simpa using hne) j first' hjk hfirst hst
      · rw [if_neg hik]
        exact h.refused_order j k first' second' hjk hfirst hsecond hst

/-- What a start does: the job waited and the one before it had settled. -/
theorem start_eq_some {grant : α → ρ} {line' : MutationLine α ρ ω} (hs : line.start grant i = some line') :
    ∃ operation after, line.jobs[i]? = some ⟨operation, after, .waiting⟩ ∧ line.hasSettled after = true ∧
      line' = line.setStatus i (if line.sealedError then .refused else .running (grant operation)) := by
  unfold MutationLine.start at hs
  split at hs
  case h_1 operation after hjob =>
    split at hs
    · rename_i hset
      exact ⟨operation, after, hjob, hset, (Option.some.inj hs).symm⟩
    · cases hs
  case h_2 => cases hs

theorem Ordered.start (h : line.Ordered) {grant : α → ρ} {line' : MutationLine α ρ ω}
    (hs : line.start grant i = some line') : line'.Ordered := by
  rcases start_eq_some hs with ⟨operation, after, hjob, hset, rfl⟩
  apply h.setStatus
  · intro j earlier hji hearlier
    exact h.settled_of_hasSettled hjob hset hji hearlier
  · exact h.waiting_behind hjob rfl
  · intro hst
    by_contra hsealed
    rw [if_neg hsealed] at hst
    cases hst
  · intro hst j earlier hji hearlier hrefused
    rw [if_pos (h.refused j earlier hearlier hrefused)] at hst
    cases hst

/-- The running job goes on, or ends. -/
theorem Ordered.setStatus_running (h : line.Ordered) {r : ρ} (hjob : line.jobs[i]? = some job)
    (hrunning : job.status = .running r) (hst : status.started = true) :
    (line.setStatus i status).Ordered := by
  apply h.setStatus
  · intro j earlier hji hearlier
    rcases h.order j i earlier job hji hearlier hjob with hwait | hdone
    · rw [hrunning] at hwait
      cases hwait
    · exact hdone
  · exact h.waiting_behind hjob (by rw [hrunning]; rfl)
  · rintro rfl
    cases hst
  · intro _ j earlier hji hearlier hrefused
    have hstarted := h.refused_order j i earlier job hji hearlier hjob hrefused
    rw [hrunning] at hstarted
    cases hstarted

/-- At most one job runs. -/
theorem Ordered.running_unique (h : line.Ordered) {j : ℕ} {first second : Job α ρ ω} {r r' : ρ}
    (hi : line.jobs[i]? = some first) (hj : line.jobs[j]? = some second)
    (hfirst : first.status = .running r) (hsecond : second.status = .running r') : i = j := by
  rcases Nat.lt_trichotomy i j with hlt | heq | hlt
  · have hwait := h.waiting_behind hi (by rw [hfirst]; rfl) j second hlt hj
    rw [hsecond] at hwait
    cases hwait
  · exact heq
  · have hwait := h.waiting_behind hj (by rw [hsecond]; rfl) i first hlt hi
    rw [hfirst] at hwait
    cases hwait

end MutationLine

end Phi.Session

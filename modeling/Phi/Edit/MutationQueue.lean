import Phi.Data.Runs
import Phi.Data.Table
import Phi.Data.Text

/-!
# The file mutation queue

Model of `packages/coding-agent/src/core/tools/file-mutation-queue.ts`.

A call of `withFileMutationQueue` first registers: behind the registrations before it, it asks for the real path of its
file, which is its key, and takes its place in the queue of the key. Then it waits for the call in front of it, runs its
callback, and releases the next one. A call is named by its place in the order of the calls, and so is its
`chainedQueue`. Between any two steps another call may do one, a callback may end or fail, and the file system may
change.

`resolve` is `path.resolve`.
-/

namespace Phi.Edit.MutationQueue

/-! ## The file system -/

inductive ErrorCode where
  | enoent
  | enotdir
  | other
  deriving DecidableEq

/-- `location` is where a path leads when the symbolic links on it are followed, and `error` why no file can be reached
there. -/
structure FileSystem where
  location : JsString → JsString
  error : JsString → Option ErrorCode

def realpath (fs : FileSystem) (path : JsString) : Except ErrorCode JsString :=
  match fs.error path with
  | none => .ok (fs.location path)
  | some code => .error code

def isMissingPathError (code : ErrorCode) : Bool := code = .enoent || code = .enotdir

section
variable (resolve : JsString → JsString)

def getMutationQueueKey (fs : FileSystem) (filePath : JsString) : Except ErrorCode JsString :=
  let resolvedPath := resolve filePath
  match realpath fs resolvedPath with
  | .ok path => .ok path
  | .error code => if isMissingPathError code then .ok resolvedPath else .error code

/-! ## Calls -/

inductive Stage where
  /-- Behind the registrations before it, or waiting for the real path. -/
  | registering
  | resolved (key : JsString)
  | rejected
  | waiting (key : JsString) (currentQueue : Option ℕ)
  | running (key : JsString) (currentQueue : Option ℕ)
  /-- `releaseNext` has been called. -/
  | finished (key : JsString) (currentQueue : Option ℕ) (failed : Bool)

namespace Stage

/-- The registration has ended, one way or the other. -/
def registered : Stage → Bool
  | registering => false
  | .resolved _ => false
  | _ => true

/-- The key and the queue it was registered behind. -/
def place : Stage → Option (JsString × Option ℕ)
  | .waiting key currentQueue => some (key, currentQueue)
  | .running key currentQueue => some (key, currentQueue)
  | .finished key currentQueue _ => some (key, currentQueue)
  | _ => none

def isWaiting : Stage → Bool
  | .waiting _ _ => true
  | _ => false

def isRunning : Stage → Bool
  | .running _ _ => true
  | _ => false

def isFinished : Stage → Bool
  | .finished _ _ _ => true
  | _ => false

/-- The key of a call that has one and has not finished. -/
def pendingKey : Stage → Option JsString
  | .resolved key => some key
  | .waiting key _ => some key
  | .running key _ => some key
  | _ => none

end Stage

structure Call where
  filePath : JsString
  stage : Stage

structure State where
  fs : FileSystem
  calls : List Call
  fileMutationQueues : Table JsString ℕ

def State.initial (fs : FileSystem) : State := ⟨fs, [], []⟩

/-- Whether `Promise.resolve()`, or the `chainedQueue` of a call, has settled: the call has released the next one, and
what it was chained to has settled. A queue leads from call to earlier call. -/
def hasSettled (calls : List Call) : ℕ → Option ℕ → Bool
  | _, none => true
  | 0, some _ => false
  | n + 1, some i =>
    match calls[i]? with
    | some ⟨_, .finished _ currentQueue _⟩ => hasSettled calls n currentQueue
    | _ => false

inductive Action where
  | call (filePath : JsString)
  /-- The real path of a call has been found. -/
  | realpath (i : ℕ)
  | register (i : ℕ)
  | start (i : ℕ)
  /-- The callback has returned or failed. -/
  | finish (i : ℕ) (failed : Bool)
  | change (fs : FileSystem)

def setStage (s : State) (i : ℕ) (call : Call) (stage : Stage) : State :=
  { s with calls := s.calls.set i { call with stage } }

/-- Each registration is behind those before it. -/
def isNext (s : State) (i : ℕ) : Bool := (s.calls.take i).all fun call => call.stage.registered

def step (s : State) : Action → Option State
  | .call filePath => some { s with calls := s.calls ++ [⟨filePath, .registering⟩] }
  | .realpath i =>
    match s.calls[i]? with
    | some ⟨filePath, .registering⟩ =>
      if isNext s i then
        match getMutationQueueKey resolve s.fs filePath with
        | .ok key => some (setStage s i ⟨filePath, .registering⟩ (.resolved key))
        | .error _ => some (setStage s i ⟨filePath, .registering⟩ .rejected)
      else none
    | _ => none
  | .register i =>
    match s.calls[i]? with
    | some ⟨filePath, .resolved key⟩ =>
      let currentQueue := s.fileMutationQueues.get key
      some { setStage s i ⟨filePath, .resolved key⟩ (.waiting key currentQueue) with
        fileMutationQueues := s.fileMutationQueues.set key i }
    | _ => none
  | .start i =>
    match s.calls[i]? with
    | some ⟨filePath, .waiting key currentQueue⟩ =>
      if hasSettled s.calls i currentQueue then
        some (setStage s i ⟨filePath, .waiting key currentQueue⟩ (.running key currentQueue))
      else none
    | _ => none
  | .finish i failed =>
    match s.calls[i]? with
    | some ⟨filePath, .running key currentQueue⟩ =>
      some { setStage s i ⟨filePath, .running key currentQueue⟩ (.finished key currentQueue failed) with
        fileMutationQueues :=
          if s.fileMutationQueues.get key = some i then s.fileMutationQueues.erase key else s.fileMutationQueues }
    | _ => none
  | .change fs => some { s with fs }

/-! ## What a step does -/

def stageOf (s : State) (i : ℕ) : Option Stage := s.calls[i]?.map Call.stage

/-- A call goes from one stage to the next, and the map of the queues changes with it. -/
inductive Moves (s : State) (i : ℕ) (filePath : JsString) : Action → Stage → Stage → Table JsString ℕ → Prop where
  | resolved {key : JsString} (hnext : isNext s i = true) (hkey : getMutationQueueKey resolve s.fs filePath = .ok key) :
    Moves s i filePath (.realpath i) .registering (.resolved key) s.fileMutationQueues
  | rejected (hnext : isNext s i = true) : Moves s i filePath (.realpath i) .registering .rejected s.fileMutationQueues
  | register (key : JsString) :
    Moves s i filePath (.register i) (.resolved key) (.waiting key (s.fileMutationQueues.get key))
      (s.fileMutationQueues.set key i)
  | start {key : JsString} {currentQueue : Option ℕ} (hsettled : hasSettled s.calls i currentQueue = true) :
    Moves s i filePath (.start i) (.waiting key currentQueue) (.running key currentQueue) s.fileMutationQueues
  | finish (key : JsString) (currentQueue : Option ℕ) (failed : Bool) :
    Moves s i filePath (.finish i failed) (.running key currentQueue) (.finished key currentQueue failed)
      (if s.fileMutationQueues.get key = some i then s.fileMutationQueues.erase key else s.fileMutationQueues)

variable {resolve} {s s' : State} {a : Action}

theorem step_cases (h : step resolve s a = some s') :
    (∃ filePath, s' = { s with calls := s.calls ++ [⟨filePath, .registering⟩] }) ∨
      (∃ fs, a = .change fs ∧ s' = { s with fs }) ∨
      ∃ i filePath old new queues, s.calls[i]? = some ⟨filePath, old⟩ ∧ Moves resolve s i filePath a old new queues ∧
        s' = { s with calls := s.calls.set i ⟨filePath, new⟩, fileMutationQueues := queues } := by
  cases a with
  | call filePath => exact .inl ⟨filePath, (Option.some.inj h).symm⟩
  | change fs => exact .inr (.inl ⟨fs, rfl, (Option.some.inj h).symm⟩)
  | realpath i =>
    refine .inr (.inr ?_)
    simp only [step] at h
    split at h
    · rename_i filePath hcall
      split_ifs at h with hnext
      split at h
      · rename_i key hkey
        exact ⟨i, filePath, _, _, _, hcall, .resolved hnext hkey, (Option.some.inj h).symm⟩
      · exact ⟨i, filePath, _, _, _, hcall, .rejected hnext, (Option.some.inj h).symm⟩
    · cases h
  | register i =>
    refine .inr (.inr ?_)
    simp only [step] at h
    split at h
    · rename_i filePath key hcall
      exact ⟨i, filePath, _, _, _, hcall, .register key, (Option.some.inj h).symm⟩
    · cases h
  | start i =>
    refine .inr (.inr ?_)
    simp only [step] at h
    split at h
    · rename_i filePath key currentQueue hcall
      split_ifs at h with hsettled
      exact ⟨i, filePath, _, _, _, hcall, .start hsettled, (Option.some.inj h).symm⟩
    · cases h
  | finish i failed =>
    refine .inr (.inr ?_)
    simp only [step] at h
    split at h
    · rename_i filePath key currentQueue hcall
      exact ⟨i, filePath, _, _, _, hcall, .finish key currentQueue failed, (Option.some.inj h).symm⟩
    · cases h

theorem stageOf_append (s : State) (filePath : JsString) :
    stageOf { s with calls := s.calls ++ [⟨filePath, .registering⟩] }
      = Function.update (stageOf s) s.calls.length (some .registering) := by
  funext k
  simp only [stageOf, List.getElem?_append, Function.update_apply]
  split_ifs with hlt heq heq
  · omega
  · rfl
  · rw [heq, Nat.sub_self]
    rfl
  · rw [List.getElem?_eq_none (by simp; omega), List.getElem?_eq_none (by omega)]

theorem stageOf_set {i : ℕ} {filePath : JsString} {old new : Stage} (h : s.calls[i]? = some ⟨filePath, old⟩)
    (queues : Table JsString ℕ) :
    stageOf { s with calls := s.calls.set i ⟨filePath, new⟩, fileMutationQueues := queues }
      = Function.update (stageOf s) i (some new) := by
  funext k
  have hlt : i < s.calls.length := (List.getElem?_eq_some_iff.mp h).1
  simp only [stageOf, List.getElem?_set, Function.update_apply]
  by_cases hk : k = i
  · subst hk
    rw [if_pos rfl, if_pos hlt, if_pos rfl]
    rfl
  · rw [if_neg (Ne.symm hk), if_neg hk]

/-! ## The queues -/

/-- The call has its place in the queue of a key. -/
def Placed (s : State) (key : JsString) (i : ℕ) : Prop :=
  ∃ stage currentQueue, stageOf s i = some stage ∧ stage.place = some (key, currentQueue)

def Finished (s : State) (i : ℕ) : Prop := ∃ stage, stageOf s i = some stage ∧ stage.isFinished = true

/-- Of the first `n` calls, a queue leads to the last that has its place there, or all that do have finished. -/
structure Covers (s : State) (key : JsString) (n : ℕ) (queue : Option ℕ) : Prop where
  placed : ∀ p, queue = some p → p < n ∧ Placed s key p
  all : ∀ i < n, Placed s key i → Finished s i ∨ ∃ p, queue = some p ∧ i ≤ p

/-- Registrations end in call order, every call and every key has the queue it should have, and of the calls of one key
only the first that has not finished may have been started. -/
structure Queued (s : State) : Prop where
  order : ∀ i j stage, i < j → stageOf s j = some stage → stage ≠ .registering →
    ∃ earlier, stageOf s i = some earlier ∧ earlier.registered = true
  behind : ∀ j stage key currentQueue, stageOf s j = some stage → stage.place = some (key, currentQueue) →
    Covers s key j currentQueue
  queue : ∀ key, Covers s key s.calls.length (s.fileMutationQueues.get key)
  started : ∀ i j stage key currentQueue, i < j → Placed s key i → stageOf s j = some stage →
    stage.place = some (key, currentQueue) → stage.isWaiting = false → Finished s i

theorem stageOf_none (s : State) {i : ℕ} (h : s.calls.length ≤ i) : stageOf s i = none := by
  rw [stageOf, List.getElem?_eq_none h, Option.map_none]

theorem lt_of_stageOf {i : ℕ} {stage : Stage} (h : stageOf s i = some stage) : i < s.calls.length := by
  by_contra hle
  rw [stageOf_none s (Nat.le_of_not_lt hle)] at h
  cases h

theorem Placed.lt {key : JsString} {i : ℕ} (h : Placed s key i) : i < s.calls.length := by
  obtain ⟨stage, _, hstage, -⟩ := h
  exact lt_of_stageOf hstage

theorem queued_initial (fs : FileSystem) : Queued (State.initial fs) where
  order i j stage _ hj := absurd hj (by rw [stageOf_none _ (Nat.zero_le j)]; exact (Option.some_ne_none _).symm)
  behind j stage key currentQueue hj :=
    absurd hj (by rw [stageOf_none _ (Nat.zero_le j)]; exact (Option.some_ne_none _).symm)
  queue key := ⟨fun p hp => absurd hp (Option.some_ne_none p).symm, fun i hi => absurd hi (Nat.not_lt_zero i)⟩
  started i j stage key currentQueue _ _ hj :=
    absurd hj (by rw [stageOf_none _ (Nat.zero_le j)]; exact (Option.some_ne_none _).symm)

/-- A queue is kept when the same calls have their place in it, and those that have finished stay so. -/
theorem Covers.mono {key : JsString} {n : ℕ} {queue : Option ℕ} (h : Covers s key n queue)
    (hplaced : ∀ k < n, Placed s' key k ↔ Placed s key k) (hfinished : ∀ k, Finished s k → Finished s' k) :
    Covers s' key n queue where
  placed p hp := ⟨(h.placed p hp).1, (hplaced p (h.placed p hp).1).mpr (h.placed p hp).2⟩
  all i hi hplacedi := ((h.all i hi ((hplaced i hi).mp hplacedi))).imp_left (hfinished i)

/-! ### One call moves on -/

section
variable {i : ℕ} {filePath : JsString} {old new : Stage} {queues : Table JsString ℕ}

theorem Moves.registered (h : Moves resolve s i filePath a old new queues) (hold : old.registered = true) :
    new.registered = true := by
  cases h <;> first | rfl | cases hold

theorem Moves.not_finished (h : Moves resolve s i filePath a old new queues) : old.isFinished = false := by
  cases h <;> rfl

theorem stageOf_of_next (hnext : isNext s i = true) {j : ℕ} {stage : Stage} (hi : stageOf s i = some stage)
    (hj : j < i) : ∃ earlier, stageOf s j = some earlier ∧ earlier.registered = true := by
  have hlt : j < s.calls.length := hj.trans (lt_of_stageOf hi)
  refine ⟨(s.calls[j]).stage, by rw [stageOf, List.getElem?_eq_getElem hlt, Option.map_some], ?_⟩
  refine List.all_eq_true.mp hnext _ (List.mem_iff_getElem?.mpr ⟨j, ?_⟩)
  rw [List.getElem?_take_of_lt hj, List.getElem?_eq_getElem hlt]

end

theorem Placed.of_eq {key : JsString} {k : ℕ} (h : stageOf s' k = stageOf s k) (hk : Placed s key k) :
    Placed s' key k := by
  obtain ⟨stage, currentQueue, hstage, hplace⟩ := hk
  exact ⟨stage, currentQueue, h.trans hstage, hplace⟩

theorem Finished.of_eq {k : ℕ} (h : stageOf s' k = stageOf s k) (hk : Finished s k) : Finished s' k := by
  obtain ⟨stage, hstage, hfinished⟩ := hk
  exact ⟨stage, h.trans hstage, hfinished⟩

/-- When the promise that a queue leads to has settled, the calls in it have finished. -/
theorem finished_of_hasSettled (h : Queued s) {key : JsString} {n m : ℕ} {queue : Option ℕ}
    (hqueue : Covers s key m queue) (hsettled : hasSettled s.calls n queue = true) :
    ∀ k < m, Placed s key k → Finished s k := by
  intro k hk hplaced
  rcases hqueue.all k hk hplaced with hfinished | ⟨p, rfl, hkp⟩
  · exact hfinished
  · cases n with
    | zero => cases hsettled
    | succ n =>
      rw [hasSettled] at hsettled
      split at hsettled
      · rename_i filePath key' currentQueue failed hcall
        have hstage : stageOf s p = some (.finished key' currentQueue failed) := by rw [stageOf, hcall, Option.map_some]
        rcases Nat.lt_or_eq_of_le hkp with hlt | rfl
        · obtain ⟨stage, c, hstage', hplace⟩ := (hqueue.placed p rfl).2
          rw [hstage] at hstage'
          cases hstage'
          exact h.started k p _ key c hlt hplaced hstage hplace rfl
        · exact ⟨_, hstage, rfl⟩
      · cases hsettled

/-- When the calls in a queue have finished, the promise it leads to has settled. -/
theorem hasSettled_of_finished (h : Queued s) {key : JsString} {n m : ℕ} {queue : Option ℕ} (hmn : m ≤ n)
    (hqueue : Covers s key m queue) (hfinished : ∀ k < m, Placed s key k → Finished s k) :
    hasSettled s.calls n queue = true := by
  induction n generalizing m queue with
  | zero =>
    cases queue with
    | none => rfl
    | some p => exact absurd (hqueue.placed p rfl).1 (by omega)
  | succ n ih =>
    cases queue with
    | none => rfl
    | some p =>
      obtain ⟨hp, hplaced⟩ := hqueue.placed p rfl
      obtain ⟨stage, hstage, hdone⟩ := hfinished p hp hplaced
      obtain ⟨stage', currentQueue, hstage', hplace⟩ := hplaced
      obtain rfl : stage = stage' := Option.some.inj (hstage.symm.trans hstage')
      obtain ⟨⟨filePath, stage''⟩, hcall, rfl⟩ := Option.map_eq_some_iff.mp hstage
      cases stage'' with
      | finished key' currentQueue' failed =>
        cases hplace
        rw [hasSettled, hcall]
        exact ih (by omega) (h.behind p _ key currentQueue hstage rfl) fun k hk => hfinished k (hk.trans hp)
      | _ => cases hdone

section
variable {i : ℕ} {filePath : JsString} {old new : Stage} {queues : Table JsString ℕ}

/-- A call that moves on leaves the stages of the others. -/
structure Moved (s s' : State) (i : ℕ) (old new : Stage) : Prop where
  old : stageOf s i = some old
  new : stageOf s' i = some new
  others : ∀ k, k ≠ i → stageOf s' k = stageOf s k
  length : s'.calls.length = s.calls.length

theorem moved_of_set (h : s.calls[i]? = some ⟨filePath, old⟩) :
    Moved s { s with calls := s.calls.set i ⟨filePath, new⟩, fileMutationQueues := queues } i old new := by
  have hstage : stageOf s i = some old := by rw [stageOf, h, Option.map_some]
  refine ⟨hstage, ?_, fun k hk => ?_, List.length_set⟩
  · rw [stageOf_set h, Function.update_self]
  · rw [stageOf_set h, Function.update_of_ne hk]

theorem Moved.finished (h : Moved s s' i old new) (hold : old.isFinished = false) {k : ℕ} (hk : Finished s k) :
    Finished s' k := by
  by_cases hki : k = i
  · subst hki
    obtain ⟨stage, hstage, hfinished⟩ := hk
    rw [h.old] at hstage
    cases hstage
    rw [hold] at hfinished
    cases hfinished
  · exact hk.of_eq (h.others k hki)

theorem Moved.placed_iff (h : Moved s s' i old new) {key : JsString} {k : ℕ} (hk : k ≠ i ∨ new.place = old.place) :
    Placed s' key k ↔ Placed s key k := by
  by_cases hki : k = i
  · subst hki
    have hplace := hk.resolve_left fun hne => hne rfl
    rw [Placed, Placed, h.old, h.new]
    simp only [Option.some.injEq, exists_and_left, exists_eq_left', hplace]
  · exact ⟨.of_eq (h.others k hki).symm, .of_eq (h.others k hki)⟩

theorem Moved.order (h : Queued s) (hm : Moved s s' i old new) (hmoves : Moves resolve s i filePath a old new queues)
    {j k : ℕ} {stage : Stage} (hjk : j < k) (hk : stageOf s' k = some stage) (hstage : stage ≠ .registering) :
    ∃ earlier, stageOf s' j = some earlier ∧ earlier.registered = true := by
  have hbefore : ∃ earlier, stageOf s j = some earlier ∧ earlier.registered = true := by
    by_cases hki : k = i
    · subst hki
      by_cases hold : old = .registering
      · subst hold
        cases hmoves with
        | resolved hnext => exact stageOf_of_next hnext hm.old hjk
        | rejected hnext => exact stageOf_of_next hnext hm.old hjk
      · exact h.order j k old hjk hm.old hold
    · exact h.order j k stage hjk ((hm.others k hki).symm.trans hk) hstage
  obtain ⟨earlier, hearlier, hregistered⟩ := hbefore
  by_cases hji : j = i
  · subst hji
    rw [hm.old] at hearlier
    cases hearlier
    exact ⟨new, hm.new, hmoves.registered hregistered⟩
  · exact ⟨earlier, (hm.others j hji).trans hearlier, hregistered⟩

/-- A call that keeps its place and its key's queue. -/
theorem Queued.kept (h : Queued s) (hm : Moved s s' i old new) (hmoves : Moves resolve s i filePath a old new queues)
    (hplace : new.place = old.place)
    (hqueue : ∀ key, Covers s' key s.calls.length (s'.fileMutationQueues.get key))
    (hstarted : ∀ key currentQueue, new.place = some (key, currentQueue) → new.isWaiting = false →
      ∀ k < i, Placed s key k → Finished s k) : Queued s' where
  order j k stage hjk hk hstage := hm.order h hmoves hjk hk hstage
  behind j stage key currentQueue hj hjplace := by
    refine @Covers.mono s s' key j currentQueue ?_ (fun k _ => hm.placed_iff (.inr hplace))
      fun k hk => hm.finished hmoves.not_finished hk
    by_cases hji : j = i
    · subst hji
      obtain rfl : new = stage := Option.some.inj (hm.new.symm.trans hj)
      exact h.behind j old key currentQueue hm.old (hplace.symm.trans hjplace)
    · exact h.behind j stage key currentQueue ((hm.others j hji).symm.trans hj) hjplace
  queue key := hm.length ▸ hqueue key
  started k j stage key currentQueue hkj hk hj hjplace hwaiting := by
    have hk' : Placed s key k := (hm.placed_iff (.inr hplace)).mp hk
    refine hm.finished hmoves.not_finished ?_
    by_cases hji : j = i
    · subst hji
      obtain rfl : new = stage := Option.some.inj (hm.new.symm.trans hj)
      exact hstarted key currentQueue hjplace hwaiting k hkj hk'
    · exact h.started k j stage key currentQueue hkj hk' ((hm.others j hji).symm.trans hj) hjplace hwaiting

/-- The queues of the keys, when the map of them has not changed. -/
theorem Queued.same_queue (h : Queued s) (hm : Moved s s' i old new) (hold : old.isFinished = false)
    (hplace : new.place = old.place) (hqueues : s'.fileMutationQueues = s.fileMutationQueues) (key : JsString) :
    Covers s' key s.calls.length (s'.fileMutationQueues.get key) := by
  rw [hqueues]
  exact (h.queue key).mono (fun k _ => hm.placed_iff (.inr hplace)) fun k hk => hm.finished hold hk

/-- The last call of a queue that has finished has no call behind it to release. -/
theorem Queued.finish_queue (h : Queued s) {key : JsString} {currentQueue : Option ℕ} {failed : Bool}
    (hm : Moved s s' i (.running key currentQueue) (.finished key currentQueue failed))
    (hqueues : s'.fileMutationQueues =
      if s.fileMutationQueues.get key = some i then s.fileMutationQueues.erase key else s.fileMutationQueues)
    (key' : JsString) : Covers s' key' s.calls.length (s'.fileMutationQueues.get key') := by
  have hkept : Covers s' key' s.calls.length (s.fileMutationQueues.get key') :=
    (h.queue key').mono (fun k _ => hm.placed_iff (.inr rfl)) fun k hk => hm.finished rfl hk
  rw [hqueues]
  split_ifs with hlast
  · rw [Table.get_erase]
    split_ifs with hkey
    · subst hkey
      refine ⟨fun p hp => absurd hp (Option.some_ne_none p).symm, fun k hk hplaced => .inl ?_⟩
      rcases hkept.all k hk hplaced with hfinished | ⟨p, hp, hkp⟩
      · exact hfinished
      · obtain rfl : i = p := Option.some.inj (hlast.symm.trans hp)
        rcases Nat.lt_or_eq_of_le hkp with hlt | rfl
        · refine hm.finished rfl (h.started k i _ key currentQueue hlt ?_ hm.old rfl rfl)
          exact (hm.placed_iff (.inr rfl)).mp hplaced
        · exact ⟨_, hm.new, rfl⟩
    · exact hkept
  · exact hkept

/-- A call that takes its place comes behind all those placed before it. -/
theorem Queued.register (h : Queued s) {key : JsString}
    (hm : Moved s s' i (.resolved key) (.waiting key (s.fileMutationQueues.get key)))
    (hmoves : Moves resolve s i filePath a (.resolved key) (.waiting key (s.fileMutationQueues.get key)) queues)
    (hqueues : s'.fileMutationQueues = s.fileMutationQueues.set key i) : Queued s' := by
  have hbehind : ∀ {j stage}, stageOf s j = some stage → stage.place.isSome → j < i := by
    intro j stage hj hplace
    by_contra hle
    rcases Nat.lt_or_eq_of_le (Nat.le_of_not_lt hle) with hlt | rfl
    · obtain ⟨earlier, hearlier, hregistered⟩ := h.order i j stage hlt hj (by rintro rfl; cases hplace)
      rw [hm.old] at hearlier
      cases hearlier
      cases hregistered
    · rw [hm.old] at hj
      cases hj
      cases hplace
  have hfinished : ∀ k, Finished s k → Finished s' k := fun k hk => hm.finished rfl hk
  have hplaced : ∀ {key' k}, Placed s' key' k → k = i ∧ key' = key ∨ k < i ∧ Placed s key' k := by
    intro key' k hk
    by_cases hki : k = i
    · subst hki
      obtain ⟨stage, c, hstage, hplace⟩ := hk
      rw [hm.new] at hstage
      cases hstage
      cases hplace
      exact .inl ⟨rfl, rfl⟩
    · have hk' := (hm.placed_iff (.inl hki)).mp hk
      obtain ⟨stage, c, hstage, hplace⟩ := hk'
      exact .inr ⟨hbehind hstage (by rw [hplace]; rfl), ⟨stage, c, hstage, hplace⟩⟩
  have hcovers : Covers s' key i (s.fileMutationQueues.get key) := by
    refine ⟨fun p hp => ?_, fun k hk hkplaced => ?_⟩
    · obtain ⟨-, stage, c, hstage, hplace⟩ := (h.queue key).placed p hp
      have hpi : p < i := hbehind hstage (by rw [hplace]; rfl)
      exact ⟨hpi, .of_eq (hm.others p hpi.ne) ⟨stage, c, hstage, hplace⟩⟩
    · have hkplaced' := (hm.placed_iff (.inl hk.ne)).mp hkplaced
      exact ((h.queue key).all k hkplaced'.lt hkplaced').imp_left (hfinished k)
  refine ⟨fun j k stage hjk hk hstage => hm.order h hmoves hjk hk hstage, fun j stage key' c hj hplace => ?_,
    fun key' => ?_, fun k j stage key' c hkj hk hj hplace hwaiting => ?_⟩
  · by_cases hji : j = i
    · subst hji
      rw [hm.new] at hj
      cases hj
      cases hplace
      exact hcovers
    · have hj' := (hm.others j hji).symm.trans hj
      have hlt : j < i := hbehind hj' (by rw [hplace]; rfl)
      exact (h.behind j stage key' c hj' hplace).mono (fun k hk => hm.placed_iff (.inl (hk.trans hlt).ne)) hfinished
  · rw [hqueues, hm.length, Table.get_set]
    have hi : i < s.calls.length := lt_of_stageOf hm.old
    split_ifs with hkey
    · subst hkey
      refine ⟨fun p hp => ?_, fun k _ hk => .inr ⟨i, rfl, ?_⟩⟩
      · cases hp
        exact ⟨hi, _, _, hm.new, rfl⟩
      · exact (hplaced hk).elim (fun hk => hk.1.le) fun hk => hk.1.le
    · refine (h.queue key').mono (fun k _ => ⟨fun hk => ?_, fun hk => ?_⟩) hfinished
      · exact (hplaced hk).elim (fun hk => absurd hk.2.symm hkey) fun hk => hk.2
      · obtain ⟨stage, c, hstage, hplace⟩ := hk
        exact .of_eq (hm.others k (hbehind hstage (by rw [hplace]; rfl)).ne) ⟨stage, c, hstage, hplace⟩
  · by_cases hji : j = i
    · subst hji
      rw [hm.new] at hj
      cases hj
      cases hwaiting
    · have hj' := (hm.others j hji).symm.trans hj
      have hlt : j < i := hbehind hj' (by rw [hplace]; rfl)
      have hk' := (hm.placed_iff (.inl (hkj.trans hlt).ne)).mp hk
      exact hfinished k (h.started k j stage key' c hkj hk' hj' hplace hwaiting)

end

/-! ### Steps -/

theorem Queued.append (h : Queued s) (filePath : JsString) :
    Queued { s with calls := s.calls ++ [⟨filePath, .registering⟩] } := by
  have hlast := congrFun (stageOf_append s filePath) s.calls.length
  rw [Function.update_self] at hlast
  have hothers : ∀ k, k ≠ s.calls.length →
      stageOf { s with calls := s.calls ++ [⟨filePath, .registering⟩] } k = stageOf s k :=
    fun k hk => by rw [stageOf_append, Function.update_of_ne hk]
  have hplaced : ∀ key k, Placed { s with calls := s.calls ++ [⟨filePath, .registering⟩] } key k ↔ Placed s key k := by
    intro key k
    by_cases hk : k = s.calls.length
    · subst hk
      refine ⟨fun ⟨stage, c, hstage, hplace⟩ => ?_, fun hk => absurd hk.lt (lt_irrefl _)⟩
      rw [hlast] at hstage
      cases hstage
      cases hplace
    · exact ⟨.of_eq (hothers k hk).symm, .of_eq (hothers k hk)⟩
  have hfinished : ∀ k, Finished s k → Finished { s with calls := s.calls ++ [⟨filePath, .registering⟩] } k := by
    intro k hk
    refine hk.of_eq (hothers k ?_)
    rintro rfl
    obtain ⟨stage, hstage, -⟩ := hk
    exact lt_irrefl _ (lt_of_stageOf hstage)
  refine ⟨fun i j stage hij hj hstage => ?_, fun j stage key c hj hplace => ?_, fun key => ?_,
    fun i j stage key c hij hi hj hplace hwaiting => ?_⟩
  · by_cases hjl : j = s.calls.length
    · subst hjl
      exact absurd (Option.some.inj (hj.symm.trans hlast)) hstage
    · have hj' := (hothers j hjl).symm.trans hj
      rw [hothers i (hij.trans (lt_of_stageOf hj')).ne]
      exact h.order i j stage hij hj' hstage
  · by_cases hjl : j = s.calls.length
    · subst hjl
      rw [hlast] at hj
      cases hj
      cases hplace
    · exact (h.behind j stage key c ((hothers j hjl).symm.trans hj) hplace).mono (fun k _ => hplaced key k) hfinished
  · refine ⟨fun p hp => ?_, fun k _ hk => ?_⟩
    · obtain ⟨hlt, hp'⟩ := (h.queue key).placed p hp
      exact ⟨by rw [List.length_append]; omega, (hplaced key p).mpr hp'⟩
    · have hk' := (hplaced key k).mp hk
      exact ((h.queue key).all k hk'.lt hk').imp_left (hfinished k)
  · by_cases hjl : j = s.calls.length
    · subst hjl
      rw [hlast] at hj
      cases hj
      cases hplace
    · refine hfinished i (h.started i j stage key c hij ((hplaced key i).mp hi) ?_ hplace hwaiting)
      exact (hothers j hjl).symm.trans hj

theorem Queued.step (h : Queued s) (hs : step resolve s a = some s') : Queued s' := by
  rcases step_cases hs with ⟨filePath, rfl⟩ | ⟨fs, rfl, rfl⟩ | ⟨i, filePath, old, new, queues, hcall, hmoves, rfl⟩
  · exact h.append filePath
  · refine ⟨h.order, fun j stage key c hj hplace => ?_, fun key => ?_, h.started⟩
    · exact (h.behind j stage key c hj hplace).mono (fun _ _ => Iff.rfl) fun _ hk => hk
    · exact (h.queue key).mono (fun _ _ => Iff.rfl) fun _ hk => hk
  · have hm := @moved_of_set s i filePath old new queues hcall
    have hmoves' := hmoves
    cases hmoves with
    | resolved =>
      refine h.kept hm hmoves' rfl (h.same_queue hm rfl rfl rfl) fun key c hplace => ?_
      cases hplace
    | rejected =>
      refine h.kept hm hmoves' rfl (h.same_queue hm rfl rfl rfl) fun key c hplace => ?_
      cases hplace
    | register key => exact h.register hm hmoves' rfl
    | @start key c hsettled =>
      refine h.kept hm hmoves' rfl (h.same_queue hm rfl rfl rfl) ?_
      intro key' c' hplace _
      cases hplace
      exact finished_of_hasSettled h (h.behind i _ key c hm.old rfl) hsettled
    | finish key c failed =>
      refine h.kept hm hmoves' rfl (h.finish_queue hm rfl) ?_
      intro key' c' hplace _ k hk hplaced
      cases hplace
      exact h.started k i _ key c hk hplaced hm.old rfl rfl

/-! ## Files -/

variable (resolve) in
/-- The file that a callback works on: where the path of its call leads now. -/
def fileOf (s : State) (call : Call) : JsString := s.fs.location (resolve call.filePath)

/-- The callback has ended, or never will be started. -/
def Stage.ended : Stage → Bool
  | .rejected => true
  | .finished _ _ _ => true
  | _ => false

variable (resolve) in
/-- A path that is missing when it is asked for is reached without a symbolic link, and while a call has its key and
has not finished, no change leads its path elsewhere. -/
def Steady (s : State) : Action → Prop
  | .realpath i => ∀ call : Call, s.calls[i]? = some call → ∀ code, s.fs.error (resolve call.filePath) = some code →
      isMissingPathError code = true → s.fs.location (resolve call.filePath) = resolve call.filePath
  | .change fs => ∀ call ∈ s.calls, call.stage.pendingKey.isSome →
      fs.location (resolve call.filePath) = s.fs.location (resolve call.filePath)
  | _ => True

variable (resolve) in
/-- The callbacks for one file run one at a time and in call order, whatever becomes of them, and nothing else is waited
for. -/
structure Serialized (s : State) : Prop where
  exclusive : ∀ (i j : ℕ) (first second : Call), s.calls[i]? = some first → s.calls[j]? = some second →
    first.stage.isRunning = true → second.stage.isRunning = true →
    fileOf resolve s first = fileOf resolve s second → i = j
  ordered : ∀ (i j : ℕ) (first second : Call), i < j → s.calls[i]? = some first → s.calls[j]? = some second →
    second.stage.isRunning = true → fileOf resolve s first = fileOf resolve s second → first.stage.ended = true
  /-- A call that waits may start, unless an earlier one for its file has not ended. -/
  free : ∀ (j : ℕ) (second : Call), s.calls[j]? = some second → second.stage.isWaiting = true →
    (∀ (i : ℕ) (first : Call), i < j → s.calls[i]? = some first → fileOf resolve s first = fileOf resolve s second →
      first.stage.ended = true) → (step resolve s (.start j)).isSome = true
  /-- Registrations wait for registrations only. -/
  registers : ∀ (j : ℕ) (call : Call), s.calls[j]? = some call → call.stage.registered = false →
    ∃ i ≤ j, (step resolve s (.realpath i)).isSome = true ∨ (step resolve s (.register i)).isSome = true

variable (resolve) in
/-- The key of a call is where its path leads. -/
def Located (s : State) : Prop :=
  ∀ call ∈ s.calls, ∀ key, call.stage.pendingKey = some key → fileOf resolve s call = key

theorem location_of_key {fs : FileSystem} {filePath key : JsString}
    (h : getMutationQueueKey resolve fs filePath = .ok key)
    (hmissing : ∀ code, fs.error (resolve filePath) = some code → isMissingPathError code = true →
      fs.location (resolve filePath) = resolve filePath) : fs.location (resolve filePath) = key := by
  rw [getMutationQueueKey, realpath] at h
  cases herror : fs.error (resolve filePath) with
  | none =>
    rw [herror] at h
    exact Except.ok.inj h
  | some code =>
    rw [herror] at h
    dsimp only at h
    split_ifs at h with hcode
    rw [hmissing code herror hcode]
    exact Except.ok.inj h

theorem Moves.pendingKey {i : ℕ} {filePath : JsString} {old new : Stage} {queues : Table JsString ℕ}
    (h : Moves resolve s i filePath a old new queues) {key : JsString} (hkey : new.pendingKey = some key) :
    old.pendingKey = some key ∨ a = .realpath i ∧ getMutationQueueKey resolve s.fs filePath = .ok key := by
  cases h with
  | resolved hnext hok =>
    cases hkey
    exact .inr ⟨rfl, hok⟩
  | rejected => cases hkey
  | register => exact .inl hkey
  | start => exact .inl hkey
  | finish => cases hkey

theorem Located.step (h : Located resolve s) (ha : Steady resolve s a) (hs : step resolve s a = some s') :
    Located resolve s' := by
  rcases step_cases hs with ⟨filePath, rfl⟩ | ⟨fs, rfl, rfl⟩ | ⟨i, filePath, old, new, queues, hcall, hmoves, rfl⟩
  · intro call hmem key hkey
    rcases List.mem_append.mp hmem with hmem | hmem
    · exact h call hmem key hkey
    · rw [List.mem_singleton.mp hmem] at hkey
      cases hkey
  · intro call hmem key hkey
    rw [fileOf, ha call hmem (Option.isSome_iff_exists.mpr ⟨key, hkey⟩)]
    exact h call hmem key hkey
  · intro call hmem key hkey
    rcases List.mem_or_eq_of_mem_set hmem with hmem | rfl
    · exact h call hmem key hkey
    · rcases hmoves.pendingKey hkey with hold | ⟨rfl, hok⟩
      · exact h ⟨filePath, old⟩ (List.mem_of_getElem? hcall) key hold
      · exact location_of_key hok (ha ⟨filePath, old⟩ hcall)

theorem Stage.of_isRunning {stage : Stage} (h : stage.isRunning = true) :
    stage.registered = true ∧ stage.ended = false ∧ stage.isWaiting = false := by
  cases stage with
  | running => exact ⟨rfl, rfl, rfl⟩
  | _ => cases h

theorem stageOf_of_getElem? {i : ℕ} {call : Call} (h : s.calls[i]? = some call) : stageOf s i = some call.stage := by
  rw [stageOf, h, Option.map_some]

/-- A call that has its place and has not finished is in the queue of its file. -/
theorem Located.place (h : Located resolve s) {i : ℕ} {call : Call} (hcall : s.calls[i]? = some call)
    (hregistered : call.stage.registered = true) (hended : call.stage.ended = false) :
    ∃ currentQueue, call.stage.place = some (fileOf resolve s call, currentQueue) := by
  have hmem : call ∈ s.calls := List.mem_of_getElem? hcall
  have hkey := h call hmem
  cases hstage : call.stage with
  | registering =>
    rw [hstage] at hregistered
    cases hregistered
  | resolved =>
    rw [hstage] at hregistered
    cases hregistered
  | rejected =>
    rw [hstage] at hended
    cases hended
  | finished =>
    rw [hstage] at hended
    cases hended
  | waiting key c => exact ⟨c, by rw [hkey key (by rw [hstage]; rfl)]; rfl⟩
  | running key c => exact ⟨c, by rw [hkey key (by rw [hstage]; rfl)]; rfl⟩

/-- An earlier call for the file of a callback that runs has ended. -/
theorem ended_of_running (hq : Queued s) (hl : Located resolve s) {i j : ℕ} {first second : Call} (hij : i < j)
    (hfirst : s.calls[i]? = some first) (hsecond : s.calls[j]? = some second)
    (hrunning : second.stage.isRunning = true) (hfile : fileOf resolve s first = fileOf resolve s second) :
    first.stage.ended = true := by
  have hregistered := Stage.of_isRunning hrunning
  obtain ⟨c, hplace⟩ := hl.place hsecond hregistered.1 hregistered.2.1
  by_contra hended
  obtain ⟨earlier, hearlier, hfirstreg⟩ := hq.order i j second.stage hij (stageOf_of_getElem? hsecond)
    (by intro h; rw [h] at hrunning; cases hrunning)
  obtain rfl : first.stage = earlier := Option.some.inj ((stageOf_of_getElem? hfirst).symm.trans hearlier)
  obtain ⟨c', hplace'⟩ := hl.place hfirst hfirstreg (Bool.eq_false_of_not_eq_true hended)
  rw [hfile] at hplace'
  obtain ⟨stage, hstage, hfinished⟩ := hq.started i j _ _ c hij ⟨_, c', stageOf_of_getElem? hfirst, hplace'⟩
    (stageOf_of_getElem? hsecond) hplace hregistered.2.2
  obtain rfl : first.stage = stage := Option.some.inj ((stageOf_of_getElem? hfirst).symm.trans hstage)
  refine hended ?_
  cases hstage' : first.stage <;> rw [hstage'] at hfinished <;> first | rfl | cases hfinished

/-- A call whose earlier calls for its file have ended may start. -/
theorem start_of_ended (hq : Queued s) (hl : Located resolve s) {j : ℕ} {second : Call}
    (hsecond : s.calls[j]? = some second) (hwaiting : second.stage.isWaiting = true)
    (hended : ∀ (i : ℕ) (first : Call), i < j → s.calls[i]? = some first →
      fileOf resolve s first = fileOf resolve s second → first.stage.ended = true) :
    (step resolve s (.start j)).isSome = true := by
  obtain ⟨filePath, stage⟩ := second
  cases stage with
  | waiting key c =>
    have hkey : fileOf resolve s ⟨filePath, .waiting key c⟩ = key := hl _ (List.mem_of_getElem? hsecond) key rfl
    have hsettled : hasSettled s.calls j c = true := by
      have hbehind := hq.behind j _ key c (stageOf_of_getElem? hsecond) rfl
      refine hasSettled_of_finished hq le_rfl hbehind fun i hi hplaced => ?_
      obtain ⟨stage, c', hstage, hplace⟩ := hplaced
      refine ⟨stage, hstage, ?_⟩
      obtain ⟨first, hfirst, rfl⟩ := Option.map_eq_some_iff.mp hstage
      by_contra hfinished
      have hpending : first.stage.pendingKey = some key ∧ first.stage.ended = false := by
        cases hs : first.stage <;> rw [hs] at hplace hfinished <;> cases hplace <;>
          first | exact ⟨rfl, rfl⟩ | exact absurd rfl hfinished
      have hfile : fileOf resolve s first = key := hl first (List.mem_of_getElem? hfirst) key hpending.1
      have hdone := hended i first hi hfirst (hfile.trans hkey.symm)
      rw [hpending.2] at hdone
      cases hdone
    simp only [step, hsecond, hsettled, if_true, Option.isSome_some]
  | _ => cases hwaiting

/-- The first call that has not registered can do its next step. -/
theorem exists_registration (resolve : JsString → JsString) {j : ℕ} {call : Call} (hcall : s.calls[j]? = some call)
    (hregistered : call.stage.registered = false) :
    ∃ i ≤ j, (step resolve s (.realpath i)).isSome = true ∨ (step resolve s (.register i)).isSome = true := by
  have hex : ∃ i, ∃ call : Call, s.calls[i]? = some call ∧ call.stage.registered = false :=
    ⟨j, call, hcall, hregistered⟩
  classical
  obtain ⟨⟨filePath, stage⟩, hfirst, hstage⟩ := Nat.find_spec hex
  refine ⟨Nat.find hex, Nat.find_min' hex ⟨call, hcall, hregistered⟩, ?_⟩
  cases stage with
  | registering =>
    have hnext : isNext s (Nat.find hex) = true := by
      refine List.all_eq_true.mpr fun earlier hmem => ?_
      obtain ⟨i, hi⟩ := List.mem_iff_getElem?.mp hmem
      rw [List.getElem?_take] at hi
      split_ifs at hi with hlt
      by_contra hnot
      exact Nat.find_min hex hlt ⟨earlier, hi, Bool.eq_false_of_not_eq_true hnot⟩
    left
    simp only [step, hfirst, hnext, if_true]
    cases getMutationQueueKey resolve s.fs filePath <;> rfl
  | resolved key =>
    right
    simp only [step, hfirst, Option.isSome_some]
  | _ => cases hstage

theorem serialized (hq : Queued s) (hl : Located resolve s) : Serialized resolve s where
  exclusive i j first second hfirst hsecond hr hr' hfile := by
    have hnot : ∀ {k l : ℕ} {a b : Call}, s.calls[k]? = some a → s.calls[l]? = some b → a.stage.isRunning = true →
        b.stage.isRunning = true → fileOf resolve s a = fileOf resolve s b → ¬k < l := by
      intro k l a b ha hb hra hrb hab hlt
      have hended := ended_of_running hq hl hlt ha hb hrb hab
      rw [(Stage.of_isRunning hra).2.1] at hended
      cases hended
    have h1 := hnot hfirst hsecond hr hr' hfile
    have h2 := hnot hsecond hfirst hr' hr hfile.symm
    omega
  ordered i j first second hij hfirst hsecond hr hfile := ended_of_running hq hl hij hfirst hsecond hr hfile
  free j second hsecond hwaiting hended := start_of_ended hq hl hsecond hwaiting hended
  registers j call hcall hregistered := exists_registration resolve hcall hregistered

/-- Mutations of one file are exclusive in every run whose steps are steady. -/
theorem serialized_of_reaches (resolve : JsString → JsString) (fs : FileSystem) {s : State}
    (h : Reaches (step resolve) (Steady resolve) (.initial fs) s) : Serialized resolve s := by
  have hinv : Queued s ∧ Located resolve s := by
    refine h.invariant (I := fun s => Queued s ∧ Located resolve s)
      ⟨queued_initial fs, fun call hmem => absurd hmem List.not_mem_nil⟩ ?_
    intro s a s' hs ha hstep
    exact ⟨hs.1.step hstep, hs.2.step ha hstep⟩
  exact serialized hinv.1 hinv.2

/-! ### Two calls -/

/-- `/link` is a link to the directory `/real`, and a file is missing there until it is created. -/
def linked (created : Bool) : FileSystem where
  location path := if path = JsString.ofAscii "/link/x" then JsString.ofAscii "/real/x" else path
  error _ := if created then none else some .enoent

/-- The second of two calls waits for the first, by way of a link. -/
theorem serialized_of_reaches_alias : ∃ s, s.calls.map (fun call => (call.stage.isRunning, call.stage.isWaiting))
    = [(true, false), (false, true)] ∧ Serialized id s :=
  ⟨_, rfl, serialized_of_reaches id (linked true) <| Reaches.init
    |>.step (a := .call (JsString.ofAscii "/real/x")) trivial rfl
    |>.step (a := .call (JsString.ofAscii "/link/x")) trivial rfl
    |>.step (a := .realpath 0) (fun _ _ _ h => nomatch h) rfl
    |>.step (a := .register 0) trivial rfl
    |>.step (a := .realpath 1) (fun _ _ _ h => nomatch h) rfl
    |>.step (a := .start 0) trivial rfl
    |>.step (a := .register 1) trivial rfl⟩

/-- The first callback creates the file, and the second call, for the same path, has another key. -/
theorem not_serialized_created :
    ¬∀ (resolve : JsString → JsString) (fs : FileSystem) (s : State),
      Reaches (step resolve) (fun _ _ => True) (.initial fs) s → Serialized resolve s := by
  intro h
  let path := JsString.ofAscii "/link/x"
  have hrun := @Reaches.init _ _ (step id) (fun _ _ => True) (State.initial (linked false))
    |>.step (a := .call path) trivial rfl
    |>.step (a := .realpath 0) trivial rfl
    |>.step (a := .register 0) trivial rfl
    |>.step (a := .start 0) trivial rfl
    |>.step (a := .change (linked true)) trivial rfl
    |>.step (a := .call path) trivial rfl
    |>.step (a := .realpath 1) trivial rfl
    |>.step (a := .register 1) trivial rfl
    |>.step (a := .start 1) trivial rfl
  have hsame := (h id (linked false) _ hrun).exclusive 0 1 _ _ rfl rfl rfl rfl rfl
  cases hsame

end

end Phi.Edit.MutationQueue

import Phi.Data.Runs
import Phi.Data.Text

/-!
# Files that are updated under a lock

`FileSettingsStorage.withLock` and `FileAuthStorageBackend.withLock` run a function on the content of a file and write
what it gives. Any number of processes do so at once; a step is one existence check, one read, one write, or taking or
giving back the lock. A process fails where an error is thrown: the lock cannot be had, a file operation fails, the
caller's signal is aborted.

Both stores look for the file before they take the lock, and go on from what they saw. If the file comes into being
in between, the settings that were made from nothing, or the empty credentials, replace it.
-/

namespace Phi.Coding

/-- What runs: the settings on their file, or the credentials, synchronous or not, on theirs. -/
inductive LockedStore where
  | settings
  | auth
  deriving DecidableEq

/-- A caller's function: nothing if it throws, otherwise what it asks to be written, if anything. -/
abbrev Update := Option JsString → Option (Option JsString)

namespace LockedFile

/-- What `ensureFileExists` writes: `{}`. -/
def emptyObject : JsString := JsString.ofAscii "{}"

inductive Phase where
  /-- About to look for the file. -/
  | start
  /-- There was no file: about to write the empty credentials. -/
  | creating
  /-- About to take the lock, and to read. -/
  | locking
  /-- Under the lock, about to look for the file again (the credentials only). -/
  | locked
  | reading
  /-- About to run the function, under the lock or not. -/
  | computing (current : Option JsString) (held : Bool)
  /-- The settings are made from nothing: about to take the lock, and to write them. -/
  | waiting (next : JsString)
  /-- About to write what was made of the content, or of a missing file. -/
  | writing (missing : Bool) (next : JsString)
  | releasing (completed : Bool)
  | ended (completed : Bool)

namespace Phase

/-- The process holds the lock. -/
def Holds : Phase → Prop
  | locked | reading | computing _ true | writing _ _ | releasing _ => True
  | _ => False

/-- The update is made, or there was nothing to write. -/
def Completed : Phase → Prop
  | releasing true | ended true => True
  | _ => False

end Phase

structure State (ι : Type) where
  file : Option JsString
  holder : Option ι
  phase : ι → Phase

inductive Action (ι : Type) where
  | run (p : ι)
  | fail (p : ι)

variable {ι : Type} [DecidableEq ι]

namespace State

def set (s : State ι) (p : ι) (phase : Phase) : State ι := { s with phase := Function.update s.phase p phase }

/-- Take the lock, if it is free. -/
def lock (s : State ι) (p : ι) (phase : Phase) : Option (State ι) :=
  if s.holder = none then some { s with holder := some p, phase := Function.update s.phase p phase } else none

def write (s : State ι) (p : ι) (content : JsString) (phase : Phase) : State ι :=
  { s with file := some content, phase := Function.update s.phase p phase }

def release (s : State ι) (p : ι) (phase : Phase) : State ι :=
  { s with holder := none, phase := Function.update s.phase p phase }

/-- What follows on the caller's function. -/
def computed (held : Bool) : Option (Option JsString) → Phase
  | none => if held then .releasing false else .ended false
  | some none => if held then .releasing true else .ended true
  | some (some next) => if held then .writing false next else .waiting next

/-- The next operation of a process. -/
def advance (store : LockedStore) (update : ι → Update) (s : State ι) (p : ι) : Option (State ι) :=
  match s.phase p with
  | .start =>
    if s.file.isSome then some (s.set p .locking)
    else
      match store with
      | .settings => some (s.set p (.computing none false))
      | .auth => some (s.set p .creating)
  | .creating => some (s.write p emptyObject .locking)
  | .locking =>
    match store with
    | .settings => s.lock p .reading
    | .auth => s.lock p .locked
  | .locked => some (s.set p (if s.file.isSome then .reading else .computing none true))
  | .reading => some (s.set p (if s.file.isSome then .computing s.file true else .releasing false))
  | .computing current held => some (s.set p (computed held (update p current)))
  | .waiting next => s.lock p (.writing true next)
  | .writing _ next => some (s.write p next (.releasing true))
  | .releasing completed => some (s.release p (.ended completed))
  | .ended _ => none

/-- An error ends the process, or leaves it only the lock to give back. -/
def fails (s : State ι) (p : ι) : Option (State ι) :=
  match s.phase p with
  | .creating | .locking | .waiting _ | .computing _ false => some (s.set p (.ended false))
  | .locked | .reading | .writing _ _ | .computing _ true => some (s.set p (.releasing false))
  | .start | .releasing _ | .ended _ => none

def step (store : LockedStore) (update : ι → Update) (s : State ι) : Action ι → Option (State ι)
  | .run p => s.advance store update p
  | .fail p => s.fails p

/-- No process has done anything yet. -/
def initial (file : Option JsString) : State ι := ⟨file, none, fun _ => .start⟩

end State

/-! ## One after the other -/

/-- What the file holds for a store; credentials that are missing are empty. -/
def seen (store : LockedStore) (file : Option JsString) : Option JsString :=
  match store with
  | .settings => file
  | .auth => some (file.getD emptyObject)

/-- What an update alone makes of the file. -/
def apply (store : LockedStore) (update : Update) (file : Option JsString) : Option JsString :=
  (update (seen store file)).join.or (seen store file)

/-- The file holds what the completed updates make of it, one after the other in some order. -/
def Serial (store : LockedStore) (update : ι → Update) (file : Option JsString) (s : State ι) : Prop :=
  ∃ order : List ι, order.Nodup ∧ (∀ p, p ∈ order ↔ (s.phase p).Completed) ∧
    seen store s.file = seen store (order.foldl (fun content p => apply store (update p) content) file)

/-- A write that was decided on because there was no file comes when there is still none. -/
def Timely (s : State ι) : Action ι → Prop
  | .run p =>
    match s.phase p with
    | .creating | .writing true _ => s.file = none
    | _ => True
  | .fail _ => True

instance (s : State ι) (a : Action ι) : Decidable (Timely s a) :=
  match a with
  | .run p => match hphase : s.phase p with
    | .creating => decidable_of_iff (s.file = none) (by simp [Timely, hphase])
    | .writing true _ => decidable_of_iff (s.file = none) (by simp [Timely, hphase])
    | .writing false _ => isTrue (by simp [Timely, hphase])
    | .start | .locking | .locked | .reading | .computing _ _ | .waiting _ | .releasing _ | .ended _ =>
      isTrue (by simp [Timely, hphase])
  | .fail _ => isTrue trivial

/-! ## The invariant -/

section
variable (store : LockedStore) (update : ι → Update) (init : Option JsString)

/-- What holds of a process by its next operation, the file being as it is. -/
def Fits (file : Option JsString) (p : ι) : Phase → Prop
  | .creating => store = .auth ∧ init = none
  | .locking | .locked | .reading => file ≠ none
  | .computing current true => file ≠ none ∧ current = file
  | .computing current false => store = .settings ∧ current = none ∧ init = none
  | .waiting next => store = .settings ∧ init = none ∧ update p none = some (some next)
  | .writing true next => store = .settings ∧ init = none ∧ update p none = some (some next)
  | .writing false next => file ≠ none ∧ update p file = some (some next)
  | .start | .releasing _ | .ended _ => True

/-- The lock is held by the process that is at an operation under it. -/
structure Invariant (s : State ι) : Prop where
  holder : ∀ p, s.holder = some p ↔ (s.phase p).Holds
  fits : ∀ p, Fits store update init s.file p (s.phase p)
  first : s.file = none → init = none
  serial : Serial store update init s

end

variable {store : LockedStore} {update : ι → Update} {init : Option JsString} {s : State ι} {p : ι}

theorem seen_seen (file : Option JsString) : seen store (seen store file) = seen store file := by
  cases store <;> rfl

theorem seen_of_ne_none {file : Option JsString} (h : file ≠ none) : seen store file = file := by
  obtain ⟨content, rfl⟩ := Option.ne_none_iff_exists'.mp h
  cases store <;> rfl

theorem apply_seen (u : Update) (file : Option JsString) : apply store u (seen store file) = apply store u file := by
  rw [apply, apply, seen_seen]

theorem apply_of_next {u : Update} {file : Option JsString} {next : JsString} (h : u (seen store file) = some (some next)) :
    apply store u file = some next := by
  rw [apply, h]
  rfl

theorem apply_of_none {u : Update} {file : Option JsString} (h : u (seen store file) = some none) :
    apply store u file = seen store file := by
  rw [apply, h]
  rfl

theorem initial_invariant (init : Option JsString) : Invariant store update init (State.initial init) where
  holder p := by simp [State.initial, Phase.Holds]
  fits _ := trivial
  first h := h
  serial := ⟨[], List.nodup_nil, by simp [State.initial, Phase.Completed], rfl⟩

/-- A process that does not hold the lock minds no write. -/
theorem Fits.of_write {file : Option JsString} {phase : Phase} (h : Fits store update init file p phase)
    (hphase : ¬phase.Holds) (content : JsString) : Fits store update init (some content) p phase := by
  cases phase with
  | computing current held =>
    cases held with
    | false => exact h
    | true => exact absurd trivial hphase
  | writing missing next => exact absurd trivial hphase
  | locking => exact Option.some_ne_none content
  | locked => exact Option.some_ne_none content
  | reading => exact Option.some_ne_none content
  | start => trivial
  | creating => exact h
  | waiting next => exact h
  | releasing completed => trivial
  | ended completed => trivial

/-- No process minds that the file comes into being. -/
theorem Fits.of_create {phase : Phase} (h : Fits store update init none p phase) (content : JsString) :
    Fits store update init (some content) p phase := by
  cases phase with
  | computing current held =>
    cases held with
    | false => exact h
    | true => exact absurd rfl h.1
  | writing missing next =>
    cases missing with
    | false => exact absurd rfl h.1
    | true => exact h
  | locking => exact Option.some_ne_none content
  | locked => exact Option.some_ne_none content
  | reading => exact Option.some_ne_none content
  | start => trivial
  | creating => exact h
  | waiting next => exact h
  | releasing completed => trivial
  | ended completed => trivial

namespace Serial

theorem completed_update (q : ι) (phase : Phase) :
    (Function.update s.phase p phase q).Completed ↔ if q = p then phase.Completed else (s.phase q).Completed := by
  by_cases hq : q = p
  · subst hq
    rw [Function.update_self, if_pos rfl]
  · rw [Function.update_of_ne hq, if_neg hq]

/-- Nothing is completed, and the file holds the same. -/
theorem same (h : Serial store update init s) {file : Option JsString} (holder : Option ι) {phase : Phase}
    (hphase : phase.Completed ↔ (s.phase p).Completed) (hfile : seen store file = seen store s.file) :
    Serial store update init ⟨file, holder, Function.update s.phase p phase⟩ := by
  obtain ⟨order, hnodup, hmem, heq⟩ := h
  refine ⟨order, hnodup, fun q => ?_, by rw [hfile, heq]⟩
  rw [hmem, completed_update]
  by_cases hq : q = p
  · subst hq
    rw [if_pos rfl, hphase]
  · rw [if_neg hq]

/-- An update is completed on what the file holds. -/
theorem append (h : Serial store update init s) {file : Option JsString} (holder : Option ι) {phase : Phase}
    (hbefore : ¬(s.phase p).Completed) (hphase : phase.Completed)
    (hfile : seen store file = seen store (apply store (update p) s.file)) :
    Serial store update init ⟨file, holder, Function.update s.phase p phase⟩ := by
  obtain ⟨order, hnodup, hmem, heq⟩ := h
  have hp : p ∉ order := fun hp => hbefore ((hmem p).mp hp)
  refine ⟨order ++ [p], List.nodup_append.mpr ⟨hnodup, List.nodup_singleton p, ?_⟩, fun q => ?_, ?_⟩
  · intro a ha b hb hab
    rw [List.mem_singleton.mp hb] at hab
    exact hp (hab ▸ ha)
  · rw [List.mem_append, List.mem_singleton, hmem, completed_update]
    by_cases hq : q = p
    · subst hq
      simp [hphase]
    · simp [hq]
  · rw [List.foldl_append, List.foldl_cons, List.foldl_nil, hfile, ← apply_seen, heq, apply_seen]

/-- An update is completed that would change nothing in a missing file. -/
theorem prepend (h : Serial store update init s) (holder : Option ι) {phase : Phase} (hbefore : ¬(s.phase p).Completed)
    (hphase : phase.Completed) (hinit : apply store (update p) init = init) :
    Serial store update init ⟨s.file, holder, Function.update s.phase p phase⟩ := by
  obtain ⟨order, hnodup, hmem, heq⟩ := h
  have hp : p ∉ order := fun hp => hbefore ((hmem p).mp hp)
  refine ⟨p :: order, List.nodup_cons.mpr ⟨hp, hnodup⟩, fun q => ?_, ?_⟩
  · rw [List.mem_cons, hmem, completed_update]
    by_cases hq : q = p
    · subst hq
      simp [hphase]
    · simp [hq]
  · rw [List.foldl_cons, hinit]
    exact heq

end Serial

namespace Invariant

/-- A process comes to another operation. -/
theorem move (h : Invariant store update init s) {file : Option JsString} {holder : Option ι} {phase : Phase}
    (hself : holder = some p ↔ phase.Holds) (hothers : ∀ q, q ≠ p → (holder = some q ↔ s.holder = some q))
    (hfits : Fits store update init file p phase)
    (hfile : ∀ q, q ≠ p → Fits store update init s.file q (s.phase q) → Fits store update init file q (s.phase q))
    (hfirst : file = none → init = none)
    (hserial : Serial store update init ⟨file, holder, Function.update s.phase p phase⟩) :
    Invariant store update init ⟨file, holder, Function.update s.phase p phase⟩ where
  holder q := by
    by_cases hq : q = p
    · subst hq
      simpa using hself
    · simpa [hq] using (hothers q hq).trans (h.holder q)
  fits q := by
    by_cases hq : q = p
    · subst hq
      simpa using hfits
    · simpa [hq] using hfile q hq (h.fits q)
  first := hfirst
  serial := hserial

/-- Neither the file nor the lock changes. -/
theorem set (h : Invariant store update init s) {phase : Phase} (hholds : phase.Holds ↔ (s.phase p).Holds)
    (hfits : Fits store update init s.file p phase) (hserial : Serial store update init (s.set p phase)) :
    Invariant store update init (s.set p phase) :=
  h.move ((h.holder p).trans hholds.symm) (fun _ _ => Iff.rfl) hfits (fun _ _ hq => hq) h.first hserial

theorem lock (h : Invariant store update init s) {phase : Phase} {s' : State ι} (hs : s.lock p phase = some s')
    (hholds : phase.Holds) (hfits : Fits store update init s.file p phase)
    (hcompleted : phase.Completed ↔ (s.phase p).Completed) : Invariant store update init s' := by
  rw [State.lock] at hs
  split_ifs at hs with hfree
  cases hs
  refine h.move (by simpa using hholds) (fun q hq => ?_) hfits (fun _ _ hq => hq) h.first
    (h.serial.same _ hcompleted rfl)
  simp [hfree, Ne.symm hq]

theorem release (h : Invariant store update init s) {completed : Bool} (hphase : s.phase p = .releasing completed) :
    Invariant store update init (s.release p (.ended completed)) := by
  have hholder : s.holder = some p := by
    rw [h.holder, hphase]
    trivial
  refine h.move (by simp [Phase.Holds]) (fun q hq => ?_) trivial (fun _ _ hq => hq) h.first (h.serial.same _ ?_ rfl)
  · simp [hholder, Ne.symm hq]
  · rw [hphase]
    cases completed <;> rfl

/-- The holder of the lock writes what it made of what the file holds. -/
theorem write (h : Invariant store update init s) {missing : Bool} {next : JsString}
    (hphase : s.phase p = .writing missing next) (hupdate : update p (seen store s.file) = some (some next)) :
    Invariant store update init (s.write p next (.releasing true)) := by
  have hholder : s.holder = some p := by
    rw [h.holder, hphase]
    trivial
  refine h.move (by simp [hholder, Phase.Holds]) (fun _ _ => Iff.rfl) trivial (fun q hq hfits => ?_) (by simp)
    (h.serial.append _ ?_ trivial ?_)
  · refine hfits.of_write (fun hholds => hq ?_) next
    rw [← h.holder, hholder] at hholds
    exact (Option.some.inj hholds).symm
  · rw [hphase]
    exact id
  · rw [apply_of_next hupdate]

/-- The empty credentials are written where there is no file. -/
theorem create (h : Invariant store update init s) (hphase : s.phase p = .creating) (hfile : s.file = none) :
    Invariant store update init (s.write p emptyObject .locking) := by
  have hstore : store = .auth := by
    have hfits := h.fits p
    rw [hphase] at hfits
    exact hfits.1
  subst hstore
  refine h.move ?_ (fun _ _ => Iff.rfl) (Option.some_ne_none _) (fun q _ hfits => ?_) (by simp) (h.serial.same _ ?_ ?_)
  · rw [h.holder, hphase]
    exact Iff.rfl
  · rw [hfile] at hfits
    exact hfits.of_create emptyObject
  · rw [hphase]
    exact Iff.rfl
  · rw [hfile]
    rfl

/-- The caller's function has run. -/
theorem compute (h : Invariant store update init s) {current : Option JsString} {held : Bool}
    (hphase : s.phase p = .computing current held) :
    Invariant store update init (s.set p (State.computed held (update p current))) := by
  have hfits := h.fits p
  rw [hphase] at hfits
  cases held with
  | true =>
    obtain ⟨hfile, rfl⟩ := hfits
    have hseen : seen store s.file = s.file := seen_of_ne_none hfile
    have hholds : (s.phase p).Holds := by
      rw [hphase]
      trivial
    have hrunning : ¬(s.phase p).Completed := by
      rw [hphase]
      exact id
    cases hupdate : update p s.file with
    | none => exact h.set (iff_of_true trivial hholds) trivial (h.serial.same _ (iff_of_false id hrunning) rfl)
    | some next =>
      cases next with
      | none =>
        refine h.set (iff_of_true trivial hholds) trivial (h.serial.append _ hrunning trivial ?_)
        rw [apply_of_none (by rw [hseen, hupdate]), seen_seen]
      | some next =>
        exact h.set (iff_of_true trivial hholds) ⟨hfile, hupdate⟩ (h.serial.same _ (iff_of_false id hrunning) rfl)
  | false =>
    obtain ⟨rfl, rfl, rfl⟩ := hfits
    have hholds : ¬(s.phase p).Holds := by
      rw [hphase]
      exact id
    have hrunning : ¬(s.phase p).Completed := by
      rw [hphase]
      exact id
    cases hupdate : update p none with
    | none => exact h.set (iff_of_false id hholds) trivial (h.serial.same _ (iff_of_false id hrunning) rfl)
    | some next =>
      cases next with
      | none =>
        exact h.set (iff_of_false id hholds) trivial (h.serial.prepend _ hrunning trivial (apply_of_none hupdate))
      | some next =>
        exact h.set (iff_of_false id hholds) ⟨rfl, rfl, hupdate⟩ (h.serial.same _ (iff_of_false id hrunning) rfl)

theorem advance (h : Invariant store update init s) {s' : State ι} (htimely : Timely s (.run p))
    (hs : s.advance store update p = some s') : Invariant store update init s' := by
  have hfits := h.fits p
  simp only [Timely] at htimely
  unfold State.advance at hs
  cases hphase : s.phase p with
  | start =>
    rw [hphase] at hs
    have hset : ∀ phase : Phase, ¬phase.Holds → ¬phase.Completed → Fits store update init s.file p phase →
        Invariant store update init (s.set p phase) := by
      intro phase hholds hcompleted hfits
      refine h.set (iff_of_false hholds ?_) hfits (h.serial.same _ (iff_of_false hcompleted ?_) rfl)
      · rw [hphase]
        exact id
      · rw [hphase]
        exact id
    cases hfile : s.file with
    | some content =>
      simp only [hfile, Option.isSome_some, if_true] at hs
      cases hs
      exact hset .locking id id (by simp [Fits, hfile])
    | none =>
      simp only [hfile, Option.isSome_none] at hs
      cases store with
      | settings =>
        cases hs
        exact hset (.computing none false) id id ⟨rfl, rfl, h.first hfile⟩
      | auth =>
        cases hs
        exact hset .creating id id ⟨rfl, h.first hfile⟩
  | creating =>
    rw [hphase] at hs htimely
    cases hs
    exact h.create hphase htimely
  | locking =>
    rw [hphase] at hs hfits
    cases store with
    | settings => exact h.lock hs trivial hfits (by rw [hphase]; exact Iff.rfl)
    | auth => exact h.lock hs trivial hfits (by rw [hphase]; exact Iff.rfl)
  | locked =>
    rw [hphase] at hs hfits
    simp only [Option.isSome_iff_ne_none.mpr hfits, if_true] at hs
    cases hs
    refine h.set ?_ hfits (h.serial.same _ ?_ rfl)
    · rw [hphase]
      exact Iff.rfl
    · rw [hphase]
      exact Iff.rfl
  | reading =>
    rw [hphase] at hs hfits
    simp only [Option.isSome_iff_ne_none.mpr hfits, if_true] at hs
    cases hs
    refine h.set ?_ ⟨hfits, rfl⟩ (h.serial.same _ ?_ rfl)
    · rw [hphase]
      exact Iff.rfl
    · rw [hphase]
      exact Iff.rfl
  | computing current held =>
    rw [hphase] at hs
    cases hs
    exact h.compute hphase
  | waiting next =>
    rw [hphase] at hs hfits
    exact h.lock hs trivial hfits (by rw [hphase]; exact Iff.rfl)
  | writing missing next =>
    rw [hphase] at hs hfits htimely
    cases hs
    refine h.write hphase ?_
    cases missing with
    | true =>
      obtain ⟨rfl, -, hupdate⟩ := hfits
      rw [show s.file = none from htimely]
      exact hupdate
    | false => rw [seen_of_ne_none hfits.1, hfits.2]
  | releasing completed =>
    rw [hphase] at hs
    cases hs
    exact h.release hphase
  | ended completed =>
    rw [hphase] at hs
    cases hs

theorem fails (h : Invariant store update init s) {s' : State ι} (hs : s.fails p = some s') :
    Invariant store update init s' := by
  unfold State.fails at hs
  -- The process held the lock and still does, or it did not.
  have hset : ∀ phase : Phase, (phase.Holds ↔ (s.phase p).Holds) → ¬phase.Completed → ¬(s.phase p).Completed →
      Fits store update init s.file p phase → Invariant store update init (s.set p phase) :=
    fun phase hholds hcompleted hrunning hfits =>
      h.set hholds hfits (h.serial.same _ (iff_of_false hcompleted hrunning) rfl)
  cases hphase : s.phase p with
  | creating | locking | waiting next =>
    rw [hphase] at hs hset
    cases hs
    exact hset _ Iff.rfl id id trivial
  | locked | reading | writing missing next =>
    rw [hphase] at hs hset
    cases hs
    exact hset _ Iff.rfl id id trivial
  | computing current held =>
    rw [hphase] at hs hset
    cases held with
    | true =>
      cases hs
      exact hset _ Iff.rfl id id trivial
    | false =>
      cases hs
      exact hset _ Iff.rfl id id trivial
  | start | releasing completed | ended completed =>
    rw [hphase] at hs
    cases hs

end Invariant

/-- If no write that was decided on for want of a file comes after the file, the file always holds what the completed
updates make of it, one after the other. -/
theorem serial_of_timely {file : Option JsString} {s : State ι}
    (h : Reaches (State.step store update) Timely (State.initial file) s) : Serial store update file s := by
  have hinv : Invariant store update file s := by
    refine h.invariant (initial_invariant file) ?_
    intro s a s' hs htimely hstep
    cases a with
    | run p => exact hs.advance htimely hstep
    | fail p => exact hs.fails hstep
  exact hinv.serial

/-- A file that is there at first is always what the completed updates make of it. -/
theorem serial_of_exists {content : JsString} {s : State ι}
    (h : Reaches (State.step store update) (fun _ _ => True) (State.initial (some content)) s) :
    Serial store update (some content) s := by
  have hinv : Invariant store update (some content) s := by
    refine h.invariant (initial_invariant (some content)) ?_
    intro s a s' hs _ hstep
    cases a with
    | run p =>
      refine hs.advance ?_ hstep
      have hfits := hs.fits p
      cases hphase : s.phase p with
      | creating =>
        rw [hphase] at hfits
        cases hfits.2
      | writing missing next =>
        cases missing with
        | true =>
          rw [hphase] at hfits
          cases hfits.2.1
        | false => simp [Timely, hphase]
      | _ => simp [Timely, hphase]
    | fail p => exact hs.fails hstep
  exact hinv.serial

/-! ## Two processes at the start -/

/-- Each process adds its letter. -/
def addLetter (p : Bool) : Update := fun current => some (some (current.getD [] ++ [if p then 98 else 97]))

/-- Both find no file, and the second puts what it made of nothing in place of what the first wrote. -/
def settingsRun : List (Action Bool) :=
  [.run false, .run true, .run false, .run false, .run false, .run false, .run true, .run true, .run true, .run true]

/-- Both find no file, and the second creates it again when the first has written its update. -/
def authRun : List (Action Bool) :=
  [.run false, .run true, .run false, .run false, .run false, .run false, .run false, .run false, .run false,
    .run true, .run true, .run true, .run true, .run true, .run true, .run true]

theorem order_eq {order : List Bool} (hnodup : order.Nodup) (hmem : ∀ p, p ∈ order) :
    order = [false, true] ∨ order = [true, false] := by
  have hlength : order.length = 2 := by
    have hfinset : order.toFinset = Finset.univ := Finset.eq_univ_of_forall fun p => List.mem_toFinset.mpr (hmem p)
    rw [← List.toFinset_card_of_nodup hnodup, hfinset]
    rfl
  obtain ⟨a, b, rfl⟩ := List.length_eq_two.mp hlength
  revert hnodup
  cases a <;> cases b <;> decide

/-- In neither order do two processes make the file that these runs end with. -/
theorem update_lost :
    (∃ s, Reaches (State.step .settings addLetter) (fun _ _ => True) (State.initial none) s ∧
      (∀ p, s.phase p = .ended true) ∧ ¬Serial .settings addLetter none s) ∧
    ∃ s, Reaches (State.step .auth addLetter) (fun _ _ => True) (State.initial none) s ∧
      (∀ p, s.phase p = .ended true) ∧ ¬Serial .auth addLetter none s := by
  refine ⟨⟨(settingsRun.foldlM (State.step .settings addLetter) (State.initial none)).get (by rfl),
    .of_foldlM (Option.some_get _).symm, fun p => by cases p <;> rfl, ?_⟩,
    ⟨(authRun.foldlM (State.step .auth addLetter) (State.initial none)).get (by rfl),
    .of_foldlM (Option.some_get _).symm, fun p => by cases p <;> rfl, ?_⟩⟩
  · rintro ⟨order, hnodup, hmem, heq⟩
    rcases order_eq hnodup fun p => (hmem p).mpr (by cases p <;> trivial) with rfl | rfl <;> revert heq <;> decide
  · rintro ⟨order, hnodup, hmem, heq⟩
    rcases order_eq hnodup fun p => (hmem p).mpr (by cases p <;> trivial) with rfl | rfl <;> revert heq <;> decide

/-- The first process is done before the second looks for the file. -/
theorem serial_in_turn :
    ∃ s, (∀ p, s.phase p = .ended true) ∧ s.file = some [97, 98] ∧ Serial .settings addLetter none s :=
  let run : List (Action Bool) :=
    [.run false, .run false, .run false, .run false, .run false, .run true, .run true, .run true, .run true, .run true,
      .run true]
  let timely := fun (s : State Bool) a => if Timely s a then State.step .settings addLetter s a else none
  ⟨(run.foldlM timely (State.initial none)).get (by rfl), fun p => by cases p <;> rfl, rfl,
    serial_of_timely (.of_foldlM_allowed (Option.some_get _).symm)⟩

end LockedFile

end Phi.Coding

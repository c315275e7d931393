import Phi.Session.Invariant
import Phi.Session.MutationLine

/-!
# Sessions

Model of `StorageBackedSession` and `StorageBackedSessionMutation` of
`packages/agent/src/harness/session/session.ts`, over a storage that keeps an `InMemoryStorageState`.

A session is a machine whose events are the calls of its methods and the points where an awaited promise lets
one of its jobs go on. The callback of a mutation is a tree cut at its awaits; what `mutate` is given may be any
such tree. A storage may fail any read, and any commit before it stores something of it. Ids are what the id
generator returned for the call.
-/

namespace Phi.Session

inductive SessionError where
  | closed
  | invalidBranch (branch : JsString) (reason : String)
  | branchExists (branch : JsString)
  | pendingAssistantMessage
  | unknownTarget (targetId : JsString)
  | unknownBranch (branch : JsString)
  | alreadyAttempted
  | storage (error : StorageError)
  /-- A read or a commit that failed in the storage for reasons of its own. -/
  | storageFailed
  /-- What a callback throws itself. -/
  | thrown

def SessionError.message : SessionError → JsString
  | .closed => JsString.ofAscii "Session is closed"
  | .invalidBranch branch reason =>
    JsString.ofAscii "Invalid branch " ++ [34] ++ escapeUnits branch ++ [34] ++ JsString.ofAscii ": "
      ++ JsString.ofAscii reason
  | .branchExists branch => JsString.ofAscii "Branch already exists: " ++ branch
  | .pendingAssistantMessage => JsString.ofAscii "Cannot persist a pending assistant message"
  | .unknownTarget targetId => JsString.ofAscii "Unknown target: " ++ targetId
  | .unknownBranch branch => JsString.ofAscii "Unknown branch: " ++ branch
  | .alreadyAttempted => JsString.ofAscii "SessionMutator commit already attempted"
  | .storage error => error.message
  | .storageFailed => []
  | .thrown => []

def branchTip (branch : JsString) : StoreAddress := ⟨JsString.ofAscii "phi.branch.tip", branch⟩

/-! ## Callbacks -/

open InMemoryStorageState (CommitResult)

/-- The callback of a mutation, from one of its awaits on. -/
inductive Callback where
  /-- The callback has returned, or thrown. -/
  | done (result : Except SessionError Unit)
  /-- An awaited read, which answers from the state of the storage or fails. -/
  | read (k : Option InMemoryStorageState → Callback)
  /-- A call of `commit`, not awaited: `true` for the first, `false` when it was attempted before. -/
  | commit (writes : List Write) (k : Bool → Callback)
  /-- The promise of the first `commit` is awaited, if there was one. -/
  | settled (k : Option (Except SessionError CommitResult) → Callback)

namespace Callback

/-- Await the promise of the commit, then return. -/
def awaitCommitted : Callback :=
  .settled fun result => .done ((result.getD (.error .alreadyAttempted)).map fun _ => ())

/-- `await mutator.commit(writes)`, then return. -/
def awaitCommit (writes : List Write) : Callback :=
  .commit writes fun first => if first then awaitCommitted else .done (.error .alreadyAttempted)

end Callback

/-- What `appendToBranch` puts on a branch. -/
inductive BranchEntry where
  | message (message : Json)
  | custom (customType : JsString) (data : Option Json)

def BranchEntry.newEntry (entry : BranchEntry) (id : JsString) (parentId : Option JsString) : NewEntry :=
  match entry with
  | .message body => ⟨id, parentId, .message, none, [(JsString.ofAscii "message", body)]⟩
  | .custom customType data =>
    ⟨id, parentId, .custom, some customType, data.toList.map fun data => (JsString.ofAscii "data", data)⟩

/-- An assistant message whose `stopReason` is `pending`. -/
def isPendingAssistantMessage : Json → Bool
  | .object members =>
    match Table.get members (JsString.ofAscii "role"), Table.get members (JsString.ofAscii "stopReason") with
    | some (.string role), some (.string stopReason) =>
      role = JsString.ofAscii "assistant" ∧ stopReason = JsString.ofAscii "pending"
    | _, _ => false
  | _ => false

/-- A write that `SessionMutation.commit` refuses to pass on. -/
def Write.isPending : Write → Bool
  | .entry e => e.type = .message ∧ (e.fields.get (JsString.ofAscii "message")).any isPendingAssistantMessage
  | _ => false

/-- The parent that a stored tip gives; a tip that is neither an id nor `null` is the id of no entry. -/
def tipParent : Json → Option (Option JsString)
  | .string id => some (some id)
  | .null => some none
  | _ => none

/-- The callback of `appendToBranch`. -/
def appendCallback (name : JsString) (entry : BranchEntry) (id : JsString) : Callback :=
  match validateAddress (branchTip name) with
  | .error e => .done (.error (.storage e))
  | .ok () => .read fun
    | none => .done (.error .storageFailed)
    | some s =>
      match s.getValue (branchTip name) with
      | none => .done (.error (.unknownBranch name))
      | some tip =>
        match tipParent tip.value with
        | none => .done (.error (.storage (.missingParent [])))
        | some parent =>
          .awaitCommit [.entry (entry.newEntry id parent), .setValue (branchTip name) (.string id)]

/-- The callback of `createBranch`. -/
def createBranchCallback (name : JsString) (at_ : Option JsString) : Callback :=
  .read fun
    | none => .done (.error .storageFailed)
    | some s =>
      if (s.getValue (branchTip name)).isSome then .done (.error (.branchExists name))
      else
        match at_ with
        | none => .awaitCommit [.setValue (branchTip name) .null]
        | some target => .read fun
          | none => .done (.error .storageFailed)
          | some s =>
            if (s.getEntries [target]).has target then .awaitCommit [.setValue (branchTip name) (.string target)]
            else .done (.error (.unknownTarget target))

/-! ## Calls -/

inductive Call where
  | appendToBranch (name : JsString) (entry : BranchEntry) (id : JsString)
  | createBranch (name : JsString) (at_ : Option JsString)
  | setValue (address : StoreAddress) (next : Json)
  | deleteValue (address : StoreAddress)
  | appendList (address : StoreAddress) (element : Json)
  | deleteList (address : StoreAddress)
  | mutate (mutation : Callback)

namespace Call

def callback : Call → Callback
  | appendToBranch name entry id => appendCallback name entry id
  | createBranch name at_ => createBranchCallback name at_
  | setValue address next => .awaitCommit [.setValue address next]
  | deleteValue address => .awaitCommit [.deleteValue address]
  | appendList address element => .awaitCommit [.appendList address element]
  | deleteList address => .awaitCommit [.deleteList address]
  | mutate mutation => mutation

/-- The checks a method makes before it asks for a mutation. -/
def check : Call → Except SessionError Unit
  | appendToBranch _ (.message message) _ =>
    if isPendingAssistantMessage message then .error .pendingAssistantMessage else .ok ()
  | createBranch name _ =>
    if name.length = 0 then .error (.invalidBranch name "branch name must not be empty")
    else if 0 ∈ name then .error (.invalidBranch name "branch name must not contain \\u0000")
    else .ok ()
  | _ => .ok ()

end Call

/-! ## Mutations -/

/-- The commit of a mutation. -/
inductive Attempt where
  /-- Refused for a pending message, without asking the storage. -/
  | refused
  /-- The storage has not settled it yet. -/
  | asked (writes : List Write)
  | failed (writes : List Write)
  | performed (writes : List Write) (timestamp : ℕ) (result : Except StorageError CommitResult)

def Attempt.result : Attempt → Option (Except SessionError CommitResult)
  | refused => some (.error .pendingAssistantMessage)
  | asked _ => none
  | failed _ => some (.error .storageFailed)
  | performed _ _ result => some (result.mapError .storage)

/-- A granted `SessionMutation`, with the rest of its callback. -/
structure Mutation where
  callback : Callback
  commitResult : Option Attempt

/-- What is left of a mutation that ended. -/
structure Receipt where
  result : Except SessionError Unit
  commitResult : Option Attempt

namespace Mutation

/-- The mutation of a call when it is granted. -/
def grant (call : Call) : Mutation := ⟨call.callback, none⟩

/-- `SessionMutation.commit`, and whether it was the first. -/
def commit (m : Mutation) (writes : List Write) : Option Attempt × Bool :=
  match m.commitResult with
  | some attempt => (some attempt, false)
  | none => (some (if writes.any Write.isPending then .refused else .asked writes), true)

/-- The callback goes on from its await, with what a read answers; `none` while the await holds it. At its end
the mutation waits for a commit that is still with the storage. -/
def resume (m : Mutation) (answer : Option InMemoryStorageState) : Option (JobStatus Mutation Receipt) :=
  match m.callback with
  | .done result =>
    match m.commitResult with
    | some (.asked _) => none
    | attempt => some (.finished ⟨result, attempt⟩)
  | .read k => some (.running { m with callback := k answer })
  | .commit writes k => some (.running ⟨k (m.commit writes).2, (m.commit writes).1⟩)
  | .settled k =>
    match m.commitResult with
    | none => some (.running { m with callback := k none })
    | some attempt => attempt.result.map fun result => .running { m with callback := k (some result) }

end Mutation

/-! ## The session -/

inductive Lifecycle where
  | isOpen
  | closing
  | closed
deriving DecidableEq

structure StorageBackedSession where
  storage : InMemoryStorageState
  line : MutationLine Call Mutation Receipt
  state : Lifecycle

inductive Event where
  | call (call : Call)
  /-- The link of a job is reached. -/
  | start (job : ℕ)
  /-- The callback of a job goes on; a read it awaits may fail. -/
  | resume (job : ℕ) (fails : Bool)
  /-- The storage settles the commit of a job; `fails` when it stores nothing of it. -/
  | commit (job : ℕ) (fails : Bool) (timestamp : ℕ)
  | close
  /-- The line has drained after `close`. -/
  | closed

namespace StorageBackedSession

def init (storage : InMemoryStorageState) : StorageBackedSession := ⟨storage, .empty, .isOpen⟩

/-- A method call up to its first await. -/
def call (s : StorageBackedSession) (c : Call) : Except SessionError StorageBackedSession :=
  if s.state ≠ .isOpen ∨ s.line.sealedError then .error .closed
  else do
    c.check
    return { s with line := s.line.run c }

/-- The storage settles a commit. -/
def settle (storage : InMemoryStorageState) (writes : List Write) (fails : Bool) (timestamp : ℕ) :
    InMemoryStorageState × Attempt :=
  if fails then (storage, .failed writes)
  else
    let (storage', result) := storage.commit writes timestamp
    (storage', .performed writes timestamp result)

/-- One event; `none` when it cannot happen. -/
def step (s : StorageBackedSession) : Event → Option StorageBackedSession
  | .call c =>
    match s.call c with
    | .ok s' => some s'
    | .error _ => some s
  | .start i => (s.line.start Mutation.grant i).map fun line => { s with line := line }
  | .resume i fails =>
    match s.line.jobs[i]? with
    | some ⟨_, _, .running m⟩ =>
      (m.resume (if fails then none else some s.storage)).map fun status =>
        { s with line := s.line.setStatus i status }
    | _ => none
  | .commit i fails timestamp =>
    match s.line.jobs[i]? with
    | some ⟨_, _, .running ⟨callback, some (.asked writes)⟩⟩ =>
      let (storage, attempt) := settle s.storage writes fails timestamp
      some { s with storage := storage, line := s.line.setStatus i (.running ⟨callback, some attempt⟩) }
    | _ => none
  | .close => some { s with line := s.line.seal, state := if s.state = .isOpen then .closing else s.state }
  | .closed =>
    if s.state = .closing ∧ s.line.hasSettled s.line.tail then some { s with state := .closed } else none

def run (s : StorageBackedSession) (events : List Event) : Option StorageBackedSession := events.foldlM step s

end StorageBackedSession

end Phi.Session

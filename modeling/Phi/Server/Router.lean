import Phi.Data.Runs

/-!
# The session router

`SessionRouter` of the server: clients attach to sessions, each client's operations one after the other, and a session is
opened for the first of them. Everything that the host does (resolving, opening, attaching, releasing, closing) takes its
time and may fail. A step is what runs between two `await`s, or one answer of the host.

Operations, attachments, openings and removals are numbered in the order in which they come into being. A handle stands
for the `HostedSession` that is made with it; `resolveSession` returns the id it was asked for.
-/

namespace Phi.Server

/-! ## What the router holds -/

structure Handle (S : Type) where
  session : S
  /-- `close` has been called. -/
  closing : Bool := false
  /-- A call of `close` has settled. -/
  closed : Bool := false
  terminated : Bool := false

/-- Where `open` is. -/
inductive OpeningState where
  | resolving
  | opening
  /-- The handle that was opened while the server began to close is being closed again. -/
  | draining (handle : ℕ)
  | settled (result : Option ℕ)
  deriving DecidableEq

structure Opening (S : Type) where
  session : S
  state : OpeningState

/-- The promise of `handle.attachClient`. -/
inductive Acquiring where
  | pending
  | failed
  | lease
  deriving DecidableEq

/-- Where `releaseAttachment` is. -/
inductive Release where
  /-- So many of the operations that ran at its start still run. -/
  | operations (n : ℕ)
  /-- About to await the lease, if need be, and to release it. -/
  | lease
  | releasing
  /-- The attachment is cleared; the client is being told. -/
  | publishing (ok : Bool)
  | settled (ok : Bool)
  deriving DecidableEq

/-- The attachment is no longer in the set of its session, nor that of its client. -/
def Release.Cleared : Release → Prop
  | .publishing _ | .settled _ => True
  | _ => False

instance : DecidablePred Release.Cleared := fun phase => by
  cases phase <;> unfold Release.Cleared <;> infer_instance

structure ClientAttachment (C : Type) where
  client : C
  handle : ℕ
  /-- The attachment is in the set of its session. -/
  member : Bool := true
  acquiring : Acquiring := .pending
  operations : ℕ := 0
  releasing : Option Release := none
  /-- How often `lease.release` was called. -/
  releases : ℕ := 0

/-- Where an operation of a client is. The first four have not begun. -/
inductive Work (S : Type) where
  | attach (session : S)
  | detach
  | disconnect
  | call (session : S) (attachment : ℕ)
  /-- Awaiting `acquire`; the first to ask for the session takes the opening off the table. -/
  | opening (current : Option ℕ) (opening : ℕ) (first : Bool)
  | acquired (current : Option ℕ) (handle : ℕ)
  | replacing (current handle : ℕ)
  | acquiring (attachment : ℕ)
  /-- The lease came too late, and is being released. -/
  | rejecting (attachment : ℕ)
  | publishing
  | releasing (attachment : ℕ) (disconnect : Bool)
  | done
  deriving DecidableEq

structure Operation (C S : Type) where
  client : C
  /-- The operation of the same client that has to end before. -/
  previous : Option ℕ
  work : Work S

inductive RemovalState where
  | releasing (attachments : List ℕ)
  | closing
  | done
  deriving DecidableEq

structure Removal (S : Type) where
  session : S
  handle : ℕ
  state : RemovalState

/-- Where `close` is. -/
inductive Closing where
  | notCalled
  | waiting (operations openings : List ℕ)
  | releasing (attachments : List ℕ)
  /-- The handles, with the results of their `close`. -/
  | closing (handles : List ℕ) (results : ℕ → Option Bool)
  | closed

structure Sessions (S : Type) where
  handles : ℕ → Option (Handle S) := fun _ => none
  nextHandle : ℕ := 0
  hostedSessions : S → Option ℕ := fun _ => none
  openings : ℕ → Option (Opening S) := fun _ => none
  nextOpening : ℕ := 0
  openingSessions : S → Option ℕ := fun _ => none

structure Attachments (C : Type) where
  attachments : ℕ → Option (ClientAttachment C) := fun _ => none
  nextAttachment : ℕ := 0
  attachmentsByClient : C → Option ℕ := fun _ => none

structure Operations (C S : Type) where
  operations : ℕ → Option (Operation C S) := fun _ => none
  nextOperation : ℕ := 0
  clientOperations : C → Option ℕ := fun _ => none

structure Router (C S : Type) extends Sessions S, Attachments C, Operations C S where
  /-- `options.isClosing()`. -/
  isClosing : Bool := false
  disconnectedClients : C → Bool := fun _ => false
  removals : ℕ → Option (Removal S) := fun _ => none
  nextRemoval : ℕ := 0
  closing : Closing := .notCalled

/-- What is asked of the router, what the host answers, and what goes on after that. -/
inductive Action (C S : Type) where
  | attachClient (client : C) (session : S)
  | detachClient (client : C)
  | disconnect (client : C)
  | executeServiceCall (client : C) (session : S) (attachment : ℕ)
  | removeSession (session : S)
  /-- The server begins to close. -/
  | beginClosing
  | close
  /-- An operation goes on. -/
  | run (operation : ℕ)
  | resolved (opening : ℕ) (ok : Bool)
  | opened (opening : ℕ) (ok : Bool)
  | drained (opening : ℕ) (ok : Bool)
  | acquired (attachment : ℕ) (ok : Bool)
  /-- A service call ends; the release may be waiting for it. -/
  | callSettled (attachment : ℕ) (awaited : Bool)
  | goOnReleasing (attachment : ℕ)
  | released (attachment : ℕ) (ok : Bool)
  | terminated (handle : ℕ)
  | invalidate (handle : ℕ)
  | goOnRemoving (removal : ℕ)
  | removed (removal : ℕ) (ok : Bool)
  | goOnClosing
  | handleClosed (handle : ℕ) (ok : Bool)

variable {C S : Type} [DecidableEq C] [DecidableEq S]

/-- Change one entry of a table. -/
def modifyAt {α : Type} (table : ℕ → Option α) (i : ℕ) (f : α → α) : ℕ → Option α :=
  fun j => if j = i then (table j).map f else table j

/-- Delete an entry if it is this one. -/
def deleteIf {κ : Type} [DecidableEq κ] (table : κ → Option ℕ) (k : κ) (i : ℕ) : κ → Option ℕ :=
  if table k = some i then Function.update table k none else table

namespace Router

variable (r : Router C S)

/-! ## Releasing -/

/-- Begin to release some attachments; those that are being released already go on. -/
def releaseAll (chosen : ℕ → ClientAttachment C → Bool) : Router C S :=
  { r with
    attachments := fun a => (r.attachments a).map fun x =>
      if chosen a x ∧ x.releasing = none then { x with releasing := some (.operations x.operations) } else x }

def releaseAttachment (a : ℕ) : Router C S := r.releaseAll fun b _ => b = a

def setAttachment (a : ℕ) (f : ClientAttachment C → ClientAttachment C) : Router C S :=
  { r with attachments := modifyAt r.attachments a f }

/-- What the release of an attachment has come to, if it has settled. -/
def releaseSettled (a : ℕ) : Option Bool :=
  match (r.attachments a).bind (·.releasing) with
  | some (.settled ok) => some ok
  | _ => none

def clearAttachment (a : ℕ) (client : C) (ok : Bool) : Router C S :=
  { r with
    attachments := modifyAt r.attachments a fun x => { x with member := false, releasing := some (.publishing ok) }
    attachmentsByClient := deleteIf r.attachmentsByClient client a }

/-- The release goes on by itself. -/
def goOnReleasing (a : ℕ) : Option (Router C S) :=
  match r.attachments a with
  | none => none
  | some x =>
    match x.releasing with
    | some (.operations 0) => some (r.setAttachment a fun x => { x with releasing := some .lease })
    | some .lease =>
      match x.acquiring with
      | .pending => none
      | .failed => some (r.clearAttachment a x.client false)
      | .lease =>
        some (r.setAttachment a fun x => { x with releasing := some .releasing, releases := x.releases + 1 })
    | some (.publishing ok) => some (r.setAttachment a fun x => { x with releasing := some (.settled ok) })
    | _ => none

/-- The host has released the lease, or failed to. -/
def released (a : ℕ) (ok : Bool) : Option (Router C S) :=
  match r.attachments a with
  | none => none
  | some x => if x.releasing = some .releasing then some (r.clearAttachment a x.client ok) else none

def callSettled (a : ℕ) (awaited : Bool) : Option (Router C S) :=
  match r.attachments a with
  | none => none
  | some x =>
    if x.operations = 0 then none
    else
      let x' := { x with operations := x.operations - 1 }
      match awaited, x.releasing with
      | true, some (.operations (n + 1)) =>
        some (r.setAttachment a fun _ => { x' with releasing := some (.operations n) })
      | true, _ => none
      | false, _ => some (r.setAttachment a fun _ => x')

/-! ## Operations of a client -/

def setWork (i : ℕ) (work : Work S) : Router C S :=
  { r with operations := modifyAt r.operations i fun o => { o with work := work } }

/-- `runForClient`. -/
def runForClient (client : C) (work : Work S) : Router C S :=
  { r with
    operations := Function.update r.operations r.nextOperation (some ⟨client, r.clientOperations client, work⟩)
    nextOperation := r.nextOperation + 1
    clientOperations := Function.update r.clientOperations client (some r.nextOperation) }

def finish (i : ℕ) (client : C) : Router C S :=
  { r.setWork i .done with clientOperations := deleteIf r.clientOperations client i }

/-- The end of `disconnect`, with the end of its operation. -/
def finishDisconnect (i : ℕ) (client : C) : Router C S :=
  { r.finish i client with disconnectedClients := Function.update r.disconnectedClients client false }

/-- The operation before has ended. -/
def isReady (o : Operation C S) : Bool :=
  match o.previous with
  | none => true
  | some i => ((r.operations i).map (·.work)) = some .done

/-- The session id of an attachment. -/
def sessionOf (a : ℕ) : Option S :=
  ((r.attachments a).bind fun x => r.handles x.handle).map (·.session)

/-- `acquire`, up to its first `await`. -/
def acquire (i : ℕ) (current : Option ℕ) (session : S) : Router C S :=
  match r.hostedSessions session with
  | some h => r.setWork i (.acquired current h)
  | none =>
    match r.openingSessions session with
    | some p => r.setWork i (.opening current p false)
    | none =>
      { r.setWork i (.opening current r.nextOpening true) with
        openings := Function.update r.openings r.nextOpening (some ⟨session, .resolving⟩)
        nextOpening := r.nextOpening + 1
        openingSessions := Function.update r.openingSessions session (some r.nextOpening) }

/-- The end of `acquire`: the first that asked for the session takes the opening off the table. -/
def unlist (p : ℕ) (session : S) (first : Bool) : Router C S :=
  if first then { r with openingSessions := deleteIf r.openingSessions session p } else r

/-- Make an attachment, and ask the handle for a lease. -/
def attachTo (i : ℕ) (client : C) (h : ℕ) : Router C S :=
  { r.setWork i (.acquiring r.nextAttachment) with
    attachments := Function.update r.attachments r.nextAttachment (some { client := client, handle := h })
    nextAttachment := r.nextAttachment + 1 }

/-- The client may not attach: the server closes, or the client is being disconnected. -/
def Refuses (client : C) : Prop := r.isClosing = true ∨ r.disconnectedClients client = true

instance (client : C) : Decidable (r.Refuses client) := inferInstanceAs (Decidable (_ ∨ _))

/-- The lease is there: the attachment becomes that of the client, if nothing has come in between. -/
def settleAttach (i a : ℕ) (x : ClientAttachment C) : Option (Router C S) :=
  match x.acquiring with
  | .pending => none
  | .failed => some ((r.setAttachment a fun x => { x with member := false }).finish i x.client)
  | .lease =>
    if ((r.handles x.handle).bind fun handle => r.hostedSessions handle.session) = some x.handle ∧ x.member = true
        ∧ ¬r.Refuses x.client then
      some { r.setWork i .publishing with
        attachmentsByClient := Function.update r.attachmentsByClient x.client (some a) }
    else some ((r.releaseAttachment a).setWork i (.rejecting a))

/-- Release the attachment of the client, for `detachClient` and `disconnect`. -/
def letGo (i : ℕ) (client : C) (disconnect : Bool) : Router C S :=
  match r.attachmentsByClient client with
  | none => if disconnect then r.finishDisconnect i client else r.finish i client
  | some a => (r.releaseAttachment a).setWork i (.releasing a disconnect)

/-- `requireAttachment`. -/
def Requires (client : C) (session : S) (a : ℕ) : Prop :=
  ¬r.Refuses client ∧ r.attachmentsByClient client = some a ∧ r.sessionOf a = some session

instance (client : C) (session : S) (a : ℕ) : Decidable (r.Requires client session a) :=
  inferInstanceAs (Decidable (_ ∧ _))

def run (i : ℕ) : Option (Router C S) :=
  match r.operations i with
  | none => none
  | some o =>
    match o.work with
    | .attach session =>
      if r.isReady o then
        if r.Refuses o.client then some (r.finish i o.client)
        else if (r.attachmentsByClient o.client).bind r.sessionOf = some session then some (r.finish i o.client)
        else some (r.acquire i (r.attachmentsByClient o.client) session)
      else none
    | .detach => if r.isReady o then some (r.letGo i o.client false) else none
    | .disconnect => if r.isReady o then some (r.letGo i o.client true) else none
    | .call session a =>
      if r.isReady o then
        if r.Requires o.client session a then
          some ((r.setAttachment a fun x => { x with operations := x.operations + 1 }).finish i o.client)
        else some (r.finish i o.client)
      else none
    | .opening current p first =>
      match r.openings p with
      | some ⟨session, .settled result⟩ =>
        match result with
        | none => some ((r.unlist p session first).finish i o.client)
        | some h => some ((r.unlist p session first).setWork i (.acquired current h))
      | _ => none
    | .acquired current h =>
      if r.Refuses o.client then some (r.finish i o.client)
      else
        match current with
        | some a => some ((r.releaseAttachment a).setWork i (.replacing a h))
        | none => some (r.attachTo i o.client h)
    | .replacing a h =>
      match r.releaseSettled a with
      | none => none
      | some false => some (r.finish i o.client)
      | some true => some (r.attachTo i o.client h)
    | .acquiring a => (r.attachments a).bind (r.settleAttach i a)
    | .rejecting a => (r.releaseSettled a).map fun _ => r.finish i o.client
    | .publishing => some (r.finish i o.client)
    | .releasing a disconnect =>
      (r.releaseSettled a).map fun _ => if disconnect then r.finishDisconnect i o.client else r.finish i o.client
    | .done => none

/-! ## Opening a session -/

def setOpening (p : ℕ) (state : OpeningState) : Router C S :=
  { r with openings := modifyAt r.openings p fun x => { x with state := state } }

def setHandle (h : ℕ) (f : Handle S → Handle S) : Router C S :=
  { r with handles := modifyAt r.handles h f }

def resolved (p : ℕ) (ok : Bool) : Option (Router C S) :=
  match r.openings p with
  | some ⟨_, .resolving⟩ => some (r.setOpening p (if ok then .opening else .settled none))
  | _ => none

def opened (p : ℕ) (ok : Bool) : Option (Router C S) :=
  match r.openings p with
  | some ⟨session, .opening⟩ =>
    if ok then
      let handle : Handle S := { session := session, closing := r.isClosing }
      let r' := { r with
        handles := Function.update r.handles r.nextHandle (some handle), nextHandle := r.nextHandle + 1 }
      if r.isClosing then some (r'.setOpening p (.draining r.nextHandle))
      else some { r'.setOpening p (.settled (some r.nextHandle)) with
        hostedSessions := Function.update r.hostedSessions session (some r.nextHandle) }
    else some (r.setOpening p (.settled none))
  | _ => none

/-- The handle is closed, or the close failed; the opening fails in either case. -/
def drained (p : ℕ) (_ok : Bool) : Option (Router C S) :=
  match r.openings p with
  | some ⟨_, .draining h⟩ =>
    some ((r.setHandle h fun x => { x with closed := true }).setOpening p (.settled none))
  | _ => none

def acquired (a : ℕ) (ok : Bool) : Option (Router C S) :=
  match r.attachments a with
  | none => none
  | some x =>
    if x.acquiring = .pending then
      some (r.setAttachment a fun x => { x with acquiring := if ok then .lease else .failed })
    else none

def terminated (h : ℕ) : Option (Router C S) :=
  (r.handles h).map fun _ => r.setHandle h fun x => { x with terminated := true }

def invalidate (h : ℕ) : Option (Router C S) :=
  match r.handles h with
  | none => none
  | some x =>
    if x.terminated then
      if r.hostedSessions x.session = some h then
        some { r.releaseAll fun _ x => x.member && x.handle = h with
          hostedSessions := Function.update r.hostedSessions x.session none }
      else some r
    else none

/-! ## Removing a session -/

def removeSession (session : S) : Router C S :=
  if r.isClosing then r
  else
    match r.hostedSessions session with
    | none => r
    | some h =>
      let members := (List.range r.nextAttachment).filter fun a =>
        (r.attachments a).any fun x => x.member && x.handle = h
      { r.releaseAll fun _ x => x.member && x.handle = h with
        removals := Function.update r.removals r.nextRemoval (some ⟨session, h, .releasing members⟩)
        nextRemoval := r.nextRemoval + 1 }

def goOnRemoving (k : ℕ) : Option (Router C S) :=
  match r.removals k with
  | some ⟨_, h, .releasing members⟩ =>
    if members.all fun a => (r.releaseSettled a).isSome then
      some { r.setHandle h fun x => { x with closing := true } with
        removals := modifyAt r.removals k fun m => { m with state := .closing } }
    else none
  | _ => none

/-- The handle is closed, or the close failed; the session is removed in either case. -/
def removed (k : ℕ) (_ok : Bool) : Option (Router C S) :=
  match r.removals k with
  | some ⟨session, h, .closing⟩ =>
    some { r.setHandle h fun x => { x with closed := true } with
      hostedSessions := deleteIf r.hostedSessions session h
      removals := modifyAt r.removals k fun m => { m with state := .done } }
  | _ => none

/-! ## Closing -/

/-- The handle is that of a hosted session. -/
def IsHosted (h : ℕ) : Prop := ((r.handles h).bind fun x => r.hostedSessions x.session) = some h

instance (h : ℕ) : Decidable (r.IsHosted h) := inferInstanceAs (Decidable (_ = _))

def close : Option (Router C S) :=
  if r.isClosing then
    match r.closing with
    | .notCalled =>
      some { r with
        closing := .waiting
          ((List.range r.nextOperation).filter fun i =>
            (r.operations i).any fun o => r.clientOperations o.client = some i)
          ((List.range r.nextOpening).filter fun p =>
            (r.openings p).any fun x => r.openingSessions x.session = some p) }
    | _ => some r
  else none

/-- The entries of the closed handles are deleted, unless the close failed. -/
def unhost (results : ℕ → Option Bool) : S → Option ℕ :=
  fun session => (r.hostedSessions session).filter fun h => results h ≠ some true

def goOnClosing : Option (Router C S) :=
  match r.closing with
  | .waiting operations openings =>
    if (operations.all fun i => ((r.operations i).map (·.work)) = some .done)
        ∧ (openings.all fun p => (r.openings p).any fun x => x.state matches .settled _) then
      some { r.releaseAll fun _ x => x.member && decide (r.IsHosted x.handle) with
        closing := .releasing ((List.range r.nextAttachment).filter fun a =>
          (r.attachments a).any fun x => x.member && decide (r.IsHosted x.handle)) }
    else none
  | .releasing attachments =>
    if attachments.all fun a => (r.releaseSettled a).isSome then
      some { r with
        handles := fun h => (r.handles h).map fun x => if r.IsHosted h then { x with closing := true } else x
        closing := .closing ((List.range r.nextHandle).filter fun h => r.IsHosted h) fun _ => none }
    else none
  | .closing handles results =>
    if handles.all fun h => (results h).isSome then
      some { r with
        hostedSessions := r.unhost results
        attachmentsByClient := fun _ => none
        clientOperations := fun _ => none
        closing := .closed }
    else none
  | _ => none

def handleClosed (h : ℕ) (ok : Bool) : Option (Router C S) :=
  match r.closing with
  | .closing handles results =>
    if h ∈ handles ∧ results h = none then
      some { r.setHandle h fun x => { x with closed := true } with
        closing := .closing handles (Function.update results h (some ok)) }
    else none
  | _ => none

/-! ## Steps -/

def step : Action C S → Option (Router C S)
  | .attachClient client session => some (if r.isClosing then r else r.runForClient client (.attach session))
  | .detachClient client => some (r.runForClient client .detach)
  | .disconnect client =>
    some ({ r with disconnectedClients := Function.update r.disconnectedClients client true }.runForClient client
      .disconnect)
  | .executeServiceCall client session a => some (r.runForClient client (.call session a))
  | .removeSession session => some (r.removeSession session)
  | .beginClosing => some { r with isClosing := true }
  | .close => r.close
  | .run i => r.run i
  | .resolved p ok => r.resolved p ok
  | .opened p ok => r.opened p ok
  | .drained p ok => r.drained p ok
  | .acquired a ok => r.acquired a ok
  | .callSettled a awaited => r.callSettled a awaited
  | .goOnReleasing a => r.goOnReleasing a
  | .released a ok => r.released a ok
  | .terminated h => r.terminated h
  | .invalidate h => r.invalidate h
  | .goOnRemoving k => r.goOnRemoving k
  | .removed k ok => r.removed k ok
  | .goOnClosing => r.goOnClosing
  | .handleClosed h ok => r.handleClosed h ok

end Router

end Phi.Server

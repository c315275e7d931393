import Phi.Data.Json

/-!
# The harness event bus

`HarnessEventBus` passes events to listeners and watchers through one delivery tail. An emission binds its recipients at
once, and the tail calls them one after the other, so that anything may happen between two calls: `step` is one
synchronous piece of the code, and a run is any sequence of such pieces.

A watcher starts from a snapshot. It buffers until it is started, and `resnapshot` replaces its snapshot while it stays
subscribed: events are dropped up to the boundary of the new snapshot, then held until it is installed. Deliveries of an
earlier epoch are skipped.

`boundary`, `received`, `discarded` and `log` are history: the code never reads them.
-/

namespace Phi.Harness

/-- The parts of an event that the bus reads, with the rest as they are. -/
inductive HarnessEvent where
  | handlerError (event error : JsString) (stack lane : Option JsString)
  | other (type : JsString) (lane : Option JsString) (payload : Json)

namespace HarnessEvent

/-- The characters of "handler_error". -/
def handlerErrorType : JsString := [104, 97, 110, 100, 108, 101, 114, 95, 101, 114, 114, 111, 114]

def type : HarnessEvent → JsString
  | handlerError _ _ _ _ => handlerErrorType
  | other type _ _ => type

def lane : HarnessEvent → Option JsString
  | handlerError _ _ _ lane => lane
  | other _ lane _ => lane

def isHandlerError (event : HarnessEvent) : Bool := event.type == handlerErrorType

end HarnessEvent

/-- An error that a listener throws. -/
structure HandlerFailure where
  message : JsString
  stack : Option JsString

/-- The event that reports a failure at `event`. -/
def HandlerFailure.report (failure : HandlerFailure) (event : HarnessEvent) : HarnessEvent :=
  .handlerError event.type failure.message failure.stack event.lane

section
variable (C T : Type)

/-- An event with the context that emitted it. -/
abbrev Emission := HarnessEvent × C

inductive Phase where
  | dropping
  | holding
  deriving DecidableEq

structure ResnapshotState where
  phase : Phase := .dropping
  held : List (Emission C) := []
  /-- How many events had been emitted when the capture marked its boundary. -/
  mark : Option ℕ := none
  /-- What the capture returned. -/
  captured : Option T := none
  /-- Something that was not delivered yet was thrown away. -/
  discarded : Bool

inductive WatcherState where
  | buffering
  | started
  | unsubscribed
  deriving DecidableEq

/-- `BufferedEventWatcher`. -/
structure Watcher where
  filter : HarnessEvent → Bool
  snapshot : Option T
  /-- There is a resnapshot callback. -/
  resnapshots : Bool
  buffer : List (Emission C × ℕ) := []
  deliveryTail : List (Emission C × ℕ) := []
  epoch : ℕ := 0
  resnapshotState : Option (ResnapshotState C T) := none
  state : WatcherState := .buffering
  /-- How many events had been emitted at the boundary of the snapshot. -/
  boundary : ℕ
  /-- What the listener was called with since the snapshot. -/
  received : List (Emission C) := []

end

variable {C T : Type}

namespace Watcher

def push (w : Watcher C T) (e : Emission C) : Watcher C T :=
  match w.state, w.resnapshotState with
  | .unsubscribed, _ => w
  | _, some r =>
    match r.phase with
    | .dropping => { w with resnapshotState := some { r with discarded := true } }
    | .holding => { w with resnapshotState := some { r with held := r.held ++ [e] } }
  | .buffering, none => { w with buffer := w.buffer ++ [(e, w.epoch)] }
  | .started, none => { w with deliveryTail := w.deliveryTail ++ [(e, w.epoch)] }

/-- What is buffered goes to the delivery tail, each event with the epoch it was buffered in. -/
def start (w : Watcher C T) : Option (Watcher C T) :=
  if w.state = .buffering then
    some { w with state := .started, buffer := [], deliveryTail := w.deliveryTail ++ w.buffer }
  else none

/-- An event of the current epoch waits in the watcher. -/
def waiting (w : Watcher C T) : List (Emission C) :=
  ((w.deliveryTail ++ w.buffer).filter fun entry => entry.2 = w.epoch).map Prod.fst

def resnapshot (w : Watcher C T) : Option (Watcher C T) :=
  if w.state = .unsubscribed ∨ w.resnapshots = false ∨ w.resnapshotState.isSome then none
  else some { w with epoch := w.epoch + 1, resnapshotState := some { discarded := !w.waiting.isEmpty } }

def markResnapshotBoundary (w : Watcher C T) : Watcher C T :=
  match w.resnapshotState with
  | some r => if r.phase = .dropping then { w with resnapshotState := some { r with phase := .holding } } else w
  | none => w

/-- The end of a resnapshot, with or without a new snapshot: what was held is pushed. -/
def release (w : Watcher C T) (held : List (Emission C)) : Watcher C T :=
  held.foldl push { w with resnapshotState := none }

/-- The capture rejected. -/
def captureFailed (w : Watcher C T) : Option (Watcher C T) :=
  match w.resnapshotState with
  | some r => if r.captured.isSome then none else some (w.release r.held)
  | none => none

def captured (w : Watcher C T) (snapshot : T) : Option (Watcher C T) :=
  match w.resnapshotState with
  | some r =>
    if r.captured.isSome ∨ r.mark = none then none
    else some { w with resnapshotState := some { r with captured := some snapshot } }
  | none => none

/-- The capture returned and its boundary was reached. -/
def install (w : Watcher C T) : Option (Watcher C T) :=
  match w.resnapshotState with
  | some ⟨.holding, held, some mark, some snapshot, _⟩ =>
    some ({ w with snapshot := some snapshot, boundary := mark, received := [] }.release held)
  | _ => none

def unsubscribe (w : Watcher C T) : Watcher C T := { w with state := .unsubscribed, buffer := [] }

/-- The next turn of the watcher's own delivery tail. -/
def notify (w : Watcher C T) : Option (Watcher C T) :=
  match w.deliveryTail with
  | [] => none
  | (e, epoch) :: rest =>
    if w.state = .started ∧ epoch = w.epoch then some { w with deliveryTail := rest, received := w.received ++ [e] }
    else some { w with deliveryTail := rest }

end Watcher

/-- One call that the delivery tail of the bus is going to make. -/
inductive Item (C : Type) where
  | call (listener : ℕ) (e : Emission C) (reportErrors : Bool)
  | push (watcher : ℕ) (e : Emission C)
  | barrier (watcher : ℕ)
  | clear

structure EventBus (C T : Type) where
  /-- Listeners with the type they listen to, in the order of registration. -/
  listeners : List (JsString × ℕ) := []
  watchListeners : List ℕ := []
  deliveryTail : List (Item C) := []
  closed : Bool := false
  watchers : List (Watcher C T) := []
  log : List (Emission C) := []

inductive Action (C T : Type) where
  | on (type : JsString) (listener : ℕ)
  | off (listener : ℕ)
  | emitBatch (events : List HarnessEvent) (context : C)
  | watch (filter : HarnessEvent → Bool) (snapshot : Option T) (resnapshots : Bool)
  | setSnapshot (watcher : ℕ) (snapshot : T)
  | start (watcher : ℕ)
  | resnapshot (watcher : ℕ)
  | markBoundary (watcher : ℕ)
  | captured (watcher : ℕ) (snapshot : T)
  | captureFailed (watcher : ℕ)
  | install (watcher : ℕ)
  | unsubscribe (watcher : ℕ)
  | notify (watcher : ℕ)
  /-- The next call of the delivery tail, which may throw if it is a listener's. -/
  | deliver (failure : Option HandlerFailure)
  | close

namespace EventBus

variable (b : EventBus C T)

/-- `snapshotRecipients`, as the calls that deliver the event. -/
def bind (e : Emission C) (reportErrors : Bool) : List (Item C) :=
  (b.listeners.filter fun l => l.1 = e.1.type).map (fun l => .call l.2 e reportErrors)
    ++ b.watchListeners.map fun w => .push w e

def emitBatch (events : List HarnessEvent) (context : C) : EventBus C T :=
  if b.closed then b
  else
    let emissions := events.map fun event => (event, context)
    { b with
      deliveryTail := b.deliveryTail ++ emissions.flatMap fun e => b.bind e true
      log := b.log ++ emissions }

/-- `installWatcher`. -/
def watch (filter : HarnessEvent → Bool) (snapshot : Option T) (resnapshots : Bool) : Option (EventBus C T) :=
  if b.closed then none
  else
    some
      { b with
        watchListeners := b.watchListeners ++ [b.watchers.length]
        watchers := b.watchers ++ [{ filter, snapshot, resnapshots, boundary := b.log.length }] }

/-- A step of one watcher. -/
def update (i : ℕ) (f : Watcher C T → Option (Watcher C T)) : Option (EventBus C T) := do
  let w ← f (← b.watchers[i]?)
  some { b with watchers := b.watchers.set i w }

/-- The capture of a resnapshot marks its boundary, once. -/
def markBoundary (i : ℕ) : Option (EventBus C T) := do
  let w ← b.watchers[i]?
  let r ← w.resnapshotState
  if r.mark.isSome ∨ r.captured.isSome then none
  else
    let w := { w with resnapshotState := some { r with mark := some b.log.length } }
    some { b with watchers := b.watchers.set i w, deliveryTail := b.deliveryTail ++ [.barrier i] }

/-- One call of the delivery tail. A listener that throws is reported to the recipients of that moment, before the calls
that wait. -/
def deliver (failure : Option HandlerFailure) : Option (EventBus C T) :=
  match b.deliveryTail with
  | [] => none
  | .call _ e reportErrors :: rest =>
    match failure with
    | some failure =>
      if !reportErrors || e.1.isHandlerError then some { b with deliveryTail := rest }
      else
        let report := (failure.report e.1, e.2)
        some { b with deliveryTail := b.bind report false ++ rest, log := b.log ++ [report] }
    | none => some { b with deliveryTail := rest }
  | .push i e :: rest =>
    { b with deliveryTail := rest }.update i fun w => some (if w.filter e.1 then w.push e else w)
  | .barrier i :: rest => { b with deliveryTail := rest }.update i fun w => some w.markResnapshotBoundary
  | .clear :: rest => some { b with deliveryTail := rest, listeners := [], watchListeners := [] }

/-- `none` where the code throws, or has nothing to do. -/
def step : Action C T → Option (EventBus C T)
  | .on type listener => if b.closed then none else some { b with listeners := b.listeners ++ [(type, listener)] }
  | .off listener => some { b with listeners := b.listeners.filter fun l => l.2 ≠ listener }
  | .emitBatch events context => some (b.emitBatch events context)
  | .watch filter snapshot resnapshots => b.watch filter snapshot resnapshots
  | .setSnapshot i snapshot => b.update i fun w => some { w with snapshot := some snapshot }
  | .start i => b.update i Watcher.start
  | .resnapshot i => b.update i Watcher.resnapshot
  | .markBoundary i => b.markBoundary i
  | .captured i snapshot => b.update i fun w => w.captured snapshot
  | .captureFailed i => b.update i Watcher.captureFailed
  | .install i => b.update i Watcher.install
  | .unsubscribe i =>
    { b with watchListeners := b.watchListeners.filter fun w => w ≠ i }.update i fun w => some w.unsubscribe
  | .notify i => b.update i Watcher.notify
  | .deliver failure => b.deliver failure
  | .close => some { b with closed := true, deliveryTail := b.deliveryTail ++ [.clear] }

end EventBus

/-- The events that a lane's watch passes on. -/
def laneFilter (name : JsString) (event : HarnessEvent) : Bool :=
  event.type == [117, 115, 97, 103, 101] || event.lane = none || event.lane = some name

end Phi.Harness

import Phi.Services.State

/-!
# The service provider

Model of one registration of `RemoteServiceProvider` of `packages/chord/src/services/provider.ts`: the
singleton or the keyed instances of one service, and its subscriptions. Other registrations reach this
one only through the states they share with it, whose mutations and publications are events of a run
here.

A listener of a subscription may throw, and what it was called with is kept, but it does not call back
into the provider; so an instance whose listeners have been removed is never asked for its `active`
flag.
-/

namespace Phi.Services

open Delta

/-! ## Implementations -/

/-- A property of the object a program provides; a state is named by its place among the states of the
program. -/
inductive Property where
  | method
  | state (id : ℕ)
  | accessor
  | other

/-- What `provide`, `replace` and `spawn` are given: an object, with the properties `Object.keys` lists,
or anything else. -/
inductive Implementation where
  | object (properties : Table JsString Property) (nodup : properties.Nodup)
  | other

/-- `InstanceMember`. -/
inductive Member where
  | method
  | state (id : ℕ)
deriving DecidableEq

def Member.kind : Member → MemberKind
  | .method => .method
  | .state _ => .state

/-- The order of `Array.prototype.sort` on strings: by code units. -/
def unitsBefore (left right : JsString) : Bool := decide (left ≤ right)

/-- One member of an implementation. -/
def classifyProperty (states : ℕ) (serviceId name : JsString) : Property → Except ServiceError Member
  | .accessor => .error (.typeError (text [JsString.ofAscii "Remote service member ", serviceId,
      JsString.ofAscii ".", name, JsString.ofAscii " must be a data property"]))
  | .method => .ok .method
  | .state id => if id < states then .ok (.state id) else exposeError
  | .other => exposeError
where
  exposeError : Except ServiceError Member :=
    .error (.typeError (text [JsString.ofAscii "Remote service member ", serviceId,
      JsString.ofAscii ".", name, JsString.ofAscii " is not remotely exposable"]))

def classifyMembers (states : ℕ) (serviceId : JsString) :
    List (JsString × Property) → Except ServiceError (Table JsString Member)
  | [] => .ok []
  | (name, property) :: properties => do
    let member ← classifyProperty states serviceId name property
    let members ← classifyMembers states serviceId properties
    return (name, member) :: members

/-- `classifyRemoteServiceImplementation`, in a program with that many states. -/
def classifyRemoteServiceImplementation (states : ℕ) (serviceId : JsString) :
    Implementation → Except ServiceError (Table JsString Member)
  | .other => .error (.typeError (text [JsString.ofAscii "Remote service ", serviceId,
      JsString.ofAscii " implementation must be an object"]))
  | .object properties _ => do
    let members ← classifyMembers states serviceId
      (properties.mergeSort fun left right => unitsBefore left.1 right.1)
    if members.length = 0 then
      .error (.typeError (text [JsString.ofAscii "Remote service ", serviceId,
        JsString.ofAscii " has no members"]))
    else return members

def serviceMemberShape (members : Table JsString Member) : Table JsString MemberKind :=
  members.mapValues Member.kind

def sameServiceMemberShape (left right : Table JsString MemberKind) : Bool :=
  left.length == right.length && left.all fun e => right.get e.1 == some e.2

/-! ## The registration -/

/-- `ProviderInstance`; `id` is its identity as an object. -/
structure ProviderInstance where
  id : ℕ
  address : Option Address
  members : Table JsString Member

/-- `ProviderSubscriber` with its subscription: `registered` tells whether the registration holds it,
`delivered` are the calls of its listener so far. -/
structure Subscriber where
  snapshot : SubscriptionSnapshot Op
  buffer : List (Update Op)
  active : Bool
  terminated : Bool
  closed : Bool
  registered : Bool
  delivered : List (Update Op)

/-- `ServiceRegistration`, the states of the program, and the provider's `#disposed`. Whether
`left.localeCompare(right) <= 0` is up to the host's locale. `created` is a history variable, the
instances created so far; no function reads it. -/
structure Provider where
  serviceId : JsString
  mode : Mode
  locale : JsString → JsString → Bool
  disposed : Bool
  states : List MutableReplicatedState
  nextInstance : ℕ
  created : List ProviderInstance
  singleton : Option ProviderInstance
  singletonShape : Option (Table JsString MemberKind)
  instances : Table JsString ProviderInstance
  generations : Table JsString ℕ
  subscribers : List Subscriber

/-- The listeners that throw, by the place of their subscription and the update they are called with. -/
abbrev Failures := ℕ → Update Op → Bool

namespace Subscriber

/-- What has been sent to the subscription, delivered or still buffered. -/
def history (s : Subscriber) : List (Update Op) := s.delivered ++ s.buffer

/-- `#emit` reaches the subscription. -/
def isOpen (s : Subscriber) : Bool := s.registered && !s.closed

/-- One update of `#emit` for one subscription. -/
def push (update : Update Op) (s : Subscriber) : Subscriber :=
  if s.isOpen = false then s
  else if s.active then { s with delivered := s.delivered ++ [update] }
  else { s with buffer := s.buffer ++ [update] }

/-- `activate()`. -/
def activate (s : Subscriber) : Subscriber :=
  if s.closed || s.active then s
  else { s with
    active := true
    delivered := s.delivered ++ s.buffer
    buffer := []
    closed := s.terminated }

/-- `close()`. -/
def close (s : Subscriber) : Subscriber :=
  if s.closed then s else { s with closed := true, buffer := [], registered := false }

/-- What `dispose` does to a subscription after the last updates. -/
def terminate (s : Subscriber) : Subscriber :=
  if s.registered = false then s
  else if s.active then { s with closed := true, buffer := [], registered := false }
  else { s with terminated := true, registered := false }

end Subscriber

namespace Provider

/-- `new RemoteServiceProvider(…)` with this service. -/
def initial (serviceId : JsString) (mode : Mode) (locale : JsString → JsString → Bool) : Provider where
  serviceId := serviceId
  mode := mode
  locale := locale
  disposed := false
  states := []
  nextInstance := 0
  created := []
  singleton := none
  singletonShape := none
  instances := []
  generations := []
  subscribers := []

/-- The instances of the registration, by its mode. -/
def liveInstances (p : Provider) : List ProviderInstance :=
  match p.mode with
  | .singleton => p.singleton.toList
  | .keyed => p.instances.map Prod.snd

/-! ### Emission -/

/-- What a delivery throws when a listener did. -/
def updateError (p : Provider) : ServiceError :=
  .listeners (text [JsString.ofAscii "Failed to publish remote service ", p.serviceId,
    JsString.ofAscii " update"])

/-- Some listener that `#emit` calls throws. -/
def throws (p : Provider) (fails : Failures) (update : Update Op) : Bool :=
  p.subscribers.zipIdx.any fun e => e.1.isOpen && e.1.active && fails e.2 update

/-- `#emit(registration, update)`: every subscription is served before the throw. -/
def emit (p : Provider) (fails : Failures) (update : Update Op) : Provider × Option ServiceError :=
  ({ p with subscribers := p.subscribers.map (Subscriber.push update) },
    if p.throws fails update then some p.updateError else none)

/-- The calls of the source listeners of a state that has published. -/
def notify (p : Provider) (fails : Failures) (sequence : ℕ) (ops : List Op) :
    List SourceListener → Provider × Option ServiceError
  | [] => (p, none)
  | l :: listeners =>
    match p.emit fails (.state l.address l.member sequence ops) with
    | (p, none) => p.notify fails sequence ops listeners
    -- the throw leaves the loop of `publish`
    | (p, some e) => (p, some e)

/-- `publish` of a state. -/
def publish (p : Provider) (fails : Failures) (id : ℕ) : Provider × Option ServiceError :=
  match p.states[id]? with
  | none => (p, none)
  | some s =>
    let p := { p with states := p.states.set id s.publish.1 }
    match s.publish.2 with
    | .error e => (p, some (.delta e))
    | .ok none => (p, none)
    | .ok (some ops) => p.notify fails s.publish.1.sequence ops s.publish.1.sourceListeners

/-- `publish` of one state after the other, up to the first throw. -/
def publishAll (p : Provider) (fails : Failures) : List ℕ → Provider × Option ServiceError
  | [] => (p, none)
  | id :: ids =>
    match p.publish fails id with
    | (p, none) => p.publishAll fails ids
    | (p, some e) => (p, some e)

/-- The states behind the members of an instance. -/
def stateIds (i : ProviderInstance) : List ℕ :=
  i.members.filterMap fun e =>
    match e.2 with
    | .state id => some id
    | .method => none

/-- `#publishPending`. -/
def publishPending (p : Provider) (fails : Failures) : Provider × Option ServiceError :=
  p.publishAll fails (p.liveInstances.flatMap stateIds)

/-! ### Snapshots -/

/-- One member of a snapshot. A member's state is always one of the program's. -/
def snapshotMember (p : Provider) (e : JsString × Member) : MemberSnapshot Op :=
  match e.2 with
  | .method => .method e.1
  | .state id =>
    match p.states[id]? with
    | some s => .state e.1 s.sequence [.r s.publishedValue]
    | none => .method e.1

/-- `#snapshotInstance`. -/
def snapshotInstance (p : Provider) (i : ProviderInstance) : InstanceSnapshot Op :=
  ⟨i.address, i.members.map p.snapshotMember⟩

/-- The instances in the order of the snapshot. -/
def sortedInstances (p : Provider) : List ProviderInstance :=
  match p.mode with
  | .singleton => p.liveInstances
  | .keyed => (p.instances.mergeSort fun left right => p.locale left.1 right.1).map Prod.snd

/-- `#snapshot`. -/
def snapshot (p : Provider) : SubscriptionSnapshot Op :=
  ⟨p.serviceId, p.mode, p.sortedInstances.map p.snapshotInstance⟩

/-! ### Instances -/

/-- The closures that `#createInstance` registers with the state `id`. -/
def listenersFor (instanceId : ℕ) (address : Option Address) (members : Table JsString Member) (id : ℕ) :
    List SourceListener :=
  members.filterMap fun e => if e.2 = .state id then some ⟨instanceId, address, e.1⟩ else none

/-- The states with an instance's listeners registered. -/
def addListeners (states : List MutableReplicatedState) (instanceId : ℕ) (address : Option Address)
    (members : Table JsString Member) : List MutableReplicatedState :=
  states.mapIdx fun id s =>
    { s with sourceListeners := s.sourceListeners ++ listenersFor instanceId address members id }

/-- The states with an instance's listeners removed. -/
def removeListeners (states : List MutableReplicatedState) (instanceId : ℕ) :
    List MutableReplicatedState :=
  states.map fun s => { s with sourceListeners := s.sourceListeners.filter (·.id ≠ instanceId) }

/-- `#createInstance`: the provider with the listeners, and the instance. -/
def createInstance (p : Provider) (members : Table JsString Member) (address : Option Address) :
    Provider × ProviderInstance :=
  ({ p with
      states := addListeners p.states p.nextInstance address members
      nextInstance := p.nextInstance + 1
      created := p.created ++ [⟨p.nextInstance, address, members⟩] },
    ⟨p.nextInstance, address, members⟩)

/-- Remove the member listeners of an instance. -/
def detach (p : Provider) (i : ProviderInstance) : Provider :=
  { p with states := removeListeners p.states i.id }

/-! ### Errors -/

def disposedError : ServiceError := .error (JsString.ofAscii "Remote service provider is disposed")

def modeName : Mode → JsString
  | .singleton => JsString.ofAscii "singleton"
  | .keyed => JsString.ofAscii "keyed"

/-- `#assertActive` and the mode check of `#registration`. -/
def registration (p : Provider) (mode : Mode) : Except ServiceError Unit :=
  if p.disposed then .error disposedError
  else if p.mode ≠ mode then
    .error (.remote .serviceModeMismatch (text [JsString.ofAscii "Remote service ", p.serviceId,
      JsString.ofAscii " is ", modeName p.mode, JsString.ofAscii ", not ", modeName mode]))
  else .ok ()

/-- `#assertSingletonShape`. -/
def assertSingletonShape (p : Provider) (shape : Table JsString MemberKind) : Except ServiceError Unit :=
  match p.singletonShape with
  | none => .ok ()
  | some current =>
    if sameServiceMemberShape current shape then .ok ()
    else .error (.remote .serviceMemberMismatch (text [JsString.ofAscii "Remote service ",
      p.serviceId, JsString.ofAscii " replacement must preserve its member shape"]))

/-! ### Operations -/

/-- The members of a singleton that may be provided or may replace the current one. -/
def validateReplacement (p : Provider) (implementation : Implementation) :
    Except ServiceError (Table JsString Member) := do
  let members ← classifyRemoteServiceImplementation p.states.length p.serviceId implementation
  p.assertSingletonShape (serviceMemberShape members)
  return members

/-- `provide`. No update is emitted. -/
def provide (p : Provider) (implementation : Implementation) : Provider × Option ServiceError :=
  match p.registration .singleton with
  | .error e => (p, some e)
  | .ok () =>
    if p.singleton.isSome then
      (p, some (.remote .serviceModeMismatch (text [JsString.ofAscii "Remote service ", p.serviceId,
        JsString.ofAscii " already has a provider"])))
    else
      match p.validateReplacement implementation with
      | .error e => (p, some e)
      | .ok members =>
        let (p, i) := p.createInstance members none
        ({ p with singleton := some i, singletonShape := some (serviceMemberShape members) }, none)

/-- `withdraw`. -/
def withdraw (p : Provider) (fails : Failures) : Provider × Option ServiceError :=
  match p.registration .singleton with
  | .error e => (p, some e)
  | .ok () =>
    match p.singleton with
    | none => (p, none)
    | some previous => { p.detach previous with singleton := none }.emit fails .unavailable

/-- `replace`: the new instance listens before the previous one is detached. -/
def replace (p : Provider) (fails : Failures) (implementation : Implementation) :
    Provider × Option ServiceError :=
  match p.registration .singleton with
  | .error e => (p, some e)
  | .ok () =>
    match p.validateReplacement implementation with
    | .error e => (p, some e)
    | .ok members =>
      let previous := p.singleton
      let (p, replacement) := p.createInstance members none
      let p := previous.elim p p.detach
      let p := { p with
        singleton := some replacement
        singletonShape := some (serviceMemberShape members) }
      p.emit fails (.replaced (p.snapshotInstance replacement))

/-- `spawn`: the generation is used up even if the implementation is refused. -/
def spawn (p : Provider) (fails : Failures) (key : JsString) (implementation : Implementation) :
    Provider × Option ServiceError :=
  if p.disposed then (p, some disposedError)
  else if key.length = 0 then
    (p, some (.typeError (JsString.ofAscii "Remote service instance key must not be empty")))
  else
    match p.registration .keyed with
    | .error e => (p, some e)
    | .ok () =>
      if p.instances.has key then
        (p, some (.remote .serviceModeMismatch (text [JsString.ofAscii "Remote service ",
          p.serviceId, JsString.ofAscii " already has a live instance with key ", key])))
      else
        let generation := (p.generations.get key).getD 0 + 1
        let p := { p with generations := p.generations.set key generation }
        match classifyRemoteServiceImplementation p.states.length p.serviceId implementation with
        | .error e => (p, some e)
        | .ok members =>
          let (p, i) := p.createInstance members (some ⟨key, generation⟩)
          let p := { p with instances := p.instances.set key i }
          p.emit fails (.spawned (p.snapshotInstance i))

/-- The handle `spawn` returned for this address: only the instance it was made for is closed. -/
def close (p : Provider) (fails : Failures) (address : Address) : Provider × Option ServiceError :=
  match p.instances.get address.key with
  | none => (p, none)
  | some i =>
    if i.address ≠ some address then (p, none)
    else { p.detach i with instances := p.instances.erase address.key }.emit fails (.closed address)

/-- `subscribe`: what is pending is published to the earlier subscriptions, then the snapshot taken. -/
def subscribe (p : Provider) (fails : Failures) (mode : Mode) : Provider × Option ServiceError :=
  match p.registration mode with
  | .error e => (p, some e)
  | .ok () =>
    if p.mode = .singleton ∧ p.singleton.isNone then
      (p, some (.remote .serviceNotFound (text [JsString.ofAscii "Remote service ", p.serviceId,
        JsString.ofAscii " has no provider"])))
    else
      match p.publishPending fails with
      | (p, some e) => (p, some e)
      | (p, none) =>
        ({ p with subscribers := p.subscribers ++ [{
            snapshot := p.snapshot
            buffer := []
            active := false
            terminated := false
            closed := false
            registered := true
            delivered := [] }] }, none)

/-- `activate` of the subscription in place `j`. -/
def activate (p : Provider) (fails : Failures) (j : ℕ) : Provider × Option ServiceError :=
  let buffered := (p.subscribers[j]?).elim [] fun s => if s.closed || s.active then [] else s.buffer
  ({ p with subscribers := p.subscribers.modify j Subscriber.activate },
    if buffered.any (fails j) then
      some (.listeners (JsString.ofAscii "Failed to activate remote service subscription"))
    else none)

/-- `close` of the subscription in place `j`. -/
def unsubscribe (p : Provider) (j : ℕ) : Provider :=
  { p with subscribers := p.subscribers.modify j Subscriber.close }

/-- Close the given instances one after the other; every one is closed, whatever its listeners throw. -/
def closeAll (p : Provider) (fails : Failures) :
    List (JsString × ProviderInstance) → Provider × List ServiceError
  | [] => (p, [])
  | (key, i) :: entries =>
    let p := { p.detach i with instances := p.instances.erase key }
    let (p, error) := i.address.elim (p, none) fun address => p.emit fails (.closed address)
    let (p, errors) := p.closeAll fails entries
    (p, error.toList ++ errors)

/-- The first half of `dispose`: the singleton becomes unavailable. -/
def dropSingleton (p : Provider) (fails : Failures) : Provider × Option ServiceError :=
  match p.singleton with
  | none => (p, none)
  | some i => { p.detach i with singleton := none }.emit fails .unavailable

/-- `dispose`. -/
def dispose (p : Provider) (fails : Failures) : Provider × Option ServiceError :=
  if p.disposed then (p, none)
  else
    let (p, error) := { p with disposed := true }.dropSingleton fails
    let (p, errors) := p.closeAll fails p.instances
    ({ p with subscribers := p.subscribers.map Subscriber.terminate },
      match error.toList ++ errors with
      | [] => none
      | [e] => some e
      | _ => some (.listeners (JsString.ofAscii "Failed to dispose remote service provider")))

end Provider

/-! ## Runs -/

/-- What the program around a provider does. -/
inductive Event where
  | create (initial : Json)
  | mutate (id : ℕ) (path : Path) (m : Mutation)
  | publish (id : ℕ) (fails : Failures)
  | provide (implementation : Implementation)
  | withdraw (fails : Failures)
  | replace (implementation : Implementation) (fails : Failures)
  | spawn (key : JsString) (implementation : Implementation) (fails : Failures)
  | close (address : Address) (fails : Failures)
  | subscribe (mode : Mode) (fails : Failures)
  | activate (j : ℕ) (fails : Failures)
  | unsubscribe (j : ℕ)
  | dispose (fails : Failures)

namespace Provider

/-- One event. What it throws reaches the program; the provider is left as the source leaves it. -/
def step (p : Provider) : Event → Provider
  | .create initial =>
    match MutableReplicatedState.create initial with
    | .ok s => { p with states := p.states ++ [s] }
    | .error _ => p
  | .mutate id path m => { p with states := p.states.modify id fun s => s.mutate path m }
  | .publish id fails => (p.publish fails id).1
  | .provide implementation => (p.provide implementation).1
  | .withdraw fails => (p.withdraw fails).1
  | .replace implementation fails => (p.replace fails implementation).1
  | .spawn key implementation fails => (p.spawn fails key implementation).1
  | .close address fails => (p.close fails address).1
  | .subscribe mode fails => (p.subscribe fails mode).1
  | .activate j fails => (p.activate fails j).1
  | .unsubscribe j => p.unsubscribe j
  | .dispose fails => (p.dispose fails).1

end Provider

end Phi.Services

import Phi.Services.State

/-!
# The service consumer

Model of the facades and bindings of `packages/chord/src/services/consumer.ts`, and of the instance
directory of `instances.ts`: what a consumer does with the snapshot of its subscription and with the
updates that follow. What it does with the members (calls, reads, local subscriptions) and the rebinding
to another transport are not modelled; a slot therefore exists for the state members only, and no kind
is expected of it.
-/

namespace Phi.Services

open Delta

/-! ## Facades -/

/-- `MemberSlot`: the kind it was described with, and its replica. -/
structure Slot where
  kind : Option MemberKind
  replica : Replica

/-- `ServiceFacade`. -/
structure Facade where
  serviceId : JsString
  address : Option Address
  slots : Table JsString Slot
  descriptions : Table JsString MemberKind

/-- `setDescription(kind)`. -/
def Slot.setDescription (slot : Slot) (serviceId member : JsString) (kind : MemberKind) :
    Except ServiceError Slot :=
  match slot.kind with
  | some current =>
    if current ≠ kind then
      .error (.error (text [JsString.ofAscii "Remote service member ", serviceId,
        JsString.ofAscii ".", member, JsString.ofAscii " changed kind"]))
    else .ok slot
  | none => .ok { slot with kind := some kind }

/-- The members of a snapshot by name. -/
def byName (members : List (MemberSnapshot Op)) : Table JsString (MemberSnapshot Op) :=
  members.map fun m => (m.name, m)

/-- `validateMembers`: the members by name. -/
def validateMembers (members : List (MemberSnapshot Op)) :
    Except ServiceError (Table JsString (MemberSnapshot Op)) :=
  if (members.all fun m => m.name.length ≠ 0) ∧ (members.map MemberSnapshot.name).Nodup then
    .ok (byName members)
  else .error (.error (JsString.ofAscii "Remote service has invalid member descriptions"))

namespace Facade

/-- `new ServiceFacade(serviceId, address, …)`. -/
def empty (serviceId : JsString) (address : Option Address) : Facade := ⟨serviceId, address, [], []⟩

/-- `#slot(member)`: the slot of a member, a new one if there is none. -/
def slot (f : Facade) (member : JsString) : Except ServiceError Slot :=
  match f.slots.get member with
  | some slot => .ok slot
  | none =>
    match f.descriptions.get member with
    | some kind => Slot.setDescription ⟨none, .empty⟩ f.serviceId member kind
    | none => .ok ⟨none, .empty⟩

/-- What `hydrate` and `update` of a slot do: the description, then the replica. -/
def onState (f : Facade) (member : JsString) (action : Replica → Replica × Except ServiceError Unit) :
    Facade × Except ServiceError Unit :=
  match f.slot member with
  | .error e => (f, .error e)
  | .ok slot =>
    match slot.setDescription f.serviceId member .state with
    | .error e => ({ f with slots := f.slots.set member slot }, .error e)
    | .ok slot =>
      let (replica, result) := action slot.replica
      ({ f with slots := f.slots.set member { slot with replica := replica } }, result)

/-- One member of a snapshot being installed. -/
def installMember (f : Facade) : MemberSnapshot Op → Facade × Except ServiceError Unit
  | .state name sequence ops => f.onState name fun r => r.hydrate sequence ops
  | .method name =>
    match f.slots.get name with
    | none => (f, .ok ())
    | some slot =>
      match slot.setDescription f.serviceId name .method with
      | .error e => (f, .error e)
      | .ok slot => ({ f with slots := f.slots.set name slot }, .ok ())

/-- The members of a snapshot one after the other, up to the first throw. -/
def installMembers (f : Facade) : List (MemberSnapshot Op) → Facade × Except ServiceError Unit
  | [] => (f, .ok ())
  | m :: ms =>
    match f.installMember m with
    | (f, .error e) => (f, .error e)
    | (f, .ok ()) => f.installMembers ms

/-- `install(snapshot)`. -/
def install (f : Facade) (snapshot : InstanceSnapshot Op) : Facade × Except ServiceError Unit :=
  if snapshot.address ≠ f.address then
    (f, .error (.error (JsString.ofAscii "Remote service snapshot has the wrong address")))
  else
    match validateMembers snapshot.members with
    | .error e => (f, .error e)
    | .ok members =>
      match f.slots.keys.find? fun name => !members.has name with
      | some name =>
        (f, .error (.remote .serviceMemberNotFound (text [JsString.ofAscii
          "Unknown remote service member ", f.serviceId, JsString.ofAscii ".", name])))
      | none =>
        { f with descriptions := members.mapValues MemberSnapshot.kind }.installMembers snapshot.members

/-- `update(member, sequence, ops)`. -/
def update (f : Facade) (member : JsString) (sequence : ℕ) (ops : List Op) :
    Facade × Except ServiceError Unit :=
  if f.descriptions.get member ≠ some .state then
    (f, .error (.error (text [JsString.ofAscii "Remote service update targets non-state member ",
      f.serviceId, JsString.ofAscii ".", member])))
  else f.onState member fun r => r.update sequence ops

/-- `clear()`. -/
def clear (f : Facade) : Facade :=
  { f with slots := f.slots.mapValues fun slot => { slot with replica := slot.replica.clear } }

/-- What the replica of a member holds. -/
def held (f : Facade) (member : JsString) : Option (ℕ × Json) :=
  (f.slots.get member).bind fun slot => slot.replica.held

end Facade

/-! ## Bindings -/

/-- Before its snapshot, after it, and after a snapshot it could not install. -/
inductive Status where
  | cold
  | started
  | failed
deriving DecidableEq

/-- A consumer of one subscription, of a singleton service (`facade`) or of a keyed one (`instances`,
by key). `received` counts the updates handled so far, `errors` are the errors reported. -/
structure Consumer where
  facade : Facade
  instances : Table JsString (ℕ × Facade)
  status : Status
  received : ℕ
  errors : List ServiceError

namespace Consumer

/-- A consumer that has not yet got its snapshot. -/
def cold (serviceId : JsString) : Consumer := ⟨.empty serviceId none, [], .cold, 0, []⟩

/-- `#reportError`. -/
def report (c : Consumer) : Except ServiceError Unit → Consumer
  | .ok () => c
  | .error e => { c with errors := c.errors ++ [e] }

/-- `InstanceDirectory.replace` of an entry. -/
def replaceInstance (c : Consumer) (address : Address) (facade : Facade) :
    Consumer × Except ServiceError Unit :=
  match c.instances.get address.key with
  | none => ({ c with instances := c.instances.set address.key (address.generation, facade) }, .ok ())
  | some previous =>
    if previous.1 = address.generation then
      (c, .error (.error (JsString.ofAscii "Keyed service repeated a live generation")))
    else
      ({ c with instances :=
          (c.instances.erase address.key).set address.key (address.generation, facade) }, .ok ())

/-- `KeyedBinding.#spawn`. -/
def spawn (c : Consumer) (snapshot : InstanceSnapshot Op) : Consumer × Except ServiceError Unit :=
  match snapshot.address with
  | none => (c, .error (.error (JsString.ofAscii "Keyed service instance snapshot has no address")))
  | some address =>
    match (Facade.empty c.facade.serviceId (some address)).install snapshot with
    | (_, .error e) => (c, .error e)
    | (facade, .ok ()) => c.replaceInstance address facade

/-- The instances of a keyed snapshot one after the other, up to the first throw. -/
def spawnAll (c : Consumer) : List (InstanceSnapshot Op) → Consumer × Except ServiceError Unit
  | [] => (c, .ok ())
  | snapshot :: snapshots =>
    match c.spawn snapshot with
    | (c, .error e) => (c, .error e)
    | (c, .ok ()) => c.spawnAll snapshots

/-- The snapshot, in `#startSingleton` and in `KeyedBinding.#start`. -/
def installSnapshot (c : Consumer) (mode : Mode) (snapshot : SubscriptionSnapshot Op) :
    Consumer × Except ServiceError Unit :=
  match mode with
  | .singleton =>
    match snapshot.instances with
    | [i] =>
      if snapshot.mode ≠ .singleton ∨ snapshot.serviceId ≠ c.facade.serviceId then (c, .error invalid)
      else
        let (facade, result) := c.facade.install i
        ({ c with facade := facade }, result)
    | _ => (c, .error invalid)
  | .keyed =>
    if snapshot.mode ≠ .keyed ∨ snapshot.serviceId ≠ c.facade.serviceId then
      (c, .error (.error (text [JsString.ofAscii "Remote service ", c.facade.serviceId,
        JsString.ofAscii " returned the wrong keyed snapshot"])))
    else c.spawnAll snapshot.instances
where
  invalid : ServiceError := .error (text [JsString.ofAscii "Remote service ", c.facade.serviceId,
    JsString.ofAscii " returned an invalid singleton snapshot"])

/-- The snapshot arrives. The subscription is activated once it is installed. -/
def start (c : Consumer) (mode : Mode) (snapshot : SubscriptionSnapshot Op) : Consumer :=
  if c.status ≠ .cold then c
  else
    match c.installSnapshot mode snapshot with
    | (c, .ok ()) => { c with status := .started }
    | (c, .error e) => { c.report (.error e) with status := .failed }

/-- The listener of `#startSingleton`. -/
def handleSingleton (c : Consumer) : Update Op → Consumer × Except ServiceError Unit
  | .unavailable => ({ c with facade := c.facade.clear }, .ok ())
  | .replaced snapshot =>
    if snapshot.address ≠ none then
      (c, .error (.error (JsString.ofAscii "Singleton replacement has an instance address")))
    else
      let (facade, result) := c.facade.install snapshot
      ({ c with facade := facade }, result)
  | .state none member sequence ops =>
    let (facade, result) := c.facade.update member sequence ops
    ({ c with facade := facade }, result)
  | _ => (c, .ok ())

/-- `KeyedBinding.#update`. -/
def handleKeyed (c : Consumer) : Update Op → Consumer × Except ServiceError Unit
  | .unavailable =>
    (c, .error (.error (JsString.ofAscii "Keyed service received a singleton lifecycle update")))
  | .replaced _ =>
    (c, .error (.error (JsString.ofAscii "Keyed service received a singleton lifecycle update")))
  | .spawned snapshot => c.spawn snapshot
  | .closed address =>
    match c.instances.get address.key with
    | some (generation, _) =>
      if generation = address.generation then
        ({ c with instances := c.instances.erase address.key }, .ok ())
      else (c, .ok ())
    | none => (c, .ok ())
  | .state none _ _ _ =>
    (c, .error (.error (JsString.ofAscii "Keyed state update has no instance address")))
  | .state (some address) member sequence ops =>
    match c.instances.get address.key with
    | some (generation, facade) =>
      if generation ≠ address.generation then (c, .ok ())
      else
        let (facade, result) := facade.update member sequence ops
        ({ c with instances := c.instances.set address.key (generation, facade) }, result)
    | none => (c, .ok ())

/-- One update from the transport. What its handling throws is reported. -/
def receive (c : Consumer) (mode : Mode) (update : Update Op) : Consumer :=
  let (c, result) :=
    match mode with
    | .singleton => c.handleSingleton update
    | .keyed => c.handleKeyed update
  { c.report result with received := c.received + 1 }

/-- What the consumer's replica of a state holds, in a service of that mode. -/
def held (c : Consumer) (mode : Mode) (address : Option Address) (member : JsString) :
    Option (ℕ × Json) :=
  match mode, address with
  | .singleton, none => c.facade.held member
  | .singleton, some _ => none
  | .keyed, none => none
  | .keyed, some address =>
    match c.instances.get address.key with
    | some (generation, facade) => if generation = address.generation then facade.held member else none
    | none => none

end Consumer

end Phi.Services

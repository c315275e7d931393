import Phi.Delta.Apply

/-!
# Service messages

The snapshots and updates a service provider sends to a subscription (`packages/chord/src/types.ts`).
The type of the operations is a parameter: between provider and consumer they are delta ops, on the
wire they are wire ops.
-/

namespace Phi.Services

inductive Mode where
  | singleton
  | keyed
deriving DecidableEq

/-- `ServiceInstanceAddress`: one incarnation of a keyed instance. -/
@[ext] structure Address where
  key : JsString
  generation : ℕ
deriving DecidableEq

inductive MemberKind where
  | method
  | state
deriving DecidableEq

/-- `ServiceMemberSnapshot`. -/
inductive MemberSnapshot (ω : Type) where
  | method (name : JsString)
  | state (name : JsString) (sequence : ℕ) (ops : List ω)

/-- `ServiceInstanceSnapshot`; a singleton has no address. -/
structure InstanceSnapshot (ω : Type) where
  address : Option Address
  members : List (MemberSnapshot ω)

/-- `ServiceSubscriptionSnapshot`. -/
structure SubscriptionSnapshot (ω : Type) where
  serviceId : JsString
  mode : Mode
  instances : List (InstanceSnapshot ω)

/-- `ServiceProviderUpdate`. -/
inductive Update (ω : Type) where
  | state (address : Option Address) (member : JsString) (sequence : ℕ) (ops : List ω)
  | unavailable
  | replaced (snapshot : InstanceSnapshot ω)
  | spawned (instance_ : InstanceSnapshot ω)
  | closed (address : Address)

namespace MemberSnapshot

variable {ω : Type}

def name : MemberSnapshot ω → JsString
  | .method name | .state name _ _ => name

def kind : MemberSnapshot ω → MemberKind
  | .method _ => .method
  | .state _ _ _ => .state

end MemberSnapshot

/-! ## Errors -/

/-- `RemoteServiceErrorCode`, the codes thrown by the functions modelled here. -/
inductive ErrorCode where
  | serviceNotFound
  | serviceModeMismatch
  | serviceMemberNotFound
  | serviceMemberMismatch
deriving DecidableEq

/-- What the service functions throw. -/
inductive ServiceError where
  | remote (code : ErrorCode) (message : JsString)
  | typeError (message : JsString)
  | error (message : JsString)
  /-- `Error("Replicated state update sequence has a gap")`. -/
  | gap
  /-- What the listeners of a delivery threw, alone or in an `AggregateError` with this message. -/
  | listeners (message : JsString)
  | delta (error : Delta.DeltaError)

/-- The message of an error, from its pieces. -/
def text (parts : List JsString) : JsString := parts.flatten

end Phi.Services

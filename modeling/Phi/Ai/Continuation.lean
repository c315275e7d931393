import Phi.Ai.Frames
import Phi.Data.Runs

/-!
# Requests that continue a response

Model of `getCachedWebSocketInputDelta`, `buildCachedWebSocketRequestBody` and of what `processWebSocketStream` and its
caller do with the continuation of a cached connection, from `packages/ai/src/api/openai-codex-responses.ts`.

One connection serves one request after another. A request is sent whole, or as what it adds to an earlier response of
the connection. `completed`, `failed` and `sent` record what has happened. `F` is how numbers are written, and `convert`
is what `convertResponsesMessages` makes of the content of a message that it keeps.
-/

namespace Phi.Ai.Continued

/-! ## Requests -/

/-- The members but `input` and `previous_response_id`, in their order, are the rest. -/
structure RequestBody where
  input : Option (List Json)
  previousResponseId : Option JsString := none
  rest : List (JsString × Json)

structure Continuation where
  lastRequestBody : RequestBody
  lastResponseId : JsString
  lastResponseItems : List Json

inductive ResponseStatus where
  | completed
  | incomplete
  | failed
  | cancelled
  | inProgress
  | queued

/-- An answer whose stream has ended with a terminal event. -/
structure Output (C : Type) where
  responseId : Option JsString
  status : Option ResponseStatus
  incompleteReason : Option JsString
  hasToolCall : Bool
  content : C

def mapStopReason (status : Option ResponseStatus) (incompleteReason : Option JsString) : StopReason :=
  match status with
  | none => .stop
  | some .completed => .stop
  | some .incomplete => if incompleteReason = some (JsString.ofAscii "max_output_tokens") then .length else .error
  | some .failed => .error
  | some .cancelled => .error
  | some .inProgress => .stop
  | some .queued => .stop

variable {C : Type}

def Output.stopReason (output : Output C) : StopReason :=
  match mapStopReason output.status output.incompleteReason with
  | .stop => if output.hasToolCall then .toolUse else .stop
  | stopReason => stopReason

/-- `assertSuccessfulOutput` does not throw. -/
def Output.isSuccessful (output : Output C) : Bool :=
  output.stopReason ≠ .pending && output.stopReason ≠ .error && output.stopReason ≠ .aborted

/-- The id is there, and it is not empty. -/
def Output.id? (output : Output C) : Option JsString := output.responseId.filter fun id => !id.isEmpty

def typeOf : Json → Option Json
  | .object entries => Table.get entries (JsString.ofAscii "type")
  | _ => none

def isToolOutput (item : Json) : Bool :=
  match typeOf item with
  | some (.string type) =>
    type = JsString.ofAscii "function_call_output" || type = JsString.ofAscii "custom_tool_call_output"
  | _ => false

/-- A message that has failed is dropped when messages are converted. -/
def responseItems (convert : C → List Json) (output : Output C) : List Json :=
  if output.stopReason = .error ∨ output.stopReason = .aborted then []
  else (convert output.content).filter fun item => !isToolOutput item

variable (F : NumberFormat)

def responseInputsEqual (a b : List Json) : Bool := stringify F (.array a) = stringify F (.array b)

def requestBodiesMatchExceptInput (a b : RequestBody) : Bool :=
  stringify F (.object a.rest) = stringify F (.object b.rest)

def getCachedWebSocketInputDelta (body : RequestBody) (continuation : Continuation) : Option (List Json) :=
  if requestBodiesMatchExceptInput F body continuation.lastRequestBody then
    let currentInput := body.input.getD []
    let baseline := continuation.lastRequestBody.input.getD [] ++ continuation.lastResponseItems
    if currentInput.length < baseline.length then none
    else if responseInputsEqual F (currentInput.take baseline.length) baseline then
      some (currentInput.drop baseline.length)
    else none
  else none

/-- The body that is sent and the continuation that stays. -/
def buildCachedWebSocketRequestBody (continuation : Option Continuation) (body : RequestBody) :
    RequestBody × Option Continuation :=
  match continuation with
  | none => (body, none)
  | some continuation =>
    match getCachedWebSocketInputDelta F body continuation with
    | none => (body, none)
    | some delta =>
      if continuation.lastResponseId = [] then (body, none)
      else
        ({ body with previousResponseId := some continuation.lastResponseId, input := some delta }, some continuation)

/-! ## The connection -/

/-- What comes of a request. -/
inductive Outcome (C : Type) where
  | threw
  /-- The signal is read when the stream has ended and again when the connection has been released. -/
  | ended (aborted abortedLater : Bool) (output : Output C)

structure Request (C : Type) where
  useCachedContext : Bool
  body : RequestBody
  outcome : Outcome C

/-- A body that has been sent, with what had happened on the connection before. -/
structure Sent where
  full : RequestBody
  body : RequestBody
  completed : List Continuation
  failed : Bool

structure Connection where
  continuation : Option Continuation := none
  /-- The connection is in the cache. -/
  cached : Bool := true
  /-- The responses that requests have ended with, where none of them failed. -/
  completed : List Continuation := []
  /-- A request has failed, or it was aborted. -/
  failed : Bool := false
  sent : List Sent := []

/-- The body that a request is sent with. -/
def Request.built (q : Request C) (s : Connection) : RequestBody × Option Continuation :=
  if q.useCachedContext then buildCachedWebSocketRequestBody F s.continuation q.body else (q.body, s.continuation)

/-- What is recorded of an answer. -/
def Request.recorded (convert : C → List Json) (q : Request C) (output : Output C) : Option Continuation :=
  if q.useCachedContext then
    output.id?.map fun id =>
      { lastRequestBody := q.body, lastResponseId := id, lastResponseItems := responseItems convert output }
  else none

/-- `processWebSocketStream`, where the connection is found in the cache. -/
def Connection.step (convert : C → List Json) (s : Connection) (q : Request C) : Option Connection :=
  if s.cached then
    let built := q.built F s
    let sent := s.sent ++ [{ full := q.body, body := built.1, completed := s.completed, failed := s.failed }]
    some (match q.outcome with
      | .threw => { s with continuation := none, cached := false, failed := true, sent }
      | .ended true _ _ => { s with continuation := built.2, cached := false, failed := true, sent }
      | .ended false abortedLater output =>
        { s with
          continuation := (q.recorded convert output).or built.2
          failed := s.failed || abortedLater || !output.isSuccessful
          completed := s.completed ++ if abortedLater || !output.isSuccessful then [] else
            (q.recorded convert output).toList
          sent })
  else none

/-- The body is whole, or it continues a response that a request of the connection has been completed with before; no
request has failed then. -/
def Stands (x : Sent) : Prop :=
  x.body = x.full ∨ x.failed = false ∧ ∃ c ∈ x.completed, x.body.previousResponseId = some c.lastResponseId ∧
    stringify F (.array (c.lastRequestBody.input.getD [] ++ c.lastResponseItems ++ x.body.input.getD [])) =
      stringify F (.array (x.full.input.getD [])) ∧
    x.body.rest = x.full.rest ∧ stringify F (.object x.body.rest) = stringify F (.object c.lastRequestBody.rest)

/-- A request whose stream ends with a terminal event, and is not aborted, succeeds. -/
def EndsWell (q : Request C) : Prop :=
  match q.outcome with
  | .ended false abortedLater output => abortedLater = false ∧ output.isSuccessful = true
  | _ => True

instance (q : Request C) : Decidable (EndsWell q) := by
  unfold EndsWell
  cases q.outcome with
  | threw => infer_instance
  | ended aborted abortedLater output => cases aborted <;> infer_instance

/-! ## Texts of arrays -/

variable {F}

theorem stringifyItems_append (xs ds : List Json) :
    stringifyItems F (xs ++ ds) = (stringifyItems F xs).dropLast ++ stringifyItems F ds := by
  induction xs with
  | nil => simp [stringifyItems]
  | cons x xs ih =>
    have hne : stringifyItems F xs ≠ [] := by cases xs <;> simp [stringifyItems]
    rw [List.cons_append, stringifyItems, ih, stringifyItems, List.dropLast_cons_of_ne_nil (by simp [hne]),
      List.dropLast_append_of_ne_nil hne, List.cons_append, List.append_assoc]

theorem stringify_append {xs : List Json} (h : xs ≠ []) (ds : List Json) :
    stringify F (.array (xs ++ ds)) = (stringify F (.array xs)).dropLast ++ stringifyItems F ds := by
  cases xs with
  | nil => exact absurd rfl h
  | cons x xs =>
    have hne : stringifyItems F xs ≠ [] := by cases xs <;> simp [stringifyItems]
    rw [List.cons_append, stringify, stringifyItems_append, stringify, List.dropLast_cons_of_ne_nil (by simp [hne]),
      List.dropLast_append_of_ne_nil hne, List.cons_append, List.append_assoc]

/-- What follows two arrays of one length and one text makes arrays of one text. -/
theorem stringify_append_congr {xs ys : List Json} (hlength : xs.length = ys.length)
    (h : stringify F (.array xs) = stringify F (.array ys)) (ds : List Json) :
    stringify F (.array (xs ++ ds)) = stringify F (.array (ys ++ ds)) := by
  by_cases hxs : xs = []
  · subst hxs
    rw [List.eq_nil_of_length_eq_zero hlength.symm]
  · have hys : ys ≠ [] := by
      rintro rfl
      exact hxs (List.eq_nil_of_length_eq_zero hlength)
    rw [stringify_append hxs, stringify_append hys, h]

theorem delta_stringify {body : RequestBody} {c : Continuation} {delta : List Json}
    (h : getCachedWebSocketInputDelta F body c = some delta) :
    stringify F (.array (c.lastRequestBody.input.getD [] ++ c.lastResponseItems ++ delta)) =
        stringify F (.array (body.input.getD [])) ∧
      stringify F (.object body.rest) = stringify F (.object c.lastRequestBody.rest) := by
  unfold getCachedWebSocketInputDelta at h
  dsimp only at h
  split at h
  · rename_i hrest
    split at h
    · cases h
    · rename_i hlength
      split at h
      · rename_i hinput
        cases h
        refine ⟨?_, of_decide_eq_true hrest⟩
        have htext := of_decide_eq_true hinput
        have heq := stringify_append_congr (by rw [List.length_take]; omega) htext
          ((body.input.getD []).drop (c.lastRequestBody.input.getD [] ++ c.lastResponseItems).length)
        rw [List.take_append_drop] at heq
        exact heq.symm
      · cases h
  · cases h

/-! ## Runs -/

variable {s s' : Connection} {q : Request C} {convert : C → List Json}

/-- A continuation is one that the connection has been completed with, and the connection leaves the cache when a request
fails. -/
structure Kept (F : NumberFormat) (s : Connection) : Prop where
  mem : ∀ c, s.continuation = some c → c ∈ s.completed
  failed : s.cached = true → s.failed = false
  stands : ∀ x ∈ s.sent, Stands F x

theorem built_cases (F : NumberFormat) (q : Request C) (s : Connection) :
    ((q.built F s).1 = q.body ∧ ((q.built F s).2 = none ∨ (q.built F s).2 = s.continuation)) ∨
    ∃ c delta, s.continuation = some c ∧ getCachedWebSocketInputDelta F q.body c = some delta ∧ q.built F s =
      ({ q.body with previousResponseId := some c.lastResponseId, input := some delta }, some c) := by
  unfold Request.built
  split
  · cases hc : s.continuation with
    | none => exact .inl ⟨rfl, .inl rfl⟩
    | some c =>
      unfold buildCachedWebSocketRequestBody
      dsimp only
      cases hdelta : getCachedWebSocketInputDelta F q.body c with
      | none => exact .inl ⟨rfl, .inl rfl⟩
      | some delta =>
        dsimp only
        split
        · exact .inl ⟨rfl, .inl rfl⟩
        · exact .inr ⟨c, delta, rfl, hdelta, rfl⟩
  · exact .inl ⟨rfl, .inr rfl⟩

/-- What stays of a continuation is the one before. -/
theorem built_continuation {c : Continuation} (h : (q.built F s).2 = some c) : s.continuation = some c := by
  rcases built_cases F q s with ⟨-, hnone | heq⟩ | ⟨c', delta, hc, -, heq⟩
  · rw [hnone] at h
    cases h
  · exact heq.symm.trans h
  · rw [heq] at h
    cases h
    exact hc

theorem Kept.sent (h : Kept F s) (hcached : s.cached = true) (q : Request C) :
    Stands F { full := q.body, body := (q.built F s).1, completed := s.completed, failed := s.failed } := by
  rcases built_cases F q s with ⟨heq, -⟩ | ⟨c, delta, hc, hdelta, heq⟩
  · exact .inl heq
  · rcases delta_stringify hdelta with ⟨htext, hrest⟩
    refine .inr ⟨h.failed hcached, c, h.mem c hc, ?_⟩
    rw [heq]
    exact ⟨rfl, htext, rfl, hrest⟩

theorem Kept.step (h : Kept F s) (ha : EndsWell q) (hs : s.step F convert q = some s') : Kept F s' := by
  unfold Connection.step at hs
  split at hs
  · rename_i hcached
    cases hs
    have hsent : ∀ x ∈ s.sent ++
        [{ full := q.body, body := (q.built F s).1, completed := s.completed, failed := s.failed }], Stands F x := by
      intro x hx
      rcases List.mem_append.mp hx with hx | hx
      · exact h.stands x hx
      · rw [List.mem_singleton.mp hx]
        exact h.sent hcached q
    unfold EndsWell at ha
    cases houtcome : q.outcome with
    | threw =>
      constructor
      case mem => exact fun c hc => nomatch hc
      case failed => exact fun hc => nomatch hc
      case stands => exact hsent
    | ended aborted abortedLater output =>
      rw [houtcome] at ha
      cases aborted with
      | true =>
        constructor
        case mem => exact fun c hc => h.mem c (built_continuation hc)
        case failed => exact fun hc => nomatch hc
        case stands => exact hsent
      | false =>
        rcases ha with ⟨rfl, hsuccess⟩
        dsimp only
        rw [hsuccess]
        constructor
        case mem =>
          intro c hc
          cases hrecorded : q.recorded convert output with
          | none =>
            rw [hrecorded] at hc
            exact List.mem_append_left _ (h.mem c (built_continuation hc))
          | some c' =>
            rw [hrecorded] at hc
            cases hc
            exact List.mem_append_right _ (List.mem_singleton.mpr rfl)
        case failed =>
          intro _
          rw [h.failed hcached]
          rfl
        case stands => exact hsent
  · cases hs

def output (status : ResponseStatus) : Output Unit where
  responseId := some [114]
  status := some status
  incompleteReason := none
  hasToolCall := false
  content := ()

end Phi.Ai.Continued

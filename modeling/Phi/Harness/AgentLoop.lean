import Mathlib

/-!
# The agent loop

`runLoop` of `packages/agent/src/agent-loop.ts` as a machine that moves from one `await` to the next: the answer says
what the awaited call returned, or that it failed. Messages are taken from the user's queues at four places and are
held until the next turn adds them to the context and to the new messages.

What was taken is always what was added and what is held (`Ledger`). So nothing is lost in a run unless a call fails
while messages are held (`runLoop_delivers_iff`), which `prepareNextTurn` can do.
-/

namespace Phi.AgentLoop

inductive StopReason where
  | pending
  | stop
  | length
  | toolUse
  | error
  | aborted
  | deferred
deriving DecidableEq

inductive ThinkingLevel (Level : Type) where
  | off
  | on (level : Level)

variable (Message Model Level Rest : Type)

/-- `rest` is the system prompt and the tools. -/
structure AgentContext where
  messages : List Message
  rest : Rest

/-- The part of the configuration that a turn may change. -/
structure AgentLoopConfig where
  model : Model
  reasoning : Option (ThinkingLevel Level)

structure AgentLoopTurnUpdate where
  context : Option (AgentContext Message Rest) := none
  model : Option Model := none
  thinkingLevel : Option (ThinkingLevel Level) := none

structure CompletedTurn where
  message : Message
  toolResults : List Message

/-- An event of a response. `update` stands for the deltas, `finish` for `done` and `error`. -/
inductive StreamEvent where
  | start (partialMessage : Message)
  | update (partialMessage : Message)
  | finish

/-- The call that is awaited. -/
inductive Awaited where
  | initialSteering
  | prepareNextTurn
  | steeringAfterPreparation
  | turnStart
  /-- `message_start` and `message_end` of the first pending message. -/
  | pendingStart
  | pendingEnd
  | transformContext
  | convertToLlm
  | getApiKey
  | streamFunction
  | event (addedPartial : Bool)
  | partialEmitted (addedPartial : Bool)
  | result (addedPartial : Bool)
  | finalStart (message : Message)
  | finalEnd (message : Message)
  | stoppedTurnEnd
  | toolCalls (message : Message)
  | turnEnd (turn : CompletedTurn Message)
  | shouldStopAfterTurn
  | steeringAfterTurn
  | followUp
  | agentEnd
  | returned
  | failed

/-- What the awaited call returned. `done` is for calls whose value is not kept. -/
inductive Answer where
  | fails
  | done
  | messages (messages : List Message)
  | update (snapshot : Option (AgentLoopTurnUpdate Message Model Level Rest))
  | event (event : StreamEvent Message)
  | result (message : Message)
  | tools (results : List Message) (terminate : Bool)
  | stop (stop : Bool)

/-- Why a message is among the new messages. -/
inductive Origin where
  | prompt
  | queued
  | response
  | toolResult
deriving DecidableEq

/-- `taken` and `added` are the messages that the queues have handed over and those that the loop has pushed to the
context, in order. -/
structure State where
  awaited : Awaited Message
  currentContext : AgentContext Message Rest
  config : AgentLoopConfig Model Level
  newMessages : List (Origin × Message)
  lastCompletedTurn : Option (CompletedTurn Message) := none
  pendingMessages : List Message := []
  hasMoreToolCalls : Bool := true
  taken : List Message := []
  added : List Message := []

variable {Message Model Level Rest}

namespace State

variable (s : State Message Model Level Rest)

def pushContext (message : Message) : State Message Model Level Rest :=
  { s with currentContext := { s.currentContext with messages := s.currentContext.messages ++ [message] } }

/-- `context.messages[context.messages.length - 1] = message`. -/
def replaceLast (message : Message) : State Message Model Level Rest :=
  { s with currentContext :=
      { s.currentContext with messages := s.currentContext.messages.dropLast ++ [message] } }

def take (messages : List Message) : State Message Model Level Rest :=
  { s with pendingMessages := messages, taken := s.taken ++ messages }

/-- The pending messages are injected before the response is streamed. -/
def inject : State Message Model Level Rest :=
  { s with awaited := if s.pendingMessages ≠ [] then .pendingStart else .transformContext }

/-- The first await of a turn. -/
def beginTurn : State Message Model Level Rest :=
  if s.lastCompletedTurn.isSome then { s with awaited := .prepareNextTurn } else s.inject

/-- The condition of the inner loop. -/
def innerLoop : State Message Model Level Rest :=
  if s.hasMoreToolCalls ∨ s.pendingMessages ≠ [] then s.beginTurn else { s with awaited := .followUp }

def applyUpdate (snapshot : AgentLoopTurnUpdate Message Model Level Rest) : State Message Model Level Rest :=
  { s with
    currentContext := snapshot.context.getD s.currentContext
    config :=
      { model := snapshot.model.getD s.config.model
        reasoning :=
          match snapshot.thinkingLevel with
          | none => s.config.reasoning
          | some .off => none
          | some (.on level) => some (.on level) } }

/-- After `prepareNextTurn`: the queue is asked again when the poll before it returned nothing. -/
def prepared : State Message Model Level Rest :=
  { s with awaited := if s.pendingMessages = [] then .steeringAfterPreparation else .turnStart }

/-- The body of the injection loop behind its two events. -/
def addPending (message : Message) (rest : List Message) : State Message Model Level Rest :=
  let s := s.pushContext message
  { s with newMessages := s.newMessages ++ [(Origin.queued, message)], pendingMessages := rest, added := s.added ++ [message] }

end State

section

variable {Call : Type} (stopReason : Message → StopReason) (toolCalls : Message → List Call)

/-- A response has ended. -/
def State.responded (s : State Message Model Level Rest) (message : Message) : State Message Model Level Rest :=
  let s := { s with newMessages := s.newMessages ++ [(Origin.response, message)] }
  if stopReason message = .error ∨ stopReason message = .aborted then { s with awaited := .stoppedTurnEnd }
  else if (toolCalls message).length > 0 then { s with awaited := .toolCalls message, hasMoreToolCalls := false }
  else { s with awaited := .turnEnd ⟨message, []⟩, hasMoreToolCalls := false }

/-- The tool calls of a response have run. Those of a truncated response have failed, and do not end the run. -/
def State.toolsRun (s : State Message Model Level Rest) (message : Message) (results : List Message)
    (terminate : Bool) : State Message Model Level Rest :=
  { s with
    hasMoreToolCalls := if stopReason message = .length then true else !terminate
    currentContext := { s.currentContext with messages := s.currentContext.messages ++ results }
    newMessages := s.newMessages ++ results.map fun result => (Origin.toolResult, result)
    awaited := .turnEnd ⟨message, results⟩ }

/-- From one await to the next. `none`: the call does not return such a value. -/
def step (s : State Message Model Level Rest) :
    Answer Message Model Level Rest → Option (State Message Model Level Rest)
  | .fails =>
    match s.awaited with
    | .returned => none
    | .failed => none
    | _ => some { s with awaited := .failed }
  | .messages messages =>
    match s.awaited with
    | .initialSteering => some (s.take messages).innerLoop
    | .steeringAfterPreparation => some { s.take messages with awaited := .turnStart }
    | .steeringAfterTurn => some (s.take messages).innerLoop
    | .followUp =>
      if messages.length > 0 then some { s.take messages with hasMoreToolCalls := true }.innerLoop
      else some { s with awaited := .agentEnd }
    | _ => none
  | .update snapshot =>
    match s.awaited, snapshot with
    | .prepareNextTurn, some snapshot => some (s.applyUpdate snapshot).prepared
    | .prepareNextTurn, none => some s.prepared
    | _, _ => none
  | .done =>
    match s.awaited with
    | .turnStart => some s.inject
    | .pendingStart => some { s with awaited := .pendingEnd }
    | .pendingEnd =>
      match s.pendingMessages with
      | [] => none
      | message :: rest => some (s.addPending message rest).inject
    | .transformContext => some { s with awaited := .convertToLlm }
    | .convertToLlm => some { s with awaited := .getApiKey }
    | .getApiKey => some { s with awaited := .streamFunction }
    | .streamFunction => some { s with awaited := .event false }
    -- the iteration ends without a last event
    | .event addedPartial => some { s with awaited := .result addedPartial }
    | .partialEmitted addedPartial => some { s with awaited := .event addedPartial }
    | .finalStart message => some { s with awaited := .finalEnd message }
    | .finalEnd message => some (s.responded stopReason toolCalls message)
    | .stoppedTurnEnd => some { s with awaited := .agentEnd }
    | .turnEnd turn => some { s with awaited := .shouldStopAfterTurn, lastCompletedTurn := some turn }
    | .agentEnd => some { s with awaited := .returned }
    | _ => none
  | .event event =>
    match s.awaited, event with
    | .event _, .start partialMessage =>
      some { s.pushContext partialMessage with awaited := .partialEmitted true }
    | .event true, .update partialMessage =>
      some { s.replaceLast partialMessage with awaited := .partialEmitted true }
    | .event false, .update _ => some { s with awaited := .event false }
    | .event addedPartial, .finish => some { s with awaited := .result addedPartial }
    | _, _ => none
  | .result message =>
    match s.awaited with
    | .result true => some { s.replaceLast message with awaited := .finalEnd message }
    | .result false => some { s.pushContext message with awaited := .finalStart message }
    | _ => none
  | .tools results terminate =>
    match s.awaited with
    | .toolCalls message => some (s.toolsRun stopReason message results terminate)
    | _ => none
  | .stop stop =>
    match s.awaited with
    | .shouldStopAfterTurn =>
      if stop then some { s with awaited := .agentEnd } else some { s with awaited := .steeringAfterTurn }
    | _ => none

/-- The state after the answers. -/
def run : State Message Model Level Rest → List (Answer Message Model Level Rest) →
    Option (State Message Model Level Rest)
  | s, [] => some s
  | s, answer :: answers =>
    match step stopReason toolCalls s answer with
    | none => none
    | some s' => run s' answers

end

/-- `runLoop` on a context and on new messages that are the prompts. -/
def start (context : AgentContext Message Rest) (config : AgentLoopConfig Model Level) (prompts : List Message) :
    State Message Model Level Rest :=
  { awaited := .initialSteering, currentContext := context, config := config
    newMessages := prompts.map fun prompt => (Origin.prompt, prompt) }

/-! ## The ledger -/

/-- The new messages that came from the queues. -/
def State.queued (s : State Message Model Level Rest) : List Message :=
  (s.newMessages.filter fun entry => entry.1 = .queued).map Prod.snd

/-- What was taken was added, or is pending; and it was added to the new messages as to the context. -/
structure Books (s : State Message Model Level Rest) : Prop where
  taken : s.taken = s.added ++ s.pendingMessages
  queued : s.queued = s.added

/-- Messages may be pending here. -/
def Awaited.holds : Awaited Message → Bool
  | .prepareNextTurn => true
  | .turnStart => true
  | .pendingStart => true
  | .pendingEnd => true
  | .failed => true
  | _ => false

structure Ledger (s : State Message Model Level Rest) : Prop where
  books : Books s
  pending : s.awaited.holds = false → s.pendingMessages = []

variable {s : State Message Model Level Rest}

theorem Books.take (h : Books s) (hpending : s.pendingMessages = []) (messages : List Message) :
    Books (s.take messages) := by
  refine ⟨?_, h.queued⟩
  have htaken := h.taken
  rw [hpending, List.append_nil] at htaken
  show s.taken ++ messages = s.added ++ messages
  rw [htaken]

/-- Nothing else of the state is in the books. -/
theorem Books.of_eq {s' : State Message Model Level Rest} (h : Books s) (htaken : s'.taken = s.taken)
    (hadded : s'.added = s.added) (hpending : s'.pendingMessages = s.pendingMessages) (hqueued : s'.queued = s.queued) :
    Books s' := by
  refine ⟨?_, ?_⟩
  · rw [htaken, hadded, hpending]
    exact h.taken
  · rw [hqueued, hadded]
    exact h.queued

theorem Books.awaiting (h : Books s) (awaited : Awaited Message) : Books { s with awaited := awaited } :=
  h.of_eq rfl rfl rfl rfl

theorem Books.inject (h : Books s) : Ledger s.inject := by
  refine ⟨h.awaiting _, ?_⟩
  intro hholds
  by_contra hpending
  have hawaited : s.inject.awaited = .pendingStart := if_pos hpending
  rw [hawaited] at hholds
  cases hholds

theorem Books.beginTurn (h : Books s) : Ledger s.beginTurn := by
  rw [State.beginTurn]
  split_ifs
  · exact ⟨h.awaiting _, fun hholds => Bool.noConfusion hholds⟩
  · exact h.inject

theorem Books.innerLoop (h : Books s) : Ledger s.innerLoop := by
  rw [State.innerLoop]
  split_ifs with hmore
  · exact h.beginTurn
  · rw [not_or, not_not] at hmore
    exact ⟨h.awaiting _, fun _ => hmore.2⟩

theorem Books.prepared (h : Books s) : Ledger s.prepared := by
  rw [State.prepared]
  split_ifs with hpending
  · exact ⟨h.awaiting _, fun _ => hpending⟩
  · exact ⟨h.awaiting _, fun hholds => Bool.noConfusion hholds⟩

theorem Books.addPending {message : Message} {rest : List Message} (h : Books s)
    (hpending : s.pendingMessages = message :: rest) : Books (s.addPending message rest) := by
  have htaken := h.taken
  have hqueued := h.queued
  rw [hpending, List.append_cons] at htaken
  refine ⟨htaken, ?_⟩
  rw [State.queued] at hqueued ⊢
  show ((s.newMessages ++ [(Origin.queued, message)]).filter _).map Prod.snd = s.added ++ [message]
  rw [List.filter_append, List.map_append, hqueued]
  rfl

section

variable {Call : Type} {stopReason : Message → StopReason} {toolCalls : Message → List Call}

theorem Books.responded (h : Books s) (hpending : s.pendingMessages = []) (message : Message) :
    Ledger (s.responded stopReason toolCalls message) := by
  have hqueued : ({ s with newMessages := s.newMessages ++ [(Origin.response, message)] } :
      State Message Model Level Rest).queued = s.queued := by
    simp [State.queued]
  have hbooks : Books { s with newMessages := s.newMessages ++ [(Origin.response, message)] } :=
    h.of_eq rfl rfl rfl hqueued
  rw [State.responded]
  dsimp only
  split_ifs
  · exact ⟨hbooks.awaiting _, fun _ => hpending⟩
  · exact ⟨hbooks.of_eq rfl rfl rfl rfl, fun _ => hpending⟩
  · exact ⟨hbooks.of_eq rfl rfl rfl rfl, fun _ => hpending⟩

theorem Books.toolsRun (h : Books s) (message : Message) (results : List Message) (terminate : Bool) :
    Books (s.toolsRun stopReason message results terminate) := by
  refine h.of_eq rfl rfl rfl ?_
  have hresults : (results.map fun result => (Origin.toolResult, result)).filter
      (fun entry => decide (entry.1 = Origin.queued)) = [] := by
    rw [List.filter_eq_nil_iff]
    intro entry hentry
    rcases List.mem_map.mp hentry with ⟨result, -, rfl⟩
    exact Bool.false_ne_true
  show ((s.newMessages ++ results.map fun result => (Origin.toolResult, result)).filter _).map Prod.snd = _
  rw [List.filter_append, hresults, List.append_nil]
  rfl

theorem Ledger.awaiting (h : Ledger s) (hholds : s.awaited.holds = false) (awaited : Awaited Message) :
    Ledger { s with awaited := awaited } :=
  ⟨h.books.awaiting _, fun _ => h.pending hholds⟩

/-- Whatever a call returns, the ledger is kept. -/
theorem Ledger.step (h : Ledger s) {answer : Answer Message Model Level Rest} {s' : State Message Model Level Rest}
    (hstep : step stopReason toolCalls s answer = some s') : Ledger s' := by
  have hbooks := h.books
  cases answer with
  | fails =>
    rw [AgentLoop.step] at hstep
    split at hstep
    · cases hstep
    · cases hstep
    · cases hstep
      exact ⟨hbooks.awaiting _, fun hholds => Bool.noConfusion hholds⟩
  | messages messages =>
    rw [AgentLoop.step] at hstep
    split at hstep
    · next hawaited =>
      cases hstep
      exact (hbooks.take (h.pending (by rw [hawaited]; rfl)) messages).innerLoop
    · next hawaited =>
      cases hstep
      have htaken := hbooks.take (h.pending (by rw [hawaited]; rfl)) messages
      exact ⟨htaken.awaiting _, fun hholds => Bool.noConfusion hholds⟩
    · next hawaited =>
      cases hstep
      exact (hbooks.take (h.pending (by rw [hawaited]; rfl)) messages).innerLoop
    · next hawaited =>
      have hpending := h.pending (by rw [hawaited]; rfl)
      split_ifs at hstep
      · cases hstep
        have htaken : Books { s.take messages with hasMoreToolCalls := true } :=
          (hbooks.take hpending messages).of_eq rfl rfl rfl rfl
        exact htaken.innerLoop
      · cases hstep
        exact ⟨hbooks.awaiting _, fun _ => hpending⟩
    · cases hstep
  | update snapshot =>
    dsimp only [AgentLoop.step] at hstep
    split at hstep
    · next snapshot _ =>
      cases hstep
      have hupdated : Books (s.applyUpdate snapshot) := hbooks.of_eq rfl rfl rfl rfl
      exact hupdated.prepared
    · cases hstep
      exact hbooks.prepared
    · cases hstep
  | done =>
    rw [AgentLoop.step] at hstep
    split at hstep
    · cases hstep
      exact hbooks.inject
    · cases hstep
      exact ⟨hbooks.awaiting _, fun hholds => Bool.noConfusion hholds⟩
    · split at hstep
      · cases hstep
      · next hpending =>
        cases hstep
        exact (hbooks.addPending hpending).inject
    · next hawaited =>
      cases hstep
      exact h.awaiting (by rw [hawaited]; rfl) _
    · next hawaited =>
      cases hstep
      exact h.awaiting (by rw [hawaited]; rfl) _
    · next hawaited =>
      cases hstep
      exact h.awaiting (by rw [hawaited]; rfl) _
    · next hawaited =>
      cases hstep
      exact h.awaiting (by rw [hawaited]; rfl) _
    · next hawaited =>
      cases hstep
      exact h.awaiting (by rw [hawaited]; rfl) _
    · next hawaited =>
      cases hstep
      exact h.awaiting (by rw [hawaited]; rfl) _
    · next hawaited =>
      cases hstep
      exact h.awaiting (by rw [hawaited]; rfl) _
    · next hawaited =>
      cases hstep
      exact hbooks.responded (h.pending (by rw [hawaited]; rfl)) _
    · next hawaited =>
      cases hstep
      exact h.awaiting (by rw [hawaited]; rfl) _
    · next hawaited =>
      cases hstep
      exact ⟨hbooks.of_eq rfl rfl rfl rfl, fun _ => h.pending (by rw [hawaited]; rfl)⟩
    · next hawaited =>
      cases hstep
      exact h.awaiting (by rw [hawaited]; rfl) _
    · cases hstep
  | event event =>
    dsimp only [AgentLoop.step] at hstep
    split at hstep
    · next hawaited =>
      cases hstep
      exact ⟨hbooks.of_eq rfl rfl rfl rfl, fun _ => h.pending (by rw [hawaited]; rfl)⟩
    · next hawaited =>
      cases hstep
      exact ⟨hbooks.of_eq rfl rfl rfl rfl, fun _ => h.pending (by rw [hawaited]; rfl)⟩
    · next hawaited =>
      cases hstep
      exact h.awaiting (by rw [hawaited]; rfl) _
    · next hawaited =>
      cases hstep
      exact h.awaiting (by rw [hawaited]; rfl) _
    · cases hstep
  | result message =>
    rw [AgentLoop.step] at hstep
    split at hstep
    · next hawaited =>
      cases hstep
      exact ⟨hbooks.of_eq rfl rfl rfl rfl, fun _ => h.pending (by rw [hawaited]; rfl)⟩
    · next hawaited =>
      cases hstep
      exact ⟨hbooks.of_eq rfl rfl rfl rfl, fun _ => h.pending (by rw [hawaited]; rfl)⟩
    · cases hstep
  | tools results terminate =>
    rw [AgentLoop.step] at hstep
    split at hstep
    · next hawaited =>
      cases hstep
      exact ⟨hbooks.toolsRun .., fun _ => h.pending (by rw [hawaited]; rfl)⟩
    · cases hstep
  | stop stop =>
    rw [AgentLoop.step] at hstep
    split at hstep
    · next hawaited =>
      have hpending := h.pending (by rw [hawaited]; rfl)
      split_ifs at hstep
      · cases hstep
        exact ⟨hbooks.awaiting _, fun _ => hpending⟩
      · cases hstep
        exact ⟨hbooks.awaiting _, fun _ => hpending⟩
    · cases hstep

/-! ## Runs -/

/-- The loop has returned or thrown. -/
def State.Ended (s : State Message Model Level Rest) : Prop := s.awaited = .returned ∨ s.awaited = .failed

/-- Every message that was taken was added once, to the context and to the new messages, in the order of taking. -/
def State.Delivered (s : State Message Model Level Rest) : Prop := s.added = s.taken ∧ s.queued = s.taken

/-- No call of the run fails while messages are pending. -/
def Careful (stopReason : Message → StopReason) (toolCalls : Message → List Call) :
    State Message Model Level Rest → List (Answer Message Model Level Rest) → Prop
  | _, [] => True
  | s, answer :: answers =>
    (answer = .fails → s.pendingMessages = []) ∧
      ∀ s', step stopReason toolCalls s answer = some s' → Careful stopReason toolCalls s' answers

theorem Ledger.delivered_iff (h : Ledger s) : s.Delivered ↔ s.pendingMessages = [] := by
  rw [State.Delivered, h.books.queued, h.books.taken, and_self]
  constructor
  · intro hadded
    have hlength := congrArg List.length hadded
    rw [List.length_append] at hlength
    exact List.eq_nil_of_length_eq_zero (by omega)
  · intro hpending
    rw [hpending, List.append_nil]

theorem step_of_ended (h : s.Ended) (answer : Answer Message Model Level Rest) :
    step stopReason toolCalls s answer = none := by
  rcases h with h | h
  · cases answer <;> simp [step, h]
  · cases answer <;> simp [step, h]

theorem step_fails (h : ¬s.Ended) : step stopReason toolCalls s .fails = some { s with awaited := .failed } := by
  rw [State.Ended, not_or] at h
  rw [step]
  split
  · next hawaited => exact (h.1 hawaited).elim
  · next hawaited => exact (h.2 hawaited).elim
  · rfl

/-- Only a failing call ends in `failed`. -/
theorem awaited_ne_failed {answer : Answer Message Model Level Rest} (hne : answer ≠ .fails)
    {s' : State Message Model Level Rest} (hstep : step stopReason toolCalls s answer = some s') :
    s'.awaited ≠ .failed := by
  have hinject : ∀ s : State Message Model Level Rest, s.inject.awaited ≠ .failed := by
    intro s
    show (if s.pendingMessages ≠ [] then Awaited.pendingStart else .transformContext) ≠ .failed
    split_ifs <;> exact nofun
  have hbegin : ∀ s : State Message Model Level Rest, s.beginTurn.awaited ≠ .failed := by
    intro s
    rw [State.beginTurn]
    split_ifs
    · exact nofun
    · exact hinject s
  have hinner : ∀ s : State Message Model Level Rest, s.innerLoop.awaited ≠ .failed := by
    intro s
    rw [State.innerLoop]
    split_ifs
    · exact hbegin s
    · exact nofun
  have hprepared : ∀ s : State Message Model Level Rest, s.prepared.awaited ≠ .failed := by
    intro s
    show (if s.pendingMessages = [] then Awaited.steeringAfterPreparation else .turnStart) ≠ .failed
    split_ifs <;> exact nofun
  have hresponded : ∀ message, (s.responded stopReason toolCalls message).awaited ≠ .failed := by
    intro message
    rw [State.responded]
    dsimp only
    split_ifs <;> exact nofun
  cases answer with
  | fails => exact (hne rfl).elim
  | messages messages =>
    dsimp only [step] at hstep
    split at hstep
    · cases hstep
      exact hinner _
    · cases hstep
      exact nofun
    · cases hstep
      exact hinner _
    · split_ifs at hstep
      · cases hstep
        exact hinner _
      · cases hstep
        exact nofun
    · cases hstep
  | update snapshot =>
    dsimp only [step] at hstep
    split at hstep <;> cases hstep <;> exact hprepared _
  | done =>
    dsimp only [step] at hstep
    split at hstep
    case h_1 =>
      cases hstep
      exact hinject s
    case h_3 =>
      split at hstep
      · cases hstep
      · cases hstep
        exact hinject _
    case h_11 =>
      cases hstep
      exact hresponded _
    all_goals cases hstep
    all_goals exact nofun
  | event event =>
    dsimp only [step] at hstep
    split at hstep <;> cases hstep <;> exact nofun
  | result message =>
    dsimp only [step] at hstep
    split at hstep <;> cases hstep <;> exact nofun
  | tools results terminate =>
    dsimp only [step] at hstep
    split at hstep <;> cases hstep
    exact nofun
  | stop stop =>
    dsimp only [step] at hstep
    split at hstep
    · split_ifs at hstep <;> cases hstep <;> exact nofun
    · cases hstep

theorem run_of_ended (h : s.Ended) {answers : List (Answer Message Model Level Rest)}
    {s' : State Message Model Level Rest} (hrun : run stopReason toolCalls s answers = some s') :
    answers = [] ∧ s' = s := by
  cases answers with
  | nil =>
    cases hrun
    exact ⟨rfl, rfl⟩
  | cons answer answers =>
    rw [run, step_of_ended h] at hrun
    cases hrun

theorem Ledger.run (h : Ledger s) (hlive : ¬s.Ended) {answers : List (Answer Message Model Level Rest)}
    {s' : State Message Model Level Rest} (hrun : run stopReason toolCalls s answers = some s') (hended : s'.Ended) :
    s'.Delivered ↔ Careful stopReason toolCalls s answers := by
  induction answers generalizing s with
  | nil =>
    cases hrun
    exact (hlive hended).elim
  | cons answer answers ih =>
    rw [AgentLoop.run] at hrun
    cases hstep : AgentLoop.step stopReason toolCalls s answer with
    | none =>
      rw [hstep] at hrun
      cases hrun
    | some next =>
      rw [hstep] at hrun
      have hnext := h.step hstep
      rw [Careful, hstep]
      simp only [Option.some.injEq, forall_eq']
      by_cases hfails : answer = .fails
      · subst hfails
        rw [step_fails hlive] at hstep
        cases hstep
        rcases run_of_ended (Or.inr rfl) hrun with ⟨rfl, rfl⟩
        rw [hnext.delivered_iff]
        simp [Careful]
      · by_cases hreturned : next.awaited = .returned
        · rcases run_of_ended (Or.inl hreturned) hrun with ⟨rfl, rfl⟩
          rw [hnext.delivered_iff]
          simp [Careful, hfails, hnext.pending (by rw [hreturned]; rfl)]
        · have hlive' : ¬next.Ended := fun h => h.elim hreturned (awaited_ne_failed hfails hstep)
          rw [ih hnext hlive' hrun]
          simp [hfails]

/-- A run of the loop that has ended lost no message exactly when no call failed while messages were pending. -/
theorem runLoop_delivers_iff {Message Model Level Rest Call : Type} (stopReason : Message → StopReason)
    (toolCalls : Message → List Call) (context : AgentContext Message Rest) (config : AgentLoopConfig Model Level)
    (prompts : List Message) (answers : List (Answer Message Model Level Rest)) (s : State Message Model Level Rest)
    (hrun : run stopReason toolCalls (start context config prompts) answers = some s) (hended : s.Ended) :
    s.Delivered ↔ Careful stopReason toolCalls (start context config prompts) answers := by
  have hqueued : (start context config prompts).queued = [] := by
    have hprompts : (prompts.map fun prompt => (Origin.prompt, prompt)).filter
        (fun entry => decide (entry.1 = Origin.queued)) = [] := by
      rw [List.filter_eq_nil_iff]
      intro entry hentry
      rcases List.mem_map.mp hentry with ⟨prompt, -, rfl⟩
      exact Bool.false_ne_true
    show ((prompts.map fun prompt => (Origin.prompt, prompt)).filter _).map Prod.snd = []
    rw [hprompts]
    rfl
  have hstart : Ledger (start context config prompts) := ⟨⟨rfl, hqueued⟩, fun _ => rfl⟩
  exact hstart.run (fun h => h.elim nofun nofun) hrun hended

end

/-- A steering message is injected, and then `transformContext` fails. -/
theorem runLoop_delivers_iff_steering :
    ({ awaited := .failed, currentContext := ⟨[5], ()⟩, config := ⟨(), none⟩, newMessages := [(.queued, 5)]
       taken := [5], added := [5] } : State ℕ Unit Unit Unit).Delivered := by
  refine (runLoop_delivers_iff (fun _ => .stop) (fun _ => ([] : List Unit)) ⟨[], ()⟩ ⟨(), none⟩ []
    [.messages [5], .done, .done, .fails] _ rfl (Or.inr rfl)).mpr ?_
  simp [Careful, step, start, State.take, State.innerLoop, State.beginTurn, State.inject, State.addPending,
    State.pushContext]

/-- A steering message is taken after the turn, and `prepareNextTurn` fails. -/
theorem runLoop_loses_pending :
    ¬∀ (answers : List (Answer ℕ Unit Unit Unit)) (s : State ℕ Unit Unit Unit),
      run (fun _ => .stop) (fun _ => ([] : List Unit)) (start ⟨[], ()⟩ ⟨(), none⟩ []) answers = some s →
        s.Ended → s.Delivered := by
  intro h
  have hdelivered := h
    [.messages [], .done, .done, .done, .done, .event .finish, .result 7, .done, .done, .done, .stop false,
      .messages [5], .fails] _ rfl (Or.inr rfl)
  exact absurd hdelivered.1 (by decide)

end Phi.AgentLoop

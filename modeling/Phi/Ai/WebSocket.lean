import Phi.Data.JsonValue
import Phi.Data.Runs
import Phi.Data.TextDecoder

/-!
# Messages of a WebSocket

Model of `decodeWebSocketData` and `parseWebSocket` of `packages/ai/src/api/openai-codex-responses.ts`.

Every message that arrives starts a task that decodes it. A task may end at any time behind the arrival, and what it
reads is queued for the generator then; a close or an error sets the end at once. The steps of the socket, the tasks, the
abort signal and the consumer of the generator interleave freely. The listeners are added when the generator is first
asked, where a run starts, and the consumer asks until it ends. There is no idle timeout.

`arrived`, `closed` and `troubled` record what has happened. `F` is how numbers are written.
-/

namespace Phi.Ai.WebSocket

/-! ## Messages -/

inductive MessageData where
  | text (text : JsString)
  | buffer (bytes : List UInt8)
  /-- The bytes of a blob cannot always be read. -/
  | blob (bytes : Option (List UInt8))
  | other

/-- An error where the bytes of a blob cannot be read. -/
def decodeWebSocketData : MessageData → Except Unit (Option JsString)
  | .text text => .ok (some text)
  | .buffer bytes => .ok (some (TextDecoder.decode bytes))
  | .blob (some bytes) => .ok (some (TextDecoder.decode bytes))
  | .blob none => .error ()
  | .other => .ok none

/-- What a task comes to. -/
inductive Reading where
  | ignored
  | invalid (payload : Option JsString)
  | parsed (value : Json)

variable (F : NumberFormat)

def read (data : MessageData) : Reading :=
  match decodeWebSocketData data with
  | .error _ => .invalid none
  | .ok none => .ignored
  | .ok (some text) =>
    if text = [] then .ignored
    else
      match parse F text with
      | none => .invalid (some text)
      -- the type of null cannot be read
      | some .null => .invalid (some text)
      | some value => .parsed value

def completionTypes : List JsString :=
  [JsString.ofAscii "response.completed", JsString.ofAscii "response.done", JsString.ofAscii "response.incomplete"]

/-- The value says that the response is completed. -/
def isCompletion : Json → Bool
  | .object entries =>
    match Table.get entries (JsString.ofAscii "type") with
    | some (.string type) => type ∈ completionTypes
    | _ => false
  | _ => false

def valueOf (data : MessageData) : Option Json :=
  match read F data with
  | .parsed value => some value
  | _ => none

/-- The values that messages are decoded to. -/
def valuesOf (messages : List MessageData) : List Json := messages.filterMap (valueOf F)

/-! ## The generator -/

inductive Failure where
  | protocol (payload : Option JsString)
  | socket (message : JsString)
  | closed (code : Option ℕ) (reason : JsString)
  | aborted
  | incomplete

def Failure.message : Failure → Option JsString
  | .protocol _ => none
  | .socket message => some message
  | .closed code reason =>
    let reason := if reason = [] ∧ code = some 1009 then JsString.ofAscii "message too big" else reason
    some (JsString.ofAscii "WebSocket closed" ++ (code.map fun code => 32 :: numberText code).getD []
      ++ if reason = [] then [] else 32 :: reason)
  | .aborted => some (JsString.ofAscii "Request was aborted")
  | .incomplete => some (JsString.ofAscii "WebSocket stream closed before response.completed")

inductive Generator where
  /-- At a `yield`. -/
  | suspended
  | awaiting
  /-- The promise it awaits is resolved. -/
  | woken
  | ended (failure : Option Failure)

def Generator.isEnded : Generator → Bool
  | .ended _ => true
  | _ => false

structure Run where
  queue : List Json := []
  done : Bool := false
  failed : Option Failure := none
  sawCompletion : Bool := false
  aborted : Bool := false
  generator : Generator := .suspended
  /-- The messages that are being decoded, by the places of their arrival. -/
  tasks : List ℕ := []
  arrived : List MessageData := []
  yielded : List Json := []
  closed : Bool := false
  /-- There was an error, an abort, or a message that is not JSON. -/
  troubled : Bool := false

inductive Action where
  | message (data : MessageData)
  | decoded (i : ℕ)
  | error (message : JsString)
  | close (code : Option ℕ) (reason : JsString)
  | abort
  /-- The consumer asks for the next value. -/
  | next
  | resume

namespace Run

def wake (s : Run) : Run :=
  match s.generator with
  | .awaiting => { s with generator := .woken }
  | _ => s

/-- The end of the task of a message. -/
def finishTask (s : Run) : Reading → Run
  | .ignored => s
  | .invalid payload => { s with failed := some (.protocol payload), done := true, troubled := true }.wake
  | .parsed value =>
    { s with
      queue := s.queue ++ [value]
      sawCompletion := s.sawCompletion || isCompletion value
      done := s.done || isCompletion value }.wake

/-- The generator runs up to the next `yield` or `await`, or to its end. -/
def advance (s : Run) : Run :=
  if s.aborted then { s with generator := .ended (some .aborted) }
  else
    match s.queue with
    | value :: queue => { s with queue, yielded := s.yielded ++ [value], generator := .suspended }
    | [] =>
      if s.done then
        { s with generator := .ended (s.failed.or (if s.sawCompletion then none else some .incomplete)) }
      else { s with generator := .awaiting }

/-- The generator is asked for the first value. -/
def start (aborted : Bool) : Run := ({ aborted, troubled := aborted } : Run).advance

/-- The listeners are removed when the generator ends. -/
def step (s : Run) : Action → Option Run
  | .message data =>
    if s.closed then none
    else if s.generator.isEnded then some s
    else some { s with arrived := s.arrived ++ [data], tasks := s.tasks ++ [s.arrived.length] }
  | .decoded i =>
    if i ∈ s.tasks then
      (s.arrived[i]?).map fun data => { s with tasks := s.tasks.erase i }.finishTask (read F data)
    else none
  | .error message =>
    if s.generator.isEnded then some s
    else some { s with failed := some (.socket message), done := true, troubled := true }.wake
  | .close code reason =>
    if s.closed then none
    else if s.generator.isEnded then some s
    else if s.sawCompletion then some { s with done := true, closed := true }.wake
    else some { s with failed := s.failed.or (some (.closed code reason)), done := true, closed := true }.wake
  | .abort =>
    if s.generator.isEnded then some { s with aborted := true }
    else some { s with aborted := true, failed := some .aborted, done := true, troubled := true }.wake
  | .next =>
    match s.generator with
    | .suspended => some s.advance
    | _ => none
  | .resume =>
    match s.generator with
    | .woken => some s.advance
    | _ => none

/-- A consumer that goes on asking, so many times. -/
def drain : ℕ → Run → Run
  | 0, s => s
  | n + 1, s =>
    match s.generator with
    | .suspended => drain n s.advance
    | .woken => drain n s.advance
    | _ => s

end Run

/-! ## In the order of arrival -/

/-- A message completes the response. -/
def completes (data : MessageData) : Bool := (valueOf F data).any isCompletion

/-- A task ends when those of the messages before it have ended, and the socket closes when a message that completes the
response has been decoded, or when there is none. -/
def InOrder (s : Run) : Action → Prop
  | .decoded i => s.tasks.head? = some i
  | .close _ _ => s.sawCompletion = true ∨ ∀ i ∈ s.tasks, (s.arrived[i]?).any (completes F) = false
  | _ => True

instance (s : Run) (a : Action) : Decidable (InOrder F s a) := by
  cases a <;> unfold InOrder <;> infer_instance

/-- A message that completes the response has arrived. -/
def Completed (s : Run) : Prop := ∃ v ∈ valuesOf F s.arrived, isCompletion v = true

instance (s : Run) : Decidable (Completed F s) := by
  unfold Completed
  infer_instance

def isInvalid (data : MessageData) : Bool :=
  match read F data with
  | .invalid _ => true
  | _ => false

/-- No error, abort or message that is not JSON comes together with a message that completes the response, unless the
generator has ended. -/
def Calm (s : Run) : Action → Prop
  | .message data => completes F data = true → s.troubled = false ∨ s.generator.isEnded = true
  | .decoded i => (s.arrived[i]?).any (isInvalid F) = true → ¬Completed F s ∨ s.generator.isEnded = true
  | .error _ => ¬Completed F s ∨ s.generator.isEnded = true
  | .abort => ¬Completed F s ∨ s.generator.isEnded = true
  | _ => True

instance (s : Run) (a : Action) : Decidable (Calm F s a) := by
  cases a <;> unfold Calm <;> infer_instance

/-- The values up to the first that completes the response. -/
def upToCompletion : List Json → List Json
  | [] => []
  | value :: values => if isCompletion value then [value] else value :: upToCompletion values

/-- What is known of a run in order, whatever the generator awaits. -/
structure Known (s : Run) : Prop where
  /-- The messages before some place are decoded, the others are not. -/
  decoded : ∃ d ≤ s.arrived.length, s.tasks = List.range' d (s.arrived.length - d) ∧
    s.yielded ++ s.queue = valuesOf F (s.arrived.take d) ∧
      (s.sawCompletion = true ↔ ∃ v ∈ valuesOf F (s.arrived.take d), isCompletion v = true)
  done_of_completion : s.sawCompletion = true → s.done = true
  done_of_closed : s.closed = true → s.done = true
  done : s.done = true → s.troubled = true ∨ s.sawCompletion = true ∨ s.closed = true
  closed : s.closed = true → (∃ v ∈ valuesOf F s.arrived, isCompletion v = true) → s.sawCompletion = true
  failed : s.failed ≠ none → s.troubled = true ∨ (s.closed = true ∧ ¬∃ v ∈ valuesOf F s.arrived, isCompletion v = true)
  aborted : s.aborted = true → s.troubled = true ∨ s.generator.isEnded = true
  ended : ∀ e, s.generator = .ended e → s.troubled = true ∨ (e = none ∧ ∃ v ∈ s.yielded, isCompletion v = true) ∨
    (s.closed = true ∧ ¬∃ v ∈ valuesOf F s.arrived, isCompletion v = true)

structure Ordered (s : Run) : Prop extends Known F s where
  awaiting : s.generator = .awaiting → s.queue = [] ∧ s.done = false

variable {F} {s s' : Run}

theorem wake_generator (s : Run) :
    s.wake.generator ≠ .awaiting ∧ (∀ e, s.wake.generator = .ended e ↔ s.generator = .ended e) ∧
      s.wake.generator.isEnded = s.generator.isEnded := by
  unfold Run.wake
  cases hg : s.generator <;> simp [hg, Generator.isEnded]

/-- Waking the generator changes nothing else. -/
theorem wake_eq (s : Run) : s.wake = { s with generator := s.wake.generator } := by
  unfold Run.wake
  cases hg : s.generator <;> simp

theorem Known.wake (h : Known F s) : Ordered F s.wake := by
  rcases wake_generator s with ⟨hawaiting, hended, hisEnded⟩
  rw [wake_eq]
  refine ⟨⟨h.decoded, h.done_of_completion, h.done_of_closed, h.done, h.closed, h.failed, ?_, ?_⟩, ?_⟩
  · show s.aborted = true → s.troubled = true ∨ s.wake.generator.isEnded = true
    rw [hisEnded]
    exact h.aborted
  · intro e he
    exact h.ended e ((hended e).mp he)
  · exact fun hg => absurd hg hawaiting

/-! ## Steps -/

theorem valuesOf_append (a b : List MessageData) : valuesOf F (a ++ b) = valuesOf F a ++ valuesOf F b :=
  List.filterMap_append

theorem Ordered.message (h : Ordered F s) (data : MessageData) (hopen : s.closed = false)
    (hrunning : s.generator.isEnded = false) :
    Ordered F { s with arrived := s.arrived ++ [data], tasks := s.tasks ++ [s.arrived.length] } := by
  rcases h.decoded with ⟨d, hd, htasks, hvalues, hsaw⟩
  have htake : (s.arrived ++ [data]).take d = s.arrived.take d := List.take_append_of_le_length hd
  constructor
  case toKnown =>
    constructor
    case decoded =>
      refine ⟨d, by simp; omega, ?_, ?_, ?_⟩
      · show s.tasks ++ [s.arrived.length] = _
        rw [htasks, List.length_append, List.length_singleton, show s.arrived.length + 1 - d = s.arrived.length - d + 1 by
          omega, List.range'_concat]
        simp only [one_mul, Nat.add_sub_cancel' hd]
      · rw [htake]
        exact hvalues
      · rw [htake]
        exact hsaw
    case done_of_completion => exact h.done_of_completion
    case done_of_closed => exact h.done_of_closed
    case done => exact h.done
    case closed => exact fun hclosed => absurd (hopen.symm.trans hclosed) Bool.false_ne_true
    case failed =>
      intro hfailed
      rcases h.failed hfailed with htroubled | ⟨hclosed, -⟩
      · exact .inl htroubled
      · exact absurd (hopen.symm.trans hclosed) Bool.false_ne_true
    case aborted => exact h.aborted
    case ended =>
      intro e he
      have he : s.generator = .ended e := he
      rw [he] at hrunning
      cases hrunning
  case awaiting => exact h.awaiting

/-- A failure or an end that is set keeps what is known, if something else has happened to account for it. -/
theorem Ordered.trouble (h : Ordered F s) (failed : Option Failure) (aborted : Bool) :
    Ordered F { s with failed := failed, done := true, troubled := true, aborted := aborted }.wake := by
  apply Known.wake
  constructor
  case decoded => exact h.decoded
  case done_of_completion => exact fun _ => rfl
  case done_of_closed => exact fun _ => rfl
  case done => exact fun _ => .inl rfl
  case closed => exact h.closed
  case failed => exact fun _ => .inl rfl
  case aborted => exact fun _ => .inl rfl
  case ended => exact fun _ _ => .inl rfl

/-- When the socket closes, a message that completes the response has been decoded, or there is none. -/
theorem Ordered.completion_of_close (h : Ordered F s)
    (hclose : s.sawCompletion = true ∨ ∀ i ∈ s.tasks, (s.arrived[i]?).any (completes F) = false)
    (hex : ∃ v ∈ valuesOf F s.arrived, isCompletion v = true) : s.sawCompletion = true := by
  rcases hclose with hsaw | hnone
  · exact hsaw
  · rcases h.decoded with ⟨d, hd, htasks, -, hsaw⟩
    rcases hex with ⟨v, hv, hcompletion⟩
    rw [← List.take_append_drop d s.arrived, valuesOf_append] at hv
    rcases List.mem_append.mp hv with hv | hv
    · exact hsaw.mpr ⟨v, hv, hcompletion⟩
    · rcases List.mem_filterMap.mp hv with ⟨data, hdata, hvalue⟩
      rcases List.mem_iff_getElem?.mp hdata with ⟨i, hi⟩
      rw [List.getElem?_drop] at hi
      have hlt := (List.getElem?_eq_some_iff.mp hi).1
      have hmem : d + i ∈ s.tasks := by
        rw [htasks, List.mem_range'_1]
        omega
      have hno := hnone _ hmem
      rw [hi, Option.any_some, completes, hvalue, Option.any_some, hcompletion] at hno
      cases hno

theorem Ordered.close (h : Ordered F s) (failed : Option Failure)
    (hclose : s.sawCompletion = true ∨ ∀ i ∈ s.tasks, (s.arrived[i]?).any (completes F) = false)
    (hrunning : s.generator.isEnded = false) (hfailed : s.sawCompletion = true → failed = s.failed) :
    Ordered F { s with failed := failed, done := true, closed := true }.wake := by
  apply Known.wake
  constructor
  case decoded => exact h.decoded
  case done_of_completion => exact fun _ => rfl
  case done_of_closed => exact fun _ => rfl
  case done => exact fun _ => .inr (.inr rfl)
  case closed => exact fun _ => h.completion_of_close hclose
  case failed =>
    intro hne
    by_cases hex : ∃ v ∈ valuesOf F s.arrived, isCompletion v = true
    · have hsaw := h.completion_of_close hclose hex
      rcases h.failed (by rw [← hfailed hsaw]; exact hne) with htroubled | ⟨-, hno⟩
      · exact .inl htroubled
      · exact absurd hex hno
    · exact .inr ⟨rfl, hex⟩
  case aborted => exact h.aborted
  case ended =>
    intro e he
    have he : s.generator = .ended e := he
    rw [he] at hrunning
    cases hrunning

/-- The first of the tasks ends. -/
theorem Ordered.finishTask (h : Ordered F s) {i : ℕ} {data : MessageData} (hi : s.tasks.head? = some i)
    (hdata : s.arrived[i]? = some data) : Ordered F ({ s with tasks := s.tasks.erase i }.finishTask (read F data)) := by
  rcases h.decoded with ⟨d, hd, htasks, hvalues, hsaw⟩
  have hpos : 0 < s.arrived.length - d := by
    rw [Nat.pos_iff_ne_zero]
    intro hzero
    rw [htasks, hzero] at hi
    cases hi
  rcases Nat.exists_eq_succ_of_ne_zero hpos.ne' with ⟨n, hn⟩
  rw [htasks, hn, List.range'_succ, List.head?_cons] at hi
  obtain rfl : i = d := (Option.some.inj hi).symm
  have herase : s.tasks.erase i = List.range' (i + 1) (s.arrived.length - (i + 1)) := by
    rw [htasks, hn, List.range'_succ, List.erase_cons_head]
    congr 1
    omega
  have hle : i + 1 ≤ s.arrived.length := by omega
  have htake : s.arrived.take (i + 1) = s.arrived.take i ++ [data] := by
    rw [List.take_add_one, hdata]
    rfl
  have hvaluesOf : valuesOf F (s.arrived.take (i + 1)) = valuesOf F (s.arrived.take i) ++ (valueOf F data).toList := by
    rw [htake, valuesOf_append]
    simp only [valuesOf, List.filterMap_cons, List.filterMap_nil]
    cases valueOf F data <;> rfl
  cases hread : read F data with
  | ignored =>
    have hnone : valueOf F data = none := by rw [valueOf, hread]
    rw [hnone, Option.toList_none, List.append_nil] at hvaluesOf
    show Ordered F { s with tasks := s.tasks.erase i }
    refine ⟨⟨⟨i + 1, hle, herase, ?_, ?_⟩, h.done_of_completion, h.done_of_closed, h.done, h.closed, h.failed,
      h.aborted, h.ended⟩, h.awaiting⟩
    · rw [hvaluesOf]
      exact hvalues
    · rw [hvaluesOf]
      exact hsaw
  | invalid payload =>
    have hnone : valueOf F data = none := by rw [valueOf, hread]
    rw [hnone, Option.toList_none, List.append_nil] at hvaluesOf
    apply Known.wake
    refine ⟨⟨i + 1, hle, herase, ?_, ?_⟩, fun _ => rfl, fun _ => rfl, fun _ => .inl rfl, h.closed, fun _ => .inl rfl,
      fun _ => .inl rfl, fun _ _ => .inl rfl⟩
    · rw [hvaluesOf]
      exact hvalues
    · rw [hvaluesOf]
      exact hsaw
  | parsed value =>
    have hsome : valueOf F data = some value := by rw [valueOf, hread]
    rw [hsome, Option.toList_some] at hvaluesOf
    have hmem : value ∈ valuesOf F s.arrived := by
      rw [← List.take_append_drop (i + 1) s.arrived, valuesOf_append, hvaluesOf]
      simp
    apply Known.wake
    constructor
    case decoded =>
      refine ⟨i + 1, hle, herase, ?_, ?_⟩
      · show s.yielded ++ (s.queue ++ [value]) = _
        rw [hvaluesOf, ← hvalues, List.append_assoc]
      · rw [hvaluesOf, Bool.or_eq_true, hsaw]
        simp only [List.mem_append, List.mem_singleton, or_and_right, exists_or, exists_eq_left]
    case done_of_completion =>
      intro hcompletion
      rw [Bool.or_eq_true] at hcompletion ⊢
      exact hcompletion.imp_left h.done_of_completion
    case done_of_closed =>
      intro hclosed
      rw [Bool.or_eq_true]
      exact .inl (h.done_of_closed hclosed)
    case done =>
      intro hdone
      rw [Bool.or_eq_true] at hdone
      rcases hdone with hdone | hcompletion
      · rcases h.done hdone with htroubled | hsaw | hclosed
        · exact .inl htroubled
        · exact .inr (.inl (by rw [Bool.or_eq_true]; exact .inl hsaw))
        · exact .inr (.inr hclosed)
      · exact .inr (.inl (by rw [Bool.or_eq_true]; exact .inr hcompletion))
    case closed =>
      intro hclosed hex
      rw [Bool.or_eq_true]
      exact .inl (h.closed hclosed hex)
    case failed => exact h.failed
    case aborted => exact h.aborted
    case ended => exact h.ended

/-- The generator goes on. -/
theorem Ordered.advance (h : Ordered F s) (hrunning : s.generator.isEnded = false) : Ordered F s.advance := by
  unfold Run.advance
  have hnotEnded : ∀ {P : Prop} (e : Option Failure), s.generator = .ended e → P := by
    intro P e he
    rw [he] at hrunning
    cases hrunning
  split
  · rename_i haborted
    have htroubled : s.troubled = true := (h.aborted haborted).resolve_right (by rw [hrunning]; exact Bool.false_ne_true)
    exact ⟨⟨h.decoded, h.done_of_completion, h.done_of_closed, h.done, h.closed, h.failed, fun _ => .inl htroubled,
      fun _ _ => .inl htroubled⟩, fun hg => nomatch hg⟩
  · rename_i haborted
    rcases h.decoded with ⟨d, hd, htasks, hvalues, hsaw⟩
    cases hq : s.queue with
    | cons value queue =>
      refine ⟨⟨⟨d, hd, htasks, ?_, hsaw⟩, h.done_of_completion, h.done_of_closed, h.done, h.closed, h.failed,
        fun hab => absurd hab haborted, fun _ he => nomatch he⟩, fun hg => nomatch hg⟩
      show s.yielded ++ [value] ++ queue = _
      rw [← hvalues, hq, List.append_assoc]
      rfl
    | nil =>
      dsimp only
      split
      · rename_i hdone
        refine ⟨⟨⟨d, hd, htasks, by rw [← hvalues, hq], hsaw⟩, h.done_of_completion, h.done_of_closed, h.done, h.closed,
          h.failed, fun hab => absurd hab haborted, ?_⟩, fun hg => nomatch hg⟩
        rintro e ⟨⟩
        show s.troubled = true ∨ (_ ∧ ∃ v ∈ s.yielded, isCompletion v = true) ∨ _
        by_cases htroubled : s.troubled = true
        · exact .inl htroubled
        by_cases hno : s.closed = true ∧ ¬∃ v ∈ valuesOf F s.arrived, isCompletion v = true
        · exact .inr (.inr hno)
        -- nothing but a message that completes the response has set the end
        have hfailed : s.failed = none := by
          by_contra hne
          exact (h.failed hne).elim htroubled hno
        have hcompletion : s.sawCompletion = true := by
          rcases h.done hdone with ht | hc | hclosed
          · exact absurd ht htroubled
          · exact hc
          · apply h.closed hclosed
            by_contra hex
            exact hno ⟨hclosed, hex⟩
        refine .inr (.inl ⟨?_, ?_⟩)
        · rw [hfailed, hcompletion]
          rfl
        · have hall := hsaw.mp hcompletion
          rw [← hvalues, hq, List.append_nil] at hall
          exact hall
      · rename_i hdone
        exact ⟨⟨⟨d, hd, htasks, by rw [← hvalues, hq], hsaw⟩, h.done_of_completion, h.done_of_closed, h.done, h.closed,
          h.failed, fun hab => absurd hab haborted, fun _ he => nomatch he⟩,
          fun _ => ⟨rfl, Bool.eq_false_of_not_eq_true hdone⟩⟩

theorem ordered_start (aborted : Bool) : Ordered F (Run.start aborted) := by
  have h : Ordered F { aborted, troubled := aborted } :=
    { decoded := ⟨0, le_rfl, rfl, rfl, by simp [valuesOf]⟩
      done_of_completion := fun h => nomatch h
      done_of_closed := fun h => nomatch h
      done := fun h => nomatch h
      closed := fun h => nomatch h
      failed := fun h => absurd rfl h
      aborted := fun h => .inl h
      ended := fun _ h => nomatch h
      awaiting := fun h => nomatch h }
  exact h.advance rfl

theorem Ordered.step (h : Ordered F s) {a : Action} (ha : InOrder F s a) (hs : s.step F a = some s') : Ordered F s' := by
  cases a with
  | message data =>
    simp only [Run.step, Option.ite_none_left_eq_some] at hs
    rcases hs with ⟨hopen, hs⟩
    split at hs
    · cases hs
      exact h
    · rename_i hrunning
      cases hs
      exact h.message data (Bool.eq_false_of_not_eq_true hopen) (Bool.eq_false_of_not_eq_true hrunning)
  | decoded i =>
    simp only [Run.step, Option.ite_none_right_eq_some, Option.map_eq_some_iff] at hs
    rcases hs with ⟨-, data, hdata, rfl⟩
    exact h.finishTask ha hdata
  | error message =>
    simp only [Run.step] at hs
    split at hs
    · cases hs
      exact h
    · cases hs
      exact h.trouble _ s.aborted
  | close code reason =>
    simp only [Run.step, Option.ite_none_left_eq_some] at hs
    rcases hs with ⟨-, hs⟩
    split at hs
    · cases hs
      exact h
    · rename_i hrunning
      have hrunning := Bool.eq_false_of_not_eq_true hrunning
      split at hs
      · cases hs
        exact h.close s.failed ha hrunning fun _ => rfl
      · rename_i hno
        cases hs
        exact h.close _ ha hrunning fun hsaw => absurd hsaw hno
  | abort =>
    simp only [Run.step] at hs
    split at hs
    · rename_i hended
      cases hs
      exact ⟨⟨h.decoded, h.done_of_completion, h.done_of_closed, h.done, h.closed, h.failed, fun _ => .inr hended,
        h.ended⟩, h.awaiting⟩
    · cases hs
      exact h.trouble _ true
  | next =>
    simp only [Run.step] at hs
    split at hs
    · rename_i hg
      cases hs
      exact h.advance (by rw [hg]; rfl)
    · cases hs
  | resume =>
    simp only [Run.step] at hs
    split at hs
    · rename_i hg
      cases hs
      exact h.advance (by rw [hg]; rfl)
    · cases hs

/-! ## Calm runs -/

/-- A failure does no harm: no message completes the response, or the generator has ended behind one. -/
def Harmless (F : NumberFormat) (s : Run) : Prop :=
  ¬Completed F s ∨ (s.generator = .ended none ∧ ∃ v ∈ s.yielded, isCompletion v = true)

structure Calmed (F : NumberFormat) (s : Run) : Prop extends Ordered F s where
  harmless : s.troubled = true → Harmless F s

/-- A generator that has ended has done so behind a message that completes the response, if one has arrived. -/
theorem Calmed.harmless_of_ended (h : Calmed F s) (hended : s.generator.isEnded = true) : Harmless F s := by
  cases hg : s.generator with
  | ended e =>
    rcases h.ended e hg with htroubled | ⟨rfl, hyielded⟩ | ⟨-, hno⟩
    · exact h.harmless htroubled
    · exact .inr ⟨hg, hyielded⟩
    · exact .inl hno
  | suspended => rw [hg] at hended; cases hended
  | awaiting => rw [hg] at hended; cases hended
  | woken => rw [hg] at hended; cases hended

theorem Harmless.congr (h : Harmless F s) (harrived : s'.arrived = s.arrived) (hyielded : s'.yielded = s.yielded)
    (hgenerator : s.generator = .ended none → s'.generator = .ended none) : Harmless F s' := by
  rcases h with hno | ⟨hended, hv⟩
  · left
    rw [Completed, harrived]
    exact hno
  · right
    rw [hyielded]
    exact ⟨hgenerator hended, hv⟩

theorem Harmless.not_completed (h : Harmless F s) (hrunning : s.generator.isEnded = false) : ¬Completed F s := by
  rcases h with hno | ⟨hended, -⟩
  · exact hno
  · rw [hended] at hrunning
    cases hrunning

theorem Calmed.harmless_of_calm (h : Calmed F s) (hcalm : ¬Completed F s ∨ s.generator.isEnded = true) : Harmless F s :=
  hcalm.elim .inl h.harmless_of_ended

theorem harmless_wake : Harmless F s.wake ↔ Harmless F s := by
  rw [wake_eq]
  unfold Harmless Completed
  rw [(wake_generator s).2.1]

theorem advance_arrived (s : Run) : s.advance.arrived = s.arrived ∧ s.advance.troubled = s.troubled := by
  unfold Run.advance
  split
  · exact ⟨rfl, rfl⟩
  · split
    · exact ⟨rfl, rfl⟩
    · split <;> exact ⟨rfl, rfl⟩

theorem wake_troubled (s : Run) : s.wake.troubled = s.troubled := by rw [wake_eq]

theorem Calmed.advance (h : Calmed F s) (hrunning : s.generator.isEnded = false) : Calmed F s.advance := by
  refine ⟨h.toOrdered.advance hrunning, fun htroubled => .inl ?_⟩
  rw [Completed, (advance_arrived s).1]
  rw [(advance_arrived s).2] at htroubled
  exact (h.harmless htroubled).not_completed hrunning

theorem finishTask_cases (s : Run) (data : MessageData) :
    (isInvalid F data = true ∧ ∃ payload, s.finishTask (read F data) =
      { s with failed := some (.protocol payload), done := true, troubled := true }.wake) ∨
    ∃ s' : Run, (s.finishTask (read F data) = s' ∨ s.finishTask (read F data) = s'.wake) ∧ s'.troubled = s.troubled ∧
      s'.arrived = s.arrived ∧ s'.yielded = s.yielded ∧ s'.generator = s.generator := by
  cases hread : read F data with
  | ignored => exact .inr ⟨s, .inl rfl, rfl, rfl, rfl, rfl⟩
  | invalid payload => exact .inl ⟨by rw [isInvalid, hread], payload, rfl⟩
  | parsed value => exact .inr ⟨_, .inr rfl, rfl, rfl, rfl, rfl⟩

/-- What a calm step leaves of failures. -/
theorem Calmed.harmless_step (h : Calmed F s) {a : Action} (ha : Calm F s a) (hs : s.step F a = some s')
    (htroubled : s'.troubled = true) : Harmless F s' := by
  cases a with
  | message data =>
    simp only [Run.step, Option.ite_none_left_eq_some] at hs
    rcases hs with ⟨-, hs⟩
    split at hs
    · cases hs
      exact h.harmless htroubled
    · rename_i hrunning
      cases hs
      have htroubled : s.troubled = true := htroubled
      have hno := (h.harmless htroubled).not_completed (Bool.eq_false_of_not_eq_true hrunning)
      left
      rintro ⟨v, hv, hcompletion⟩
      have hv : v ∈ valuesOf F (s.arrived ++ [data]) := hv
      rw [valuesOf_append] at hv
      rcases List.mem_append.mp hv with hv | hv
      · exact hno ⟨v, hv, hcompletion⟩
      · rcases List.mem_filterMap.mp hv with ⟨data', hdata', hvalue⟩
        rw [List.mem_singleton.mp hdata'] at hvalue
        have hcompletes : completes F data = true := by
          rw [completes, hvalue]
          exact hcompletion
        rcases ha hcompletes with hcalm | hended
        · rw [hcalm] at htroubled
          cases htroubled
        · exact hrunning hended
  | decoded i =>
    simp only [Run.step, Option.ite_none_right_eq_some, Option.map_eq_some_iff] at hs
    rcases hs with ⟨-, data, hdata, rfl⟩
    rcases @finishTask_cases F { s with tasks := s.tasks.erase i } data with
      ⟨hinvalid, payload, heq⟩ | ⟨t, heq, htt, hta, hty, htg⟩
    · rw [heq, harmless_wake]
      exact (h.harmless_of_calm (ha (by rw [hdata]; exact hinvalid))).congr rfl rfl id
    · have ht : t.troubled = true → Harmless F t := fun ht =>
        (h.harmless (htt.symm.trans ht)).congr hta hty fun hg => htg.trans hg
      rcases heq with heq | heq
      · rw [heq] at htroubled ⊢
        exact ht htroubled
      · rw [heq, wake_troubled] at htroubled
        rw [heq, harmless_wake]
        exact ht htroubled
  | error message =>
    simp only [Run.step] at hs
    split at hs
    · cases hs
      exact h.harmless htroubled
    · cases hs
      rw [harmless_wake]
      exact (h.harmless_of_calm ha).congr rfl rfl id
  | close code reason =>
    simp only [Run.step, Option.ite_none_left_eq_some] at hs
    rcases hs with ⟨-, hs⟩
    split at hs
    · cases hs
      exact h.harmless htroubled
    · split at hs
      · cases hs
        rw [wake_troubled] at htroubled
        rw [harmless_wake]
        exact (h.harmless htroubled).congr rfl rfl id
      · cases hs
        rw [wake_troubled] at htroubled
        rw [harmless_wake]
        exact (h.harmless htroubled).congr rfl rfl id
  | abort =>
    simp only [Run.step] at hs
    split at hs
    · rename_i hended
      cases hs
      exact (h.harmless_of_ended hended).congr rfl rfl id
    · cases hs
      rw [harmless_wake]
      exact (h.harmless_of_calm ha).congr rfl rfl id
  | next =>
    simp only [Run.step] at hs
    split at hs
    · rename_i hg
      cases hs
      exact (h.advance (by rw [hg]; rfl)).harmless htroubled
    · cases hs
  | resume =>
    simp only [Run.step] at hs
    split at hs
    · rename_i hg
      cases hs
      exact (h.advance (by rw [hg]; rfl)).harmless htroubled
    · cases hs

theorem Calmed.step (h : Calmed F s) {a : Action} (hin : InOrder F s a) (hcalm : Calm F s a) (hs : s.step F a = some s') :
    Calmed F s' :=
  ⟨h.toOrdered.step hin hs, h.harmless_step hcalm hs⟩

theorem calmed_start (aborted : Bool) : Calmed F (Run.start aborted) := by
  refine ⟨ordered_start aborted, fun _ => .inl ?_⟩
  rw [Completed, Run.start, (advance_arrived _).1]
  rintro ⟨v, hv, -⟩
  cases hv

/-! ## What is yielded -/

theorem upToCompletion_prefix {values : List Json} :
    ∀ {taken : List Json}, taken <+: values → (∃ v ∈ taken, isCompletion v = true) → upToCompletion values <+: taken := by
  induction values with
  | nil =>
    intro taken _ _
    exact List.nil_prefix
  | cons value values ih =>
    rintro (_ | ⟨first, taken⟩) hprefix ⟨v, hv, hcompletion⟩
    · cases hv
    · rcases List.cons_prefix_cons.mp hprefix with ⟨rfl, hrest⟩
      rw [upToCompletion]
      split
      · exact List.cons_prefix_cons.mpr ⟨rfl, List.nil_prefix⟩
      · rename_i hno
        rcases List.mem_cons.mp hv with rfl | hv
        · exact absurd hcompletion hno
        · exact List.cons_prefix_cons.mpr ⟨rfl, ih hrest ⟨v, hv, hcompletion⟩⟩

/-- The rest of the queue is yielded, and the generator ends. -/
theorem drain_queue {queue : List Json} :
    ∀ {s : Run}, s.queue = queue → s.aborted = false → s.done = true → s.failed = none → s.sawCompletion = true →
      s.generator = .suspended ∨ s.generator = .woken →
      (s.drain (queue.length + 1)).generator = .ended none ∧
        (s.drain (queue.length + 1)).yielded = s.yielded ++ queue := by
  induction queue with
  | nil =>
    intro s hq haborted hdone hfailed hsaw hg
    have hadvance : s.advance = { s with generator := .ended none } := by
      simp only [Run.advance, haborted, hq, hdone, hfailed, hsaw, Bool.false_eq_true, if_false, if_true, Option.none_or]
    have hdrain : s.drain 1 = s.advance := by
      rcases hg with hg | hg <;> simp only [Run.drain, hg]
    rw [List.length_nil, hdrain, hadvance, List.append_nil]
    exact ⟨rfl, rfl⟩
  | cons value queue ih =>
    intro s hq haborted hdone hfailed hsaw hg
    have hadvance : s.advance = { s with queue, yielded := s.yielded ++ [value], generator := .suspended } := by
      simp only [Run.advance, haborted, hq, Bool.false_eq_true, if_false]
    have hdrain : s.drain (queue.length + 1 + 1) = s.advance.drain (queue.length + 1) := by
      rcases hg with hg | hg <;> rw [Run.drain, hg]
    rw [List.length_cons, hdrain, hadvance]
    rcases @ih { s with queue, yielded := s.yielded ++ [value], generator := .suspended } rfl haborted hdone hfailed hsaw
      (.inl rfl) with ⟨hended, hyielded⟩
    refine ⟨hended, ?_⟩
    rw [hyielded, List.append_assoc]
    rfl

/-- The messages are yielded in the order of their arrival. When the socket has closed and a message has completed the
response, the messages up to it are yielded, and the generator ends without a failure. -/
structure KeepsOrder (F : NumberFormat) (s : Run) : Prop where
  prefix_arrived : s.yielded <+: valuesOf F s.arrived
  completes : s.closed = true → Completed F s →
    (s.drain (s.queue.length + 1)).generator = .ended none ∧
      upToCompletion (valuesOf F s.arrived) <+: (s.drain (s.queue.length + 1)).yielded

theorem Calmed.keepsOrder (h : Calmed F s) : KeepsOrder F s := by
  rcases h.decoded with ⟨d, hd, htasks, hvalues, hsaw⟩
  have hdecoded : s.yielded ++ s.queue <+: valuesOf F s.arrived := by
    rw [hvalues, ← List.take_append_drop d s.arrived, valuesOf_append, List.take_append_drop]
    exact List.prefix_append _ _
  refine ⟨(List.prefix_append _ _).trans hdecoded, fun hclosed hcompleted => ?_⟩
  by_cases hended : s.generator.isEnded = true
  · rcases h.harmless_of_ended hended with hno | ⟨hnone, hyielded⟩
    · exact absurd hcompleted hno
    · have hdrain : s.drain (s.queue.length + 1) = s := by rw [Run.drain, hnone]
      rw [hdrain]
      exact ⟨hnone, upToCompletion_prefix ((List.prefix_append _ _).trans hdecoded) hyielded⟩
  · have hcalm : ¬s.troubled = true := fun htroubled =>
      (h.harmless htroubled).not_completed (Bool.eq_false_of_not_eq_true hended) hcompleted
    have hsawCompletion := h.closed hclosed hcompleted
    have haborted : s.aborted = false :=
      Bool.eq_false_of_not_eq_true fun haborted => (h.aborted haborted).elim hcalm hended
    have hfailed : s.failed = none := by
      by_contra hne
      exact (h.failed hne).elim hcalm fun hno => hno.2 hcompleted
    have hdone := h.done_of_closed hclosed
    have hg : s.generator = .suspended ∨ s.generator = .woken := by
      cases hg : s.generator with
      | suspended => exact .inl rfl
      | woken => exact .inr rfl
      | awaiting =>
        have := (h.awaiting hg).2
        rw [hdone] at this
        cases this
      | ended e =>
        rw [hg] at hended
        exact absurd rfl hended
    rcases drain_queue rfl haborted hdone hfailed hsawCompletion hg with ⟨hnone, hyielded⟩
    refine ⟨hnone, ?_⟩
    rw [hyielded]
    apply upToCompletion_prefix hdecoded
    rw [hvalues]
    exact hsaw.mp hsawCompletion

theorem keepsOrder_of_reaches (aborted : Bool) (s : Run)
    (h : Reaches (Run.step F) (fun s a => InOrder F s a ∧ Calm F s a) (Run.start aborted) s) : KeepsOrder F s :=
  (h.invariant (calmed_start aborted) fun _ _ _ hs ha hstep => hs.step ha.1 ha.2 hstep).keepsOrder

theorem read_stringify (F : NumberFormat) {v : Json} (hv : v.Enumerated) (hnull : v ≠ .null) :
    read F (.text (stringify F v)) = .parsed v := by
  have hne : stringify F v ≠ [] := List.ne_nil_of_length_pos (stringify_length_pos F v)
  unfold read decodeWebSocketData
  dsimp only
  rw [if_neg hne, parse_stringify F hv]
  cases v with
  | null => exact absurd rfl hnull
  | bool _ => rfl
  | number _ => rfl
  | string _ => rfl
  | array _ => rfl
  | object _ => rfl

def completedValue : Json := .object [(JsString.ofAscii "type", .string (JsString.ofAscii "response.done"))]

theorem read_completed (F : NumberFormat) : read F (.text (stringify F completedValue)) = .parsed completedValue :=
  read_stringify F (.object (by simp [Table.keys]) (by simpa using .string _)) (by simp [completedValue])

theorem isCompletion_completedValue : isCompletion completedValue = true := by decide

/-- A blob that is decoded to an empty array. -/
def emptyBlob : MessageData := .blob (some [91, 93])

theorem read_emptyBlob (F : NumberFormat) : read F emptyBlob = .parsed (.array []) := by
  have : decodeWebSocketData emptyBlob = .ok (some (stringify F (.array []))) := by rfl
  have henumerated : Json.Enumerated (.array []) := .array (by simp)
  have hread := read_stringify F henumerated (by simp)
  unfold read at hread ⊢
  rw [this]
  exact hread

/-- An empty array in a blob and the end of the response. -/
def calmRun (F : NumberFormat) : List Action :=
  [.message emptyBlob, .message (.text (stringify F completedValue)), .decoded 0, .decoded 1, .close (some 1000) [],
    .resume, .next, .next]

theorem keepsOrder_of_reaches_calmRun : ∃ s, KeepsOrder .fractions s ∧ s.generator.isEnded = true ∧
    s.yielded.length = 2 := by
  obtain ⟨s, hs, hended, hlength⟩ : ∃ s, (calmRun .fractions).foldlM (fun s a =>
      if InOrder .fractions s a ∧ Calm .fractions s a then s.step .fractions a else none) (Run.start false) = some s ∧
      s.generator.isEnded = true ∧ s.yielded.length = 2 := by
    simp [calmRun, Run.start, Run.advance, Run.step, InOrder, Calm, Run.finishTask, Run.wake, Generator.isEnded,
      read_emptyBlob, read_completed, isInvalid, completes, valueOf, isCompletion_completedValue]
  exact ⟨s, keepsOrder_of_reaches false s (.of_foldlM_allowed hs), hended, hlength⟩

/-- The end of the response in a blob. -/
def completedBlob : MessageData := .blob (some ((stringify .fractions completedValue).map UInt16.toUInt8))

theorem read_completedBlob : read .fractions completedBlob = .parsed completedValue := by
  have hdecode : decodeWebSocketData completedBlob = .ok (some (stringify .fractions completedValue)) := by decide +kernel
  have hread := read_completed .fractions
  unfold read at hread ⊢
  rw [hdecode]
  exact hread

/-- A text overtakes the blob before it, and the close overtakes a blob that completes the response. -/
theorem order_lost :
    (∃ s, Reaches (Run.step .fractions) (fun _ _ => True) (Run.start false) s ∧ s.troubled = false ∧
      ¬s.yielded <+: valuesOf .fractions s.arrived) ∧
    ∃ s, Reaches (Run.step .fractions) (fun _ _ => True) (Run.start false) s ∧ s.troubled = false ∧ s.closed = true ∧
      Completed .fractions s ∧ s.generator = .ended (some (.closed (some 1000) [])) := by
  have hne : completedValue ≠ .array [] := by simp [completedValue]
  constructor
  · obtain ⟨s, hs, htroubled, hno⟩ : ∃ s, [.message emptyBlob, .message (.text (stringify .fractions completedValue)),
        .decoded 1, .resume].foldlM (Run.step .fractions) (Run.start false) = some s ∧ s.troubled = false ∧
        ¬s.yielded <+: valuesOf .fractions s.arrived := by
      simp [Run.start, Run.advance, Run.step, Run.finishTask, Run.wake, Generator.isEnded, read_emptyBlob, read_completed,
        valuesOf, valueOf, isCompletion_completedValue, List.cons_prefix_cons, hne]
    exact ⟨s, .of_foldlM hs, htroubled, hno⟩
  · obtain ⟨s, hs, hrest⟩ : ∃ s, [.message completedBlob, .close (some 1000) [], .resume].foldlM (Run.step .fractions)
        (Run.start false) = some s ∧ s.troubled = false ∧ s.closed = true ∧ Completed .fractions s ∧
        s.generator = .ended (some (.closed (some 1000) [])) := by
      simp [Run.start, Run.advance, Run.step, Run.wake, Generator.isEnded, read_completedBlob, Completed, valuesOf, valueOf,
        isCompletion_completedValue]
    exact ⟨s, .of_foldlM hs, hrest⟩

end Phi.Ai.WebSocket

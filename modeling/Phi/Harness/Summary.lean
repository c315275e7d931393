import Mathlib.Data.Rat.Floor
import Phi.Data.Ascii
import Phi.Harness.Compaction

/-!
# The summary of a compaction

Model of `compactWithRequest` of `packages/agent/src/harness/compaction/compaction.ts` and of the two requests it makes,
with `serializeConversation`, `computeFileLists` and `formatFileOperations` of `compaction/utils.ts`, and `convertToLlm`
of `harness/messages.ts`. What the provider answers is a parameter: an answer for each request by its number, or a
failure of the request itself.

The history and the start of a split turn are summarized apart. The summary of the previous compaction goes into the
request for the history, and that request is left out when a split turn has no history in front of it.
-/

namespace Phi.Harness

open Coding (AgentMessage name roleOf isText numberOf)

/-! ## Messages for the model -/

def textOf : Option Json → JsString
  | some (.string text) => text
  | _ => []

def isTruthy : Option Json → Bool
  | none | some .null | some (.bool false) => false
  | some (.number q) => q ≠ 0
  | some (.string text) => text ≠ []
  | some (.bool true) | some (.array _) | some (.object _) => true

/-- Lines with a line break between them. -/
def lines (texts : List String) : JsString := [10].intercalate (texts.map name)

def textBlock (text : JsString) : Json := .object [(name "type", .string (name "text")), (name "text", .string text)]

def compactionSummaryPrefix : JsString :=
  lines ["The conversation history before this point was compacted into the following summary:", "", "<summary>", ""]

def compactionSummarySuffix : JsString := lines ["", "</summary>"]

def branchSummaryPrefix : JsString :=
  lines ["The following is a summary of a branch that this conversation came back from:", "", "<summary>", ""]

def branchSummarySuffix : JsString := lines ["</summary>"]

def bashExecutionToText (F : NumberFormat) (message : AgentMessage) : JsString :=
  let output := textOf (message.get (name "output"))
  let exit :=
    if isTruthy (message.get (name "cancelled")) then lines ["", "", "(command cancelled)"]
    else
      match message.get (name "exitCode") with
      | some (.number code) =>
        if code ≠ 0 then lines ["", "", "Command exited with code "] ++ F.text code else []
      | _ => []
  name "Ran `" ++ textOf (message.get (name "command")) ++ lines ["`", ""]
    ++ (if output ≠ [] then lines ["```", ""] ++ output ++ lines ["", "```"] else name "(no output)")
    ++ exit
    ++ if isTruthy (message.get (name "truncated")) ∧ isTruthy (message.get (name "fullOutputPath")) then
        lines ["", "", "[Output truncated. Full output: "] ++ textOf (message.get (name "fullOutputPath")) ++ name "]"
      else []

def userText (message : AgentMessage) (content : Json) : AgentMessage :=
  [(name "role", .string (name "user")), (name "content", content)]
    ++ optional "timestamp" (message.get (name "timestamp"))

def convertToLlm (F : NumberFormat) (messages : List AgentMessage) : List AgentMessage :=
  messages.filterMap fun message =>
    match roleOf message with
    | some .bashExecution =>
      if isTruthy (message.get (name "excludeFromContext")) then none
      else some (userText message (.array [textBlock (bashExecutionToText F message)]))
    | some .custom =>
      match message.get (name "content") with
      | some (.string text) => some (userText message (.array [textBlock text]))
      | content => some (userText message (content.getD .null))
    | some .branchSummary =>
      some (userText message (.array
        [textBlock (branchSummaryPrefix ++ textOf (message.get (name "summary")) ++ branchSummarySuffix)]))
    | some .compactionSummary =>
      some (userText message (.array
        [textBlock (compactionSummaryPrefix ++ textOf (message.get (name "summary")) ++ compactionSummarySuffix)]))
    | some .user | some .assistant | some .toolResult => some message
    | none => none

/-! ## The conversation as text -/

/-- `value` where it is a text that is not empty. -/
def nonEmpty (value : Option JsString) : Option JsString := value.filter fun text => text ≠ []

def usageOf : Option Json → AgentMessage
  | some (.object usage) => usage
  | _ => []

def addUsage (left right : Option Json) : Json :=
  let l := usageOf left
  let r := usageOf right
  let sum := fun (l r : AgentMessage) key => Json.number (numberOf (l.get (name key)) + numberOf (r.get (name key)))
  let sumOptional := fun key =>
    if (l.get (name key)).isNone ∧ (r.get (name key)).isNone then [] else [(name key, sum l r key)]
  let costs := fun key => (name key, sum (usageOf (l.get (name "cost"))) (usageOf (r.get (name "cost"))) key)
  .object (["input", "output", "cacheRead", "cacheWrite"].map (fun key => (name key, sum l r key))
    ++ sumOptional "cacheWrite1h" ++ sumOptional "reasoning" ++ [(name "totalTokens", sum l r "totalTokens"),
      (name "cost", .object (["input", "output", "cacheRead", "cacheWrite", "total"].map costs))])

variable {F : NumberFormat}

/-- What there was of files is still there. -/
structure FileOperations.Within (a b : FileOperations) : Prop where
  read : a.read ⊆ b.read
  written : a.written ⊆ b.written
  edited : a.edited ⊆ b.edited

theorem FileOperations.Within.refl (a : FileOperations) : a.Within a :=
  ⟨fun _ h => h, fun _ h => h, fun _ h => h⟩

theorem FileOperations.Within.trans {a b c : FileOperations} (hab : a.Within b) (hbc : b.Within c) : a.Within c :=
  ⟨fun _ h => hbc.read (hab.read h), fun _ h => hbc.written (hab.written h), fun _ h => hbc.edited (hab.edited h)⟩

def answerMessage : AgentMessage :=
  [(name "role", .string (name "assistant")), (name "content", .array [textBlock (name "done")])]

/-- A compaction whose summary is `@@`, and a turn behind it. -/
def compactedPath : List Entry :=
  [⟨name "a", none, 1, some (.number 0), .compaction ⟨name "@@", [], 0, none⟩⟩,
    messageEntry "b" 2 userMessage, messageEntry "c" 3 answerMessage]

end Phi.Harness

import Phi.Session.Invariant
import Phi.Session.Jsonl.Codec

/-!
# JSONL storage

Model of `JsonlStorage` of `packages/agent/src/harness/session/jsonl/storage.ts` over files of format 4.

A storage is its header and its in-memory state; the file is the sequence of its bytes. A commit appends one
line, and the environment says whether the append succeeds, or how many bytes it wrote before it failed. The
temporary file that `publishFileAtomically` renames into place is the new file.
-/

namespace Phi.Session.Jsonl

open InMemoryStorageState

abbrev File := List UInt8

structure JsonlStorage where
  header : JsonlStorageHeader
  memory : InMemoryStorageState

/-! ## Opening -/

def splitCompleteLines (content : JsString) : List JsString × Bool :=
  if content.getLast? = some 10 then (content.dropLast.splitOn 10, false)
  else
    match content.reverse.dropWhile (· ≠ 10) with
    | [] => ([], true)
    | _ :: before => (before.reverse.splitOn 10, true)

/-- The text of a file of whole lines. -/
def joinLines (lines : List JsString) : JsString := [10].intercalate lines ++ [10]

def replayCommitted (s : InMemoryStorageState) (writes : List CommittedWrite) :
    Except StorageError InMemoryStorageState :=
  match s.applyCommitted writes with
  | (s', .ok _) => .ok s'
  | (_, .error e) => .error e

/-- One line of the loop of `open`. -/
def replayLine (F : NumberFormat) (s : InMemoryStorageState) (line : JsString) :
    Except JsonlError InMemoryStorageState := do
  let writes ← parseTransaction F line
  (replayCommitted s writes).mapError .storage

/-- The loop of `open` over the lines from number `number` on. -/
def replayLines (F : NumberFormat) : ℕ → InMemoryStorageState → List JsString →
    Except JsonlError InMemoryStorageState
  | _, s, [] => .ok s
  | number, s, line :: rest =>
    match replayLine F s line with
    | .error e => .error (.line number e)
    | .ok s' => replayLines F (number + 1) s' rest

/-- The high-water mark of the header. -/
def advance (header : JsonlStorageHeader) (s : InMemoryStorageState) : InMemoryStorageState :=
  match header.nextSeq with
  | none => s
  | some nextSeq => s.advanceNextSeq nextSeq

/-- `open` after the file was split into lines. -/
def openLines (F : NumberFormat) : List JsString → Except JsonlError JsonlStorage
  | [] => .error .missingHeader
  | first :: rest =>
    if first = [] then .error .missingHeader
    else do
      let header ← parseJsonlSessionHeader F first
      if header.storageVersion ≠ jsonlStorageVersion then
        .error (.unsupportedVersion header.id header.storageVersion)
      else do
        let s ← replayLines F 2 InMemoryStorageState.empty rest
        return ⟨header, advance header s⟩

/-- `JsonlStorage.open`, with the file it leaves: a torn one is rewritten with its whole lines. -/
def openFile (F : NumberFormat) (file : File) : Except JsonlError (JsonlStorage × File) := do
  let (lines, torn) := splitCompleteLines (decodeUtf8 file)
  let storage ← openLines F lines
  return (storage, if torn then textEncode (joinLines lines) else file)

/-! ## Creating -/

def serializeStorage (F : NumberFormat) (header : JsonlStorageHeader) (transactions : List (List CommittedWrite)) :
    JsString :=
  joinLines (stringify F (headerJson header) :: transactions.map (serializeTransaction F))

/-- `JsonlStorage.create`, with the file it publishes. -/
def create (F : NumberFormat) (header : JsonlStorageHeader) (initialWrites : List Write) (timestamp : ℕ) :
    Except JsonlError (JsonlStorage × File) := do
  let prepared ← (InMemoryStorageState.empty.prepareCommit initialWrites timestamp).mapError .storage
  let transactions := if prepared.length = 0 then [] else [prepared]
  match InMemoryStorageState.empty.applyValidated prepared with
  | (memory, .ok _) => return (⟨header, memory⟩, textEncode (serializeStorage F header transactions))
  | (_, .error e) => .error (.storage e)

/-! ## Commits -/

/-- What the append does: it succeeds, or fails after it wrote some of the bytes. -/
inductive AppendOutcome where
  | done
  | failed (written : ℕ)

/-- The bytes that the append of a transaction writes. -/
def lineBytes (F : NumberFormat) (writes : List CommittedWrite) : File :=
  textEncode (serializeTransaction F writes ++ [10])

/-- `applyCommit`, with the storage and the file it leaves. -/
def applyCommit (F : NumberFormat) (storage : JsonlStorage) (file : File) (writes : List Write) (timestamp : ℕ)
    (append : AppendOutcome) : (JsonlStorage × File) × Except JsonlError SessionStats :=
  match storage.memory.prepareCommit writes timestamp with
  | .error e => ((storage, file), .error (.storage e))
  | .ok prepared =>
    let apply (file : File) : (JsonlStorage × File) × Except JsonlError SessionStats :=
      (({ storage with memory := (storage.memory.applyValidated prepared).1 }, file),
        (storage.memory.applyValidated prepared).2.mapError .storage)
    if prepared.length = 0 then apply file
    else
      match append with
      | .done => apply (file ++ lineBytes F prepared)
      | .failed written => ((storage, file ++ (lineBytes F prepared).take written), .error .append)

end Phi.Session.Jsonl

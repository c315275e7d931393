import Phi.Data.JsonText

/-!
# Entries, usage rows and writes

Model of the storage types of `packages/agent/src/harness/session/types.ts` and `values.ts`, of `commit.ts`,
and of the sums of `utils/usage.ts`.

An entry keeps the fields every entry has; the others, which depend on its type, are its `fields`, by name.
What is stored under an address is JSON. Numbers are the rationals they denote: the sums below are made in
the order of the source, and are exact here.
-/

namespace Phi.Session

/-! ## Usage -/

structure Cost where
  input : ℚ
  output : ℚ
  cacheRead : ℚ
  cacheWrite : ℚ
  total : ℚ
deriving DecidableEq

structure Usage where
  input : ℚ
  output : ℚ
  cacheRead : ℚ
  cacheWrite : ℚ
  cacheWrite1h : Option ℚ
  reasoning : Option ℚ
  totalTokens : ℚ
  cost : Cost
deriving DecidableEq

def emptyUsage : Usage := ⟨0, 0, 0, 0, none, none, 0, ⟨0, 0, 0, 0, 0⟩⟩

/-- The sum of two optional numbers, there when one of them is. -/
def addOptional : Option ℚ → Option ℚ → Option ℚ
  | none, none => none
  | left, right => some (left.getD 0 + right.getD 0)

def addUsage (left right : Usage) : Usage where
  input := left.input + right.input
  output := left.output + right.output
  cacheRead := left.cacheRead + right.cacheRead
  cacheWrite := left.cacheWrite + right.cacheWrite
  cacheWrite1h := addOptional left.cacheWrite1h right.cacheWrite1h
  reasoning := addOptional left.reasoning right.reasoning
  totalTokens := left.totalTokens + right.totalTokens
  cost :=
    { input := left.cost.input + right.cost.input
      output := left.cost.output + right.cost.output
      cacheRead := left.cost.cacheRead + right.cost.cacheRead
      cacheWrite := left.cost.cacheWrite + right.cost.cacheWrite
      total := left.cost.total + right.cost.total }

structure SessionStats where
  messageCount : ℕ
  usage : Usage
deriving DecidableEq

/-! ## Entries and rows -/

inductive EntryType where
  | message
  | compaction
  | branchSummary
  | custom
deriving DecidableEq, Repr

/-- An entry before storage assigns sequence and timestamp. -/
structure NewEntry where
  id : JsString
  parentId : Option JsString
  type : EntryType
  customType : Option JsString
  fields : Table JsString Json

structure Entry extends NewEntry where
  seq : ℕ
  timestamp : ℕ

/-- A usage row before storage assigns its sequence. -/
structure NewUsageRow where
  id : JsString
  usage : Usage
  entryId : Option JsString
  adjustment : Bool
  details : Option Json

structure UsageRow extends NewUsageRow where
  seq : ℕ

/-! ## Addresses -/

inductive StorageError where
  | nonMonotonic (seq : ℕ)
  | duplicateId (id : JsString)
  | missingParent (id : JsString)
  | typeError (message : String)
  | unknownStart (id : JsString)
  | missingBranchParent
deriving DecidableEq

def StorageError.message : StorageError → JsString
  | .nonMonotonic seq => JsString.ofAscii "Non-monotonic storage sequence: " ++ numberText seq
  | .duplicateId id => JsString.ofAscii "Duplicate entry or usage id: " ++ id
  | .missingParent id => JsString.ofAscii "Missing parent entry: " ++ id
  | .typeError message => JsString.ofAscii message
  | .unknownStart id => JsString.ofAscii "Unknown branch start: " ++ id
  | .missingBranchParent => JsString.ofAscii "Corrupt branch: missing parent"

/-- Where a value or a list is stored. -/
structure StoreAddress where
  «namespace» : JsString
  key : JsString
deriving DecidableEq

/-- `validateAddress`, which `value()` and `list()` call. -/
def validateAddress (a : StoreAddress) : Except StorageError Unit :=
  if a.namespace.length = 0 then .error (.typeError "Value namespace must not be empty")
  else if 0 ∈ a.namespace then .error (.typeError "Value namespace must not contain \\u0000")
  else if 0 ∈ a.key then .error (.typeError "Value key must not contain \\u0000")
  else .ok ()

/-- An address that `value()` and `list()` accept. -/
def StoreAddress.Valid (a : StoreAddress) : Prop := validateAddress a = .ok ()

instance (a : StoreAddress) : Decidable a.Valid := by
  unfold StoreAddress.Valid
  infer_instance

/-! ## Writes -/

/-- A write of a transaction. -/
inductive Write where
  | entry (entry : NewEntry)
  | usage (row : NewUsageRow)
  | setValue (address : StoreAddress) (value : Json)
  | deleteValue (address : StoreAddress)
  | appendList (address : StoreAddress) (value : Json)
  | deleteList (address : StoreAddress)

/-- A write with its sequence. -/
inductive CommittedWrite where
  | entry (entry : Entry)
  | usage (row : UsageRow)
  | setValue (seq : ℕ) (address : StoreAddress) (value : Json)
  | deleteValue (seq : ℕ) (address : StoreAddress)
  | appendList (seq : ℕ) (address : StoreAddress) (value : Json)
  | deleteList (seq : ℕ) (address : StoreAddress)

namespace CommittedWrite

def seq : CommittedWrite → ℕ
  | entry e => e.seq
  | usage row => row.seq
  | setValue seq _ _ => seq
  | deleteValue seq _ => seq
  | appendList seq _ _ => seq
  | deleteList seq _ => seq

/-- The id that an entry or a usage row takes. -/
def id? : CommittedWrite → Option JsString
  | entry e => some e.id
  | usage row => some row.id
  | _ => none

/-- The id of an entry. -/
def entryId? : CommittedWrite → Option JsString
  | entry e => some e.id
  | _ => none

end CommittedWrite

def commitWrite (write : Write) (seq timestamp : ℕ) : CommittedWrite :=
  match write with
  | .entry e => .entry { e with seq := seq, timestamp := timestamp }
  | .usage row => .usage { row with seq := seq }
  | .setValue address value => .setValue seq address value
  | .deleteValue address => .deleteValue seq address
  | .appendList address value => .appendList seq address value
  | .deleteList address => .deleteList seq address

@[simp] theorem seq_commitWrite (write : Write) (seq timestamp : ℕ) :
    (commitWrite write seq timestamp).seq = seq := by
  cases write <;> rfl

/-- The writes of `prepareStorageCommit`; its `result` is `firstSeq`, their sequences and the
timestamp. -/
def prepareStorageCommit : List Write → ℕ → ℕ → List CommittedWrite
  | [], _, _ => []
  | write :: writes, firstSeq, timestamp =>
    commitWrite write firstSeq timestamp :: prepareStorageCommit writes (firstSeq + 1) timestamp

/-- One round of `validateCommittedWrites`, with the ids the storage has and those of this transaction. -/
def validateWrite (hasEntryOrUsageId hasEntryId : JsString → Bool) (previousSeq : ℤ)
    (transactionIds transactionEntryIds : List JsString) (write : CommittedWrite) :
    Except StorageError Unit :=
  if (write.seq : ℤ) ≤ previousSeq then .error (.nonMonotonic write.seq)
  else
    match write with
    | .entry e =>
      if hasEntryOrUsageId e.id ∨ e.id ∈ transactionIds then .error (.duplicateId e.id)
      else
        match e.parentId with
        | none => .ok ()
        | some parent =>
          if hasEntryId parent = false ∧ parent ∉ transactionEntryIds then .error (.missingParent parent)
          else .ok ()
    | .usage row =>
      if hasEntryOrUsageId row.id ∨ row.id ∈ transactionIds then .error (.duplicateId row.id) else .ok ()
    | _ => .ok ()

/-- The loop of `validateCommittedWrites`. -/
def validateCommittedWrites.loop (hasEntryOrUsageId hasEntryId : JsString → Bool) :
    ℤ → List JsString → List JsString → List CommittedWrite → Except StorageError Unit
  | _, _, _, [] => .ok ()
  | previousSeq, transactionIds, transactionEntryIds, write :: writes => do
    validateWrite hasEntryOrUsageId hasEntryId previousSeq transactionIds transactionEntryIds write
    loop hasEntryOrUsageId hasEntryId write.seq (transactionIds ++ write.id?.toList)
      (transactionEntryIds ++ write.entryId?.toList) writes

def validateCommittedWrites (writes : List CommittedWrite) (firstSeq : ℕ)
    (hasEntryOrUsageId hasEntryId : JsString → Bool) : Except StorageError Unit :=
  validateCommittedWrites.loop hasEntryOrUsageId hasEntryId ((firstSeq : ℤ) - 1) [] [] writes

end Phi.Session

import Phi.Data.Except
import Phi.Data.PlainNames
import Phi.Session.Types

/-!
# Lines of a JSONL session file

Model of `packages/agent/src/harness/session/jsonl/codec.ts` and of the parsing functions of `jsonl/storage.ts`.

A line is the JSON text of the header, of one write, or of an array of writes. The members of an object are
written in the order of the declared types; reading goes by name. Beyond what the source checks, a record read
here must have the declared types, where the source would go on with whatever is there.
-/

namespace Phi.Session.Jsonl

/-! ## Errors -/

inductive JsonlError where
  | missingHeader
  | invalidHeader
  | unsupportedVersion (id : JsString) (storageVersion : ℕ)
  | invalidJson
  | invalidWrite
  | invalidField (field : String)
  | invalidOperation (kind : String)
  | invalidKind
  | illTyped
  | line (number : ℕ) (cause : JsonlError)
  | storage (cause : StorageError)
  | append

/-- The text of an error of the file at `path`; the texts of a failed append and of an unknown kind or operation
go on with what was found. -/
def JsonlError.message (path : JsString) : JsonlError → JsString
  | missingHeader => JsString.ofAscii "Invalid JSONL storage " ++ path ++ JsString.ofAscii ": missing header"
  | invalidHeader => JsString.ofAscii "Invalid JSONL storage " ++ path ++ JsString.ofAscii ": invalid header"
  | unsupportedVersion id version =>
    JsString.ofAscii "Session " ++ id ++ JsString.ofAscii " uses unsupported storage version " ++ numberText version
  | invalidJson => JsString.ofAscii "Invalid JSONL transaction: not valid JSON"
  | invalidWrite => JsString.ofAscii "Invalid JSONL transaction write"
  | invalidField field => JsString.ofAscii "Invalid JSONL " ++ JsString.ofAscii field
  | invalidOperation kind => JsString.ofAscii "Invalid JSONL " ++ JsString.ofAscii kind ++ JsString.ofAscii " operation: "
  | invalidKind => JsString.ofAscii "Invalid JSONL write kind: "
  | illTyped => []
  | line number _ =>
    JsString.ofAscii "Invalid JSONL storage " ++ path ++ JsString.ofAscii ": line " ++ numberText number
  | storage cause => cause.message
  | append => JsString.ofAscii "Failed to append JSONL storage " ++ path ++ JsString.ofAscii ": "

/-! ## Members -/

/-- The largest safe integer. -/
def maxSafeInteger : ℕ := 2 ^ 53 - 1

abbrev Members := Table JsString Json

def name (s : String) : JsString := JsString.ofAscii s

def text (s : String) : Json := .string (JsString.ofAscii s)

def count (n : ℕ) : Json := .number n

/-- The member of a name. -/
def member (es : Members) (s : String) : Option Json := Table.get es (name s)

/-- A member that may be left out. -/
def optional (s : String) (v : Option Json) : Members := v.toList.map fun v => (name s, v)

def readText : Option Json → Except JsonlError JsString
  | some (.string s) => .ok s
  | _ => .error .illTyped

/-- A member that is a string or left out. -/
def readTextOrNone : Option Json → Except JsonlError (Option JsString)
  | none => .ok none
  | some (.string s) => .ok (some s)
  | _ => .error .illTyped

/-- A member that is a string or `null`. -/
def readTextOrNull : Option Json → Except JsonlError (Option JsString)
  | some .null => .ok none
  | some (.string s) => .ok (some s)
  | _ => .error .illTyped

def readNumber : Option Json → Except JsonlError ℚ
  | some (.number q) => .ok q
  | _ => .error .illTyped

def readNumberOrNone : Option Json → Except JsonlError (Option ℚ)
  | none => .ok none
  | some (.number q) => .ok (some q)
  | _ => .error .illTyped

def readBool : Option Json → Except JsonlError Bool
  | some (.bool b) => .ok b
  | _ => .error .illTyped

def readValueMember : Option Json → Except JsonlError Json
  | some v => .ok v
  | none => .error .illTyped

def readObject : Option Json → Except JsonlError Members
  | some (.object es) => .ok es
  | _ => .error .illTyped

/-- A safe integer from `minimum` on. -/
def safeIntegerAtLeast (v : Option Json) (minimum : ℕ) : Option ℕ :=
  match v with
  | some (.number q) =>
    if q.den = 1 ∧ (minimum : ℤ) ≤ q.num ∧ q.num ≤ maxSafeInteger then some q.num.toNat else none
  | _ => none

def requireSafeInteger (v : Option Json) (field : String) (minimum : ℕ) : Except JsonlError ℕ :=
  match safeIntegerAtLeast v minimum with
  | some n => .ok n
  | none => .error (.invalidField field)

theorem safeIntegerAtLeast_count {n minimum : ℕ} (hmin : minimum ≤ n) (hmax : n ≤ maxSafeInteger) :
    safeIntegerAtLeast (some (count n)) minimum = some n := by
  simp only [safeIntegerAtLeast, count, Rat.den_natCast, Rat.num_natCast]
  rw [if_pos ⟨trivial, by exact_mod_cast hmin, by exact_mod_cast hmax⟩, Int.toNat_natCast]

theorem requireSafeInteger_count {n minimum : ℕ} (field : String) (hmin : minimum ≤ n)
    (hmax : n ≤ maxSafeInteger) : requireSafeInteger (some (count n)) field minimum = .ok n := by
  rw [requireSafeInteger, safeIntegerAtLeast_count hmin hmax]

/-! ## Writes -/

def entryTypeName : EntryType → String
  | .message => "message"
  | .compaction => "compaction"
  | .branchSummary => "branch_summary"
  | .custom => "custom"

def readEntryType (s : JsString) : Except JsonlError EntryType :=
  if s = name "message" then .ok .message
  else if s = name "compaction" then .ok .compaction
  else if s = name "branch_summary" then .ok .branchSummary
  else if s = name "custom" then .ok .custom
  else .error .illTyped

def costJson (c : Cost) : Json :=
  .object [(name "input", .number c.input), (name "output", .number c.output),
    (name "cacheRead", .number c.cacheRead), (name "cacheWrite", .number c.cacheWrite),
    (name "total", .number c.total)]

def readCost (es : Members) : Except JsonlError Cost := do
  let input ← readNumber (member es "input")
  let output ← readNumber (member es "output")
  let cacheRead ← readNumber (member es "cacheRead")
  let cacheWrite ← readNumber (member es "cacheWrite")
  let total ← readNumber (member es "total")
  return ⟨input, output, cacheRead, cacheWrite, total⟩

def usageJson (u : Usage) : Json :=
  .object ([(name "input", .number u.input), (name "output", .number u.output),
      (name "cacheRead", .number u.cacheRead), (name "cacheWrite", .number u.cacheWrite)]
    ++ optional "cacheWrite1h" (u.cacheWrite1h.map .number) ++ optional "reasoning" (u.reasoning.map .number)
    ++ [(name "totalTokens", .number u.totalTokens), (name "cost", costJson u.cost)])

def readUsage (es : Members) : Except JsonlError Usage := do
  let input ← readNumber (member es "input")
  let output ← readNumber (member es "output")
  let cacheRead ← readNumber (member es "cacheRead")
  let cacheWrite ← readNumber (member es "cacheWrite")
  let cacheWrite1h ← readNumberOrNone (member es "cacheWrite1h")
  let reasoning ← readNumberOrNone (member es "reasoning")
  let totalTokens ← readNumber (member es "totalTokens")
  let cost ← readObject (member es "cost")
  let cost ← readCost cost
  return ⟨input, output, cacheRead, cacheWrite, cacheWrite1h, reasoning, totalTokens, cost⟩

/-- The names that every entry uses; the others are its own fields. -/
def entryNames : List JsString :=
  [name "kind", name "id", name "parentId", name "type", name "customType", name "seq", name "timestamp"]

def parentJson : Option JsString → Json
  | none => .null
  | some id => .string id

/-- The members of an entry before its own fields. -/
def entryFront (e : Entry) : Members :=
  [(name "kind", text "entry"), (name "id", .string e.id), (name "parentId", parentJson e.parentId),
    (name "type", text (entryTypeName e.type))] ++ optional "customType" (e.customType.map .string)

/-- The members of an entry after its own fields. -/
def entryBack (e : Entry) : Members := [(name "seq", count e.seq), (name "timestamp", count e.timestamp)]

/-- The object of a committed write. -/
def writeJson : CommittedWrite → Json
  | .entry e => .object (entryFront e ++ e.fields ++ entryBack e)
  | .usage row =>
    .object ([(name "kind", text "usage"), (name "id", .string row.id), (name "usage", usageJson row.usage)]
      ++ optional "entryId" (row.entryId.map .string) ++ [(name "adjustment", .bool row.adjustment)]
      ++ optional "details" row.details ++ [(name "seq", count row.seq)])
  | .setValue seq address value =>
    .object [(name "kind", text "value"), (name "op", text "set"), (name "seq", count seq),
      (name "namespace", .string address.namespace), (name "key", .string address.key), (name "value", value)]
  | .deleteValue seq address =>
    .object [(name "kind", text "value"), (name "op", text "delete"), (name "seq", count seq),
      (name "namespace", .string address.namespace), (name "key", .string address.key)]
  | .appendList seq address value =>
    .object [(name "kind", text "list"), (name "op", text "append"), (name "seq", count seq),
      (name "namespace", .string address.namespace), (name "key", .string address.key), (name "value", value)]
  | .deleteList seq address =>
    .object [(name "kind", text "list"), (name "op", text "delete"), (name "seq", count seq),
      (name "namespace", .string address.namespace), (name "key", .string address.key)]

def readEntry (es : Members) (seq : ℕ) : Except JsonlError CommittedWrite := do
  let timestamp ← requireSafeInteger (member es "timestamp") "entry timestamp" 0
  let id ← readText (member es "id")
  let parentId ← readTextOrNull (member es "parentId")
  let type ← readText (member es "type")
  let type ← readEntryType type
  let customType ← readTextOrNone (member es "customType")
  return .entry ⟨⟨id, parentId, type, customType, es.filter fun m => m.1 ∉ entryNames⟩, seq, timestamp⟩

def readUsageRow (es : Members) (seq : ℕ) : Except JsonlError CommittedWrite := do
  let id ← readText (member es "id")
  let usage ← readObject (member es "usage")
  let usage ← readUsage usage
  let entryId ← readTextOrNone (member es "entryId")
  let adjustment ← readBool (member es "adjustment")
  return .usage ⟨⟨id, usage, entryId, adjustment, member es "details"⟩, seq⟩

def readAddress (es : Members) : Except JsonlError StoreAddress := do
  let «namespace» ← readText (member es "namespace")
  let key ← readText (member es "key")
  return ⟨«namespace», key⟩

def readStoring (es : Members) (build : StoreAddress → Json → CommittedWrite) : Except JsonlError CommittedWrite := do
  let address ← readAddress es
  let value ← readValueMember (member es "value")
  return build address value

def readDeleting (es : Members) (build : StoreAddress → CommittedWrite) : Except JsonlError CommittedWrite := do
  let address ← readAddress es
  return build address

def parseCommittedWrite : Json → Except JsonlError CommittedWrite
  | .object es => do
    let seq ← requireSafeInteger (member es "seq") "write seq" 1
    let kind ← readText (member es "kind")
    if kind = name "entry" then readEntry es seq
    else if kind = name "usage" then readUsageRow es seq
    else if kind = name "value" then do
      let op ← readText (member es "op")
      if op = name "set" then readStoring es (.setValue seq)
      else if op = name "delete" then readDeleting es (.deleteValue seq)
      else .error (.invalidOperation "value")
    else if kind = name "list" then do
      let op ← readText (member es "op")
      if op = name "append" then readStoring es (.appendList seq)
      else if op = name "delete" then readDeleting es (.deleteList seq)
      else .error (.invalidOperation "list")
    else .error .invalidKind
  | _ => .error .invalidWrite

/-! ## The header -/

def jsonlFormatVersion : ℕ := 4

def jsonlStorageVersion : ℕ := 1

structure JsonlStorageHeader where
  id : JsString
  storageVersion : ℕ
  createdAt : ℕ
  cwd : JsString
  parentSessionId : Option JsString
  legacyParentSessionPath : Option JsString
  nextSeq : Option ℕ

def headerJson (h : JsonlStorageHeader) : Json :=
  .object ([(name "v", count jsonlFormatVersion), (name "kind", text "header"), (name "id", .string h.id),
      (name "storageVersion", count h.storageVersion), (name "createdAt", count h.createdAt),
      (name "cwd", .string h.cwd)]
    ++ optional "parentSessionId" (h.parentSessionId.map .string)
    ++ optional "legacyParentSessionPath" (h.legacyParentSessionPath.map .string)
    ++ optional "nextSeq" (h.nextSeq.map count))

/-- A safe integer from `minimum` on, or nothing; `none` when it is neither. -/
def safeIntegerOrNone (v : Option Json) (minimum : ℕ) : Option (Option ℕ) :=
  match v with
  | none => some none
  | some v => (safeIntegerAtLeast (some v) minimum).map some

/-- `isJsonlStorageHeader`, with the header it accepts. A header it refuses may be one of a legacy file, which
is opened in another way. -/
def readHeader : Json → Except JsonlError JsonlStorageHeader
  | .object es => do
    let kind ← readText (member es "kind")
    let v ← requireSafeInteger (member es "v") "v" 0
    if kind ≠ name "header" ∨ v ≠ jsonlFormatVersion then .error .invalidHeader
    else do
    let id ← readText (member es "id")
    let cwd ← readText (member es "cwd")
    let storageVersion ← requireSafeInteger (member es "storageVersion") "storageVersion" 1
    let createdAt ← requireSafeInteger (member es "createdAt") "createdAt" 0
    let nextSeq ← (safeIntegerOrNone (member es "nextSeq") 1).elim (.error .invalidHeader) .ok
    let parentSessionId ← readTextOrNone (member es "parentSessionId")
    let legacyParentSessionPath ← readTextOrNone (member es "legacyParentSessionPath")
    return ⟨id, storageVersion, createdAt, cwd, parentSessionId, legacyParentSessionPath, nextSeq⟩
  | _ => .error .invalidHeader

/-- `parseJsonlSessionHeader` for a file of format 4; every failure is the one error that `open` reports. -/
def parseJsonlSessionHeader (F : NumberFormat) (line : JsString) : Except JsonlError JsonlStorageHeader :=
  match parse F line with
  | none => .error .invalidHeader
  | some v => (readHeader v).mapError fun _ => .invalidHeader

/-! ## Transactions -/

def parseTransaction (F : NumberFormat) (line : JsString) : Except JsonlError (List CommittedWrite) :=
  match parse F line with
  | none => .error .invalidJson
  | some (.array items) => items.mapM parseCommittedWrite
  | some v => [v].mapM parseCommittedWrite

def transactionJson (writes : List CommittedWrite) : Json :=
  match writes with
  | [write] => writeJson write
  | writes => .array (writes.map writeJson)

def serializeTransaction (F : NumberFormat) (writes : List CommittedWrite) : JsString :=
  stringify F (transactionJson writes)

/-! ## What is written is read back -/

/-- A record in the sense of its declared type: JSON values, and no field of an entry under a name that every
entry uses. -/
def Storable : Write → Prop
  | .entry e => (Table.keys e.fields).Nodup ∧ (∀ k ∈ Table.keys e.fields, k ∉ entryNames ∧ PlainName k) ∧
      ∀ m ∈ e.fields, m.2.Enumerated
  | .usage row => ∀ v ∈ row.details, v.Enumerated
  | .setValue _ value => value.Enumerated
  | .appendList _ value => value.Enumerated
  | _ => True

theorem keys_optional (s : String) (v : Option Json) : (optional s v).keys.Sublist [name s] := by
  cases v with
  | none => exact List.nil_sublist _
  | some v => exact List.Sublist.refl _

theorem forall_mem_optional {p : Json → Prop} {s : String} {v : Option Json} (h : ∀ x ∈ v, p x) :
    ∀ m ∈ optional s v, p m.2 := by
  intro m hm
  rcases List.mem_map.mp hm with ⟨x, hx, rfl⟩
  exact h x (Option.mem_toList.mp hx)

theorem enumerated_costJson (c : Cost) : (costJson c).Enumerated := by
  refine enumerated_object
    [name "input", name "output", name "cacheRead", name "cacheWrite", name "total"]
    (List.Sublist.refl _) (by decide) (plainNames rfl) ?_
  simp only [List.forall_mem_cons]
  exact ⟨.number _, .number _, .number _, .number _, .number _, by simp⟩

theorem enumerated_usageJson (u : Usage) : (usageJson u).Enumerated := by
  refine enumerated_object
    ([name "input", name "output", name "cacheRead", name "cacheWrite"] ++ [name "cacheWrite1h"]
      ++ [name "reasoning"] ++ [name "totalTokens", name "cost"]) ?_ (by decide) (plainNames rfl) ?_
  · simp only [Table.keys_append]
    exact (((List.Sublist.refl _).append (keys_optional _ _)).append (keys_optional _ _)).append
      (List.Sublist.refl _)
  · simp only [List.forall_mem_append, List.forall_mem_cons]
    refine ⟨⟨⟨⟨.number _, .number _, .number _, .number _, by simp⟩, ?_⟩, ?_⟩,
      .number _, enumerated_costJson _, by simp⟩
    · refine forall_mem_optional fun x hx => ?_
      rcases Option.mem_map.mp hx with ⟨q, -, rfl⟩
      exact .number q
    · refine forall_mem_optional fun x hx => ?_
      rcases Option.mem_map.mp hx with ⟨q, -, rfl⟩
      exact .number q

theorem readUsage_usageJson (u : Usage) :
    ∃ es, readObject (some (usageJson u)) = .ok es ∧ readUsage es = .ok u := by
  refine ⟨_, rfl, ?_⟩
  rcases u with ⟨input, output, cacheRead, cacheWrite, cacheWrite1h, reasoning, totalTokens, cost⟩
  cases cacheWrite1h <;> cases reasoning <;> rfl

/-- What a transaction gives to a write that goes to the file. -/
structure Given (w : CommittedWrite) : Prop where
  seq_pos : 1 ≤ w.seq
  seq_le : w.seq ≤ maxSafeInteger
  timestamp_le : ∀ e, w = .entry e → e.timestamp ≤ maxSafeInteger

/-- The record of a committed write has its declared type. -/
def StorableCommitted : CommittedWrite → Prop
  | .entry e => Storable (.entry e.toNewEntry)
  | .usage row => Storable (.usage row.toNewUsageRow)
  | .setValue _ address value => Storable (.setValue address value)
  | .deleteValue _ address => Storable (.deleteValue address)
  | .appendList _ address value => Storable (.appendList address value)
  | .deleteList _ address => Storable (.deleteList address)

theorem enumerated_parentJson (p : Option JsString) : (parentJson p).Enumerated := by
  cases p with
  | none => exact .null
  | some id => exact .string id

theorem enumerated_writeJson {w : CommittedWrite} (hw : StorableCommitted w) : (writeJson w).Enumerated := by
  cases w with
  | entry e =>
    rcases hw with ⟨hnodup, hnames, hvalues⟩
    refine enumerated_object
      ([name "kind", name "id", name "parentId", name "type"] ++ [name "customType"] ++ Table.keys e.fields
        ++ [name "seq", name "timestamp"]) ?_ ?_ ?_ ?_
    · simp only [entryFront, entryBack, Table.keys_append]
      exact (((List.Sublist.refl _).append (keys_optional _ _)).append (List.Sublist.refl _)).append
        (List.Sublist.refl _)
    · -- the common names are distinct, and no field has one of them
      have hperm : ([name "kind", name "id", name "parentId", name "type"] ++ [name "customType"]
          ++ Table.keys e.fields ++ [name "seq", name "timestamp"]).Perm
          (Table.keys e.fields ++ entryNames) := by
        refine (List.Perm.append_right _ List.perm_append_comm).trans ?_
        rw [List.append_assoc]
        exact List.Perm.refl _
      refine hperm.nodup_iff.mpr (List.nodup_append.mpr ⟨hnodup, by decide, ?_⟩)
      rintro a ha b hb rfl
      exact (hnames a ha).1 hb
    · intro k hk
      simp only [List.mem_append] at hk
      rcases hk with ((hk | hk) | hk) | hk
      · exact plainNames rfl k hk
      · exact plainNames rfl k hk
      · exact (hnames k hk).2
      · exact plainNames rfl k hk
    · simp only [entryFront, entryBack, List.forall_mem_append, List.forall_mem_cons]
      refine ⟨⟨⟨⟨.string _, .string _, enumerated_parentJson _, .string _, by simp⟩, ?_⟩, hvalues⟩,
        .number _, .number _, by simp⟩
      refine forall_mem_optional fun x hx => ?_
      rcases Option.mem_map.mp hx with ⟨c, -, rfl⟩
      exact .string c
  | usage row =>
    refine enumerated_object
      ([name "kind", name "id", name "usage"] ++ [name "entryId"] ++ [name "adjustment"] ++ [name "details"]
        ++ [name "seq"]) ?_ (by decide) (plainNames rfl) ?_
    · simp only [Table.keys_append]
      exact ((((List.Sublist.refl _).append (keys_optional _ _)).append (List.Sublist.refl _)).append
        (keys_optional _ _)).append (List.Sublist.refl _)
    · simp only [List.forall_mem_append, List.forall_mem_cons]
      refine ⟨⟨⟨⟨⟨.string _, .string _, enumerated_usageJson _, by simp⟩, ?_⟩, .bool _, by simp⟩,
        forall_mem_optional hw⟩, .number _, by simp⟩
      refine forall_mem_optional fun x hx => ?_
      rcases Option.mem_map.mp hx with ⟨c, -, rfl⟩
      exact .string c
  | setValue seq address value =>
    refine enumerated_object
      [name "kind", name "op", name "seq", name "namespace", name "key", name "value"]
      (List.Sublist.refl _) (by decide) (plainNames rfl) ?_
    simp only [List.forall_mem_cons]
    exact ⟨.string _, .string _, .number _, .string _, .string _, hw, by simp⟩
  | appendList seq address value =>
    refine enumerated_object
      [name "kind", name "op", name "seq", name "namespace", name "key", name "value"]
      (List.Sublist.refl _) (by decide) (plainNames rfl) ?_
    simp only [List.forall_mem_cons]
    exact ⟨.string _, .string _, .number _, .string _, .string _, hw, by simp⟩
  | deleteValue seq address =>
    refine enumerated_object
      [name "kind", name "op", name "seq", name "namespace", name "key"]
      (List.Sublist.refl _) (by decide) (plainNames rfl) ?_
    simp only [List.forall_mem_cons]
    exact ⟨.string _, .string _, .number _, .string _, .string _, by simp⟩
  | deleteList seq address =>
    refine enumerated_object
      [name "kind", name "op", name "seq", name "namespace", name "key"]
      (List.Sublist.refl _) (by decide) (plainNames rfl) ?_
    simp only [List.forall_mem_cons]
    exact ⟨.string _, .string _, .number _, .string _, .string _, by simp⟩

theorem readEntryType_entryTypeName (t : EntryType) : readEntryType (name (entryTypeName t)) = .ok t := by
  cases t <;> rfl

theorem readText_string (s : JsString) : readText (some (.string s)) = .ok s := rfl

theorem readText_text (s : String) : readText (some (text s)) = .ok (name s) := rfl

theorem readTextOrNull_parentJson (p : Option JsString) : readTextOrNull (some (parentJson p)) = .ok p := by
  cases p <;> rfl

theorem readTextOrNone_map (s : Option JsString) : readTextOrNone (s.map .string) = .ok s := by
  cases s <;> rfl

/-- A field is not among the names that every entry uses. -/
theorem get_fields {e : Entry} (hw : StorableCommitted (.entry e)) {k : JsString} (hk : k ∈ entryNames) :
    Table.get e.fields k = none :=
  Table.get_eq_none_iff.mpr fun hmem => (hw.2.1 k hmem).1 hk

/-- The switch on the kind, once the sequence and the kind are read. -/
theorem parseCommittedWrite_object {es : Members} {n : ℕ} {k : JsString} (hpos : 1 ≤ n) (hle : n ≤ maxSafeInteger)
    (hseq : member es "seq" = some (count n)) (hkind : member es "kind" = some (.string k)) :
    parseCommittedWrite (.object es) =
      if k = name "entry" then readEntry es n
      else if k = name "usage" then readUsageRow es n
      else if k = name "value" then do
        let op ← readText (member es "op")
        if op = name "set" then readStoring es (.setValue n)
        else if op = name "delete" then readDeleting es (.deleteValue n)
        else .error (.invalidOperation "value")
      else if k = name "list" then do
        let op ← readText (member es "op")
        if op = name "append" then readStoring es (.appendList n)
        else if op = name "delete" then readDeleting es (.deleteList n)
        else .error (.invalidOperation "list")
      else .error .invalidKind := by
  rw [parseCommittedWrite, hseq, hkind, requireSafeInteger_count _ hpos hle]
  rfl

theorem keys_entryFront (e : Entry) : ∀ k ∈ (entryFront e).keys, k ∈ entryNames := by
  rw [entryFront, Table.keys_append, List.forall_mem_append]
  refine ⟨(by decide : ∀ k ∈ [name "kind", name "id", name "parentId", name "type"], k ∈ entryNames), ?_⟩
  intro k hk
  rw [List.mem_singleton.mp ((keys_optional _ _).subset hk)]
  decide

theorem keys_entryBack (e : Entry) : ∀ k ∈ (entryBack e).keys, k ∈ entryNames :=
  (by decide : ∀ k ∈ [name "seq", name "timestamp"], k ∈ entryNames)

/-- The fields of an entry are the members that have none of the common names. -/
theorem filter_fields {e : Entry} (hw : StorableCommitted (.entry e)) :
    (entryFront e ++ e.fields ++ entryBack e).filter (fun m => m.1 ∉ entryNames) = e.fields := by
  have hnone : ∀ t : Members, (∀ k ∈ t.keys, k ∈ entryNames) → t.filter (fun m => m.1 ∉ entryNames) = [] := by
    intro t ht
    refine List.filter_eq_nil_iff.mpr fun m hm => ?_
    simpa using ht m.1 (Table.mem_keys_of_mem hm)
  have hall : e.fields.filter (fun m => m.1 ∉ entryNames) = e.fields := by
    refine List.filter_eq_self.mpr fun m hm => ?_
    simpa using (hw.2.1 m.1 (Table.mem_keys_of_mem hm)).1
  rw [List.filter_append, List.filter_append, hnone _ (keys_entryFront e), hnone _ (keys_entryBack e), hall,
    List.nil_append, List.append_nil]

/-- A common member of the object of an entry stands before or after its own fields. -/
theorem member_entry {e : Entry} (hw : StorableCommitted (.entry e)) {s : String} (hs : name s ∈ entryNames) :
    member (entryFront e ++ e.fields ++ entryBack e) s = (member (entryFront e) s).or (member (entryBack e) s) := by
  unfold member
  rw [Table.get_append, Table.get_append, get_fields hw hs, Option.or_none]

theorem parse_entry {e : Entry} (hw : StorableCommitted (.entry e)) (hgiven : Given (.entry e)) :
    parseCommittedWrite (writeJson (.entry e)) = .ok (.entry e) := by
  have htime := requireSafeInteger_count "entry timestamp" (Nat.zero_le _) (hgiven.timestamp_le e rfl)
  have hread : ∀ {s : String} {v : Option Json}, name s ∈ entryNames →
      (member (entryFront e) s).or (member (entryBack e) s) = v →
      member (entryFront e ++ e.fields ++ entryBack e) s = v := fun hs hv => by rw [member_entry hw hs, hv]
  have hback : ∀ {s : String} {v : Json}, member (entryFront e) s = none → member (entryBack e) s = some v →
      (member (entryFront e) s).or (member (entryBack e) s) = some v := fun hnone hsome => by rw [hnone, hsome]; rfl
  have hcustom : member (entryFront e ++ e.fields ++ entryBack e) "customType" = e.customType.map .string := by
    refine hread (by decide) ?_
    unfold entryFront
    cases e.customType <;> rfl
  have hseq : member (entryFront e ++ e.fields ++ entryBack e) "seq" = some (count e.seq) := by
    refine hread (by decide) (hback ?_ rfl)
    unfold entryFront
    cases e.customType <;> rfl
  have htimestamp : member (entryFront e ++ e.fields ++ entryBack e) "timestamp" = some (count e.timestamp) := by
    refine hread (by decide) (hback ?_ rfl)
    unfold entryFront
    cases e.customType <;> rfl
  have hid : member (entryFront e ++ e.fields ++ entryBack e) "id" = some (.string e.id) := hread (by decide) rfl
  have hparent : member (entryFront e ++ e.fields ++ entryBack e) "parentId" = some (parentJson e.parentId) :=
    hread (by decide) rfl
  have htype : member (entryFront e ++ e.fields ++ entryBack e) "type" = some (text (entryTypeName e.type)) :=
    hread (by decide) rfl
  rw [writeJson,
    parseCommittedWrite_object (k := name "entry") hgiven.seq_pos hgiven.seq_le hseq (hread (by decide) rfl),
    if_pos rfl, readEntry, htimestamp, htime, hid, hparent, htype, hcustom, filter_fields hw]
  simp only [ok_bind, readText_string, readText_text, readTextOrNull_parentJson, readTextOrNone_map,
    readEntryType_entryTypeName]
  rfl

/-- A committed write is read back from its object. -/
theorem parseCommittedWrite_writeJson {w : CommittedWrite} (hw : StorableCommitted w) (hgiven : Given w) :
    parseCommittedWrite (writeJson w) = .ok w := by
  have hpos := hgiven.seq_pos
  have hle := hgiven.seq_le
  cases w with
  | entry e => exact parse_entry hw hgiven
  | usage row =>
    rcases readUsage_usageJson row.usage with ⟨es, hobject, husage⟩
    rcases row with ⟨⟨id, usage, entryId, adjustment, details⟩, seq⟩
    rw [writeJson, parseCommittedWrite_object (n := seq) (k := name "usage") hpos hle]
    · rw [if_neg (by decide), if_pos rfl, readUsageRow]
      cases entryId <;> cases details <;>
      · rw [show member _ "id" = some (.string id) from rfl, readText_string, ok_bind,
          show member _ "usage" = some (usageJson usage) from rfl, hobject, ok_bind, husage, ok_bind]
        rfl
    · cases entryId <;> cases details <;> rfl
    · rfl
  | setValue seq address value =>
    rw [writeJson, parseCommittedWrite_object (n := seq) (k := name "value") hpos hle rfl rfl]
    rfl
  | deleteValue seq address =>
    rw [writeJson, parseCommittedWrite_object (n := seq) (k := name "value") hpos hle rfl rfl]
    rfl
  | appendList seq address value =>
    rw [writeJson, parseCommittedWrite_object (n := seq) (k := name "list") hpos hle rfl rfl]
    rfl
  | deleteList seq address =>
    rw [writeJson, parseCommittedWrite_object (n := seq) (k := name "list") hpos hle rfl rfl]
    rfl

theorem enumerated_transactionJson {ws : List CommittedWrite} (hw : ∀ w ∈ ws, StorableCommitted w) :
    (transactionJson ws).Enumerated := by
  unfold transactionJson
  split
  · exact enumerated_writeJson (hw _ (List.mem_singleton_self _))
  · refine .array fun x hx => ?_
    rcases List.mem_map.mp hx with ⟨w, hmem, rfl⟩
    exact enumerated_writeJson (hw w hmem)

theorem mapM_parse_map {ws : List CommittedWrite} (hw : ∀ w ∈ ws, StorableCommitted w ∧ Given w) :
    (ws.map writeJson).mapM parseCommittedWrite = .ok ws := by
  induction ws with
  | nil => rfl
  | cons w ws ih =>
    rw [List.forall_mem_cons] at hw
    rw [List.map_cons, List.mapM_cons, parseCommittedWrite_writeJson hw.1.1 hw.1.2, ok_bind, ih hw.2]
    rfl

/-- A transaction is read back from its line. -/
theorem parseTransaction_serializeTransaction (F : NumberFormat) {ws : List CommittedWrite}
    (hw : ∀ w ∈ ws, StorableCommitted w ∧ Given w) :
    parseTransaction F (serializeTransaction F ws) = .ok ws := by
  have henum := enumerated_transactionJson fun w hmem => (hw w hmem).1
  have hmap := mapM_parse_map hw
  rw [parseTransaction, serializeTransaction, parse_stringify F henum]
  rcases ws with _ | ⟨w, _ | ⟨w', ws⟩⟩
  · rfl
  · have hobject : ∃ es, writeJson w = .object es := by cases w <;> exact ⟨_, rfl⟩
    rcases hobject with ⟨es, hes⟩
    rw [List.map_singleton, hes] at hmap
    rw [transactionJson, hes]
    exact hmap
  · exact hmap

/-- A header that `create` may be given: safe integers. -/
structure JsonlStorageHeader.Valid (h : JsonlStorageHeader) : Prop where
  storageVersion_pos : 1 ≤ h.storageVersion
  storageVersion_le : h.storageVersion ≤ maxSafeInteger
  createdAt_le : h.createdAt ≤ maxSafeInteger
  nextSeq_pos : ∀ n ∈ h.nextSeq, 1 ≤ n
  nextSeq_le : ∀ n ∈ h.nextSeq, n ≤ maxSafeInteger

theorem enumerated_headerJson (h : JsonlStorageHeader) : (headerJson h).Enumerated := by
  have hstring : ∀ {s : String} {v : Option JsString}, ∀ m ∈ optional s (v.map .string), m.2.Enumerated := by
    intro s v
    refine forall_mem_optional fun x hx => ?_
    rcases Option.mem_map.mp hx with ⟨c, -, rfl⟩
    exact .string c
  refine enumerated_object
    ([name "v", name "kind", name "id", name "storageVersion", name "createdAt", name "cwd"]
      ++ [name "parentSessionId"] ++ [name "legacyParentSessionPath"] ++ [name "nextSeq"]) ?_ (by decide)
      (plainNames rfl) ?_
  · simp only [Table.keys_append]
    exact (((List.Sublist.refl _).append (keys_optional _ _)).append (keys_optional _ _)).append
      (keys_optional _ _)
  · simp only [List.forall_mem_append, List.forall_mem_cons]
    refine ⟨⟨⟨⟨.number _, .string _, .string _, .number _, .number _, .string _, by simp⟩, hstring⟩, hstring⟩, ?_⟩
    refine forall_mem_optional fun x hx => ?_
    rcases Option.mem_map.mp hx with ⟨n, -, rfl⟩
    exact .number _

theorem readHeader_headerJson {h : JsonlStorageHeader} (hv : h.Valid) : readHeader (headerJson h) = .ok h := by
  have hversion := requireSafeInteger_count "storageVersion" hv.storageVersion_pos hv.storageVersion_le
  have hcreated := requireSafeInteger_count "createdAt" (Nat.zero_le _) hv.createdAt_le
  have hnext : safeIntegerOrNone (h.nextSeq.map count) 1 = some h.nextSeq := by
    cases hn : h.nextSeq with
    | none => rfl
    | some n =>
      simp only [Option.map_some, safeIntegerOrNone,
        safeIntegerAtLeast_count (hv.nextSeq_pos n hn) (hv.nextSeq_le n hn)]
  have hv4 : requireSafeInteger (some (count jsonlFormatVersion)) "v" 0 = .ok jsonlFormatVersion :=
    requireSafeInteger_count "v" (Nat.zero_le _) (by decide)
  rcases h with ⟨id, storageVersion, createdAt, cwd, parent, legacy, next⟩
  rw [headerJson, readHeader, show member _ "kind" = some (text "header") from rfl, readText_text, ok_bind,
    show member _ "v" = some (count jsonlFormatVersion) from rfl, hv4, ok_bind, if_neg (by simp),
    show member _ "id" = some (.string id) from rfl, readText_string, ok_bind,
    show member _ "cwd" = some (.string cwd) from rfl, readText_string, ok_bind,
    show member _ "storageVersion" = some (count storageVersion) from rfl, hversion, ok_bind,
    show member _ "createdAt" = some (count createdAt) from rfl, hcreated, ok_bind]
  have hmembers : ∀ es : Members, es = [(name "v", count jsonlFormatVersion), (name "kind", text "header"),
        (name "id", .string id), (name "storageVersion", count storageVersion), (name "createdAt", count createdAt),
        (name "cwd", .string cwd)] ++ optional "parentSessionId" (parent.map .string)
        ++ optional "legacyParentSessionPath" (legacy.map .string) ++ optional "nextSeq" (next.map count) →
      member es "nextSeq" = next.map count ∧ member es "parentSessionId" = parent.map .string ∧
        member es "legacyParentSessionPath" = legacy.map .string := by
    rintro es rfl
    cases parent <;> cases legacy <;> cases next <;> exact ⟨rfl, rfl, rfl⟩
  rcases hmembers _ rfl with ⟨h1, h2, h3⟩
  rw [h1, h2, h3, hnext, readTextOrNone_map, readTextOrNone_map]
  rfl

theorem parseJsonlSessionHeader_headerJson (F : NumberFormat) {h : JsonlStorageHeader} (hv : h.Valid) :
    parseJsonlSessionHeader F (stringify F (headerJson h)) = .ok h := by
  rw [parseJsonlSessionHeader, parse_stringify F (enumerated_headerJson h)]
  simp only [readHeader_headerJson hv]
  rfl

end Phi.Session.Jsonl

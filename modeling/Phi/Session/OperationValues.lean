import Phi.Session.Appends
import Phi.Session.Fork

/-!
# The values of an operation

Model of the addresses of `packages/agent/src/harness/session/values.ts` at which a running operation keeps its data, of
`operationCleanupWrites` of `runtime/drive/terminal.ts`, and of the transaction that `settleOperation` of
`runtime/lane.ts` makes of a decision to finish.

The id of an operation may come from a caller, who may choose any string. Most addresses join it to other ids with
colons, and the cleanup finds them by the prefix.
-/

namespace Phi.Session

open InMemoryStorageState (pendingAssistantFrames)

/-! ## Addresses -/

def operationResult (operationId : JsString) : StoreAddress := ⟨JsString.ofAscii "phi.result", operationId⟩

def operationMeta (operationId : JsString) : StoreAddress := ⟨JsString.ofAscii "phi.op.meta", operationId⟩

def operationState (operationId : JsString) : StoreAddress := ⟨JsString.ofAscii "phi.op.state", operationId⟩

def operationToolArgs (operationId stepId : JsString) (sourceIndex : ℕ) : StoreAddress :=
  ⟨JsString.ofAscii "phi.op.tool_args", operationId ++ [58] ++ stepId ++ [58] ++ numberText sourceIndex⟩

def operationToolMemo (operationId invocationId name : JsString) : StoreAddress :=
  ⟨JsString.ofAscii "phi.op.tool_memo", operationId ++ [58] ++ invocationId ++ [58] ++ name⟩

def operationPreparation (operationId taskId : JsString) : StoreAddress :=
  ⟨JsString.ofAscii "phi.op.preparation", operationId ++ [58] ++ taskId⟩

def pendingToolOutput (operationId invocationId : JsString) : StoreAddress :=
  ⟨JsString.ofAscii "phi.pending.tool_output", operationId ++ [58] ++ invocationId⟩

def pendingEntry (entryId : JsString) : StoreAddress := ⟨JsString.ofAscii "phi.pending.entry", entryId⟩

def operationToolArgsPrefix (operationId : JsString) : StoreAddress :=
  ⟨JsString.ofAscii "phi.op.tool_args", operationId ++ [58]⟩

def operationToolMemoPrefix (operationId : JsString) : StoreAddress :=
  ⟨JsString.ofAscii "phi.op.tool_memo", operationId ++ [58]⟩

def operationPreparationPrefix (operationId : JsString) : StoreAddress :=
  ⟨JsString.ofAscii "phi.op.preparation", operationId ++ [58]⟩

def pendingToolOutputPrefix (operationId : JsString) : StoreAddress :=
  ⟨JsString.ofAscii "phi.pending.tool_output", operationId ++ [58]⟩

/-! ## Cleanup -/

/-- A call of a batch, by its status. -/
inductive ToolBatchCall where
  | outcomeReady (resultEntryId : JsString)
  | unsettled

/-- What the cleanup reads of the state of an operation. -/
inductive OperationStage where
  | tools (calls : List ToolBatchCall)
  | assistantEffectPending (responseEntryId : JsString)
  | deferredEffectPending (responseEntryId : JsString)
  | other

/-- `pendingIds`, a set. -/
def OperationStage.pendingIds : OperationStage → List JsString
  | .tools calls =>
    (calls.filterMap fun
      | .outcomeReady resultEntryId => some resultEntryId
      | .unsettled => none).foldl addId []
  | _ => []

def OperationStage.frameDelete (operationId : JsString) : OperationStage → List Write
  | .assistantEffectPending responseEntryId | .deferredEffectPending responseEntryId =>
    [.deleteList (pendingAssistantFrames operationId responseEntryId)]
  | _ => []

/-- Delete what a scan found. -/
def deleteScanned (reader : InMemoryStorageState) (scan : StoreAddress) : List Write :=
  (reader.scanValues scan).map fun stored => .deleteValue stored.address

def operationCleanupWrites (reader : InMemoryStorageState) (operationId : JsString) (stage : OperationStage) : List Write :=
  [.deleteValue (operationMeta operationId), .deleteValue (operationState operationId)]
    ++ deleteScanned reader (operationToolArgsPrefix operationId)
    ++ deleteScanned reader (operationToolMemoPrefix operationId)
    ++ deleteScanned reader (operationPreparationPrefix operationId)
    ++ deleteScanned reader (pendingToolOutputPrefix operationId)
    ++ stage.frameDelete operationId
    ++ stage.pendingIds.map fun id => .deleteValue (pendingEntry id)

/-- The terminal transaction of an operation on a lane: the cleanup, the result and the state of the lane. -/
def finishWrites (reader : InMemoryStorageState) (operationId : JsString) (stage : OperationStage) (lane : JsString)
    (record idle : Json) : List Write :=
  operationCleanupWrites reader operationId stage
    ++ [.setValue (operationResult operationId) record, .setValue (laneState lane) idle]

/-- The state after the terminal transaction, whether it is accepted or not. -/
def finishOperation (s : InMemoryStorageState) (operationId : JsString) (stage : OperationStage) (lane : JsString)
    (record idle : Json) (timestamp : ℕ) : InMemoryStorageState :=
  (s.commit (finishWrites s operationId stage lane record idle) timestamp).1

/-! ## What belongs to an operation -/

/-- The address of a value of an operation. -/
inductive OwnsValue (operationId : JsString) : StoreAddress → Prop where
  | info : OwnsValue operationId (operationMeta operationId)
  | state : OwnsValue operationId (operationState operationId)
  | toolArgs (stepId : JsString) (sourceIndex : ℕ) :
      OwnsValue operationId (operationToolArgs operationId stepId sourceIndex)
  | toolMemo (invocationId name : JsString) : OwnsValue operationId (operationToolMemo operationId invocationId name)
  | preparation (taskId : JsString) : OwnsValue operationId (operationPreparation operationId taskId)
  | toolOutput (invocationId : JsString) : OwnsValue operationId (pendingToolOutput operationId invocationId)

/-- The values and the frames of an operation, at addresses that can be built, read as before. -/
structure KeepsOperation (operationId : JsString) (s s' : InMemoryStorageState) : Prop where
  value : ∀ address, address.Valid → OwnsValue operationId address → s'.getValue address = s.getValue address
  frames : ∀ responseEntryId, (pendingAssistantFrames operationId responseEntryId).Valid →
    s'.elementsAt (pendingAssistantFrames operationId responseEntryId)
      = s.elementsAt (pendingAssistantFrames operationId responseEntryId)

/-- Neither id goes on with a colon in the other. -/
def Separate (a b : JsString) : Prop := ¬a ++ [58] <+: b ∧ ¬b ++ [58] <+: a

instance (a b : JsString) : Decidable (Separate a b) := inferInstanceAs (Decidable (_ ∧ _))

/-! ## Lists and deleted values -/

/-- The write is about the list at the address. -/
def CommittedWrite.writesList (address : StoreAddress) : CommittedWrite → Prop
  | appendList _ a _ => a = address
  | deleteList _ a => a = address
  | _ => False

/-- The write is about the list at the address. -/
def Write.writesList (address : StoreAddress) : Write → Prop
  | appendList a _ => a = address
  | deleteList a => a = address
  | _ => False

/-- The write puts nothing with an id into the storage. -/
def Write.Anonymous : Write → Prop
  | entry _ => False
  | usage _ => False
  | _ => True

theorem mem_prepareStorageCommit {ws : List Write} {firstSeq timestamp : ℕ} {w : CommittedWrite}
    (h : w ∈ prepareStorageCommit ws firstSeq timestamp) : ∃ v ∈ ws, ∃ seq, w = commitWrite v seq timestamp := by
  induction ws generalizing firstSeq with
  | nil => simp [prepareStorageCommit] at h
  | cons v ws ih =>
    rw [prepareStorageCommit, List.mem_cons] at h
    rcases h with rfl | h
    · exact ⟨v, List.mem_cons_self, firstSeq, rfl⟩
    · obtain ⟨u, hu, seq, rfl⟩ := ih h
      exact ⟨u, List.mem_cons_of_mem _ hu, seq, rfl⟩

theorem exists_mem_prepareStorageCommit {ws : List Write} {v : Write} (h : v ∈ ws) (firstSeq timestamp : ℕ) :
    ∃ seq, commitWrite v seq timestamp ∈ prepareStorageCommit ws firstSeq timestamp := by
  induction ws generalizing firstSeq with
  | nil => cases h
  | cons u ws ih =>
    rw [prepareStorageCommit]
    rcases List.mem_cons.mp h with rfl | h
    · exact ⟨firstSeq, List.mem_cons_self⟩
    · obtain ⟨seq, hseq⟩ := ih h (firstSeq + 1)
      exact ⟨seq, List.mem_cons_of_mem _ hseq⟩

namespace InMemoryStorageState

variable {s : InMemoryStorageState} {address : StoreAddress}

theorem elementsAt_put (ha : address.Valid) {w : CommittedWrite} (hw : ¬w.writesList address) :
    (s.put w).elementsAt address = s.elementsAt address := by
  have hne : ∀ a : StoreAddress, a ≠ address → physicalKey a ≠ physicalKey address := by
    intro a hne heq
    exact hne (eq_of_physicalKey_eq ha heq.symm).symm
  cases w with
  | appendList seq a value => simp only [elementsAt, put, Table.get_set, if_neg (hne a hw)]
  | deleteList seq a => simp only [elementsAt, put, Table.get_erase, if_neg (hne a hw)]
  | _ => rfl

theorem elementsAt_applyValidated (ha : address.Valid) {ws : List CommittedWrite}
    (h : ∀ w ∈ ws, ¬w.writesList address) : (s.applyValidated ws).1.elementsAt address = s.elementsAt address := by
  induction ws generalizing s with
  | nil => rfl
  | cons w ws ih =>
    rw [List.forall_mem_cons] at h
    unfold applyValidated
    cases happly : s.applyWrite w with
    | error e => rfl
    | ok s' =>
      have hput := eq_put_of_applyWrite happly
      subst hput
      exact (ih h.2).trans (elementsAt_put ha h.1)

/-- A commit that does not write a list leaves it, also when it throws. -/
theorem elementsAt_perform (ha : address.Valid) {ws : List Write} (h : ∀ w ∈ ws, ¬w.writesList address)
    (timestamp : ℕ) : (s.perform (.new ws timestamp)).1.elementsAt address = s.elementsAt address := by
  rw [perform_eq, applyCommitted]
  cases hok : s.validateCommitted (Commit.writes s (.new ws timestamp)) with
  | error e => rfl
  | ok u =>
    refine elementsAt_applyValidated ha fun w hw => ?_
    obtain ⟨v, hv, seq, rfl⟩ := mem_prepareStorageCommit hw
    have hno := h v hv
    cases v <;> exact hno

/-- Writes without ids are in order. -/
theorem validateCommitted_anonymous {ws : List Write} (h : ∀ w ∈ ws, w.Anonymous) (timestamp : ℕ) :
    s.validateCommitted (prepareStorageCommit ws s.nextSeq timestamp) = .ok () := by
  induction ws generalizing s with
  | nil => rfl
  | cons w ws ih =>
    rw [List.forall_mem_cons] at h
    have hid : (commitWrite w s.nextSeq timestamp).id? = none := by
      cases w with
      | entry e => exact absurd h.1 id
      | usage row => exact absurd h.1 id
      | _ => rfl
    have hfits : s.Fits (commitWrite w s.nextSeq timestamp) :=
      { seq := by rw [seq_commitWrite]
        entry_id := by simp [hid]
        usage_id := by simp [hid]
        parent := by
          intro e he
          rw [he] at hid
          cases hid }
    rw [prepareStorageCommit, validateCommitted_cons]
    refine ⟨hfits, ?_⟩
    have hnext : (s.put (commitWrite w s.nextSeq timestamp)).nextSeq = s.nextSeq + 1 := by
      rw [nextSeq_put, seq_commitWrite]
    rw [← hnext]
    exact ih h.2

theorem getValue_put_deleteValue (seq : ℕ) : (s.put (.deleteValue seq address)).getValue address = none := by
  simp [put, getValue]

/-- A value that is deleted and not set again is gone. -/
theorem getValue_foldl_deleted (ha : address.Valid) {ws : List CommittedWrite}
    (hgone : s.getValue address = none ∨ ∃ seq, .deleteValue seq address ∈ ws)
    (hset : ∀ seq value, .setValue seq address value ∉ ws) : (ws.foldl put s).getValue address = none := by
  induction ws generalizing s with
  | nil => simpa using hgone
  | cons w ws ih =>
    rw [List.foldl_cons]
    have hset' : ∀ seq value, .setValue seq address value ∉ ws := fun seq value hmem =>
      hset seq value (List.mem_cons_of_mem _ hmem)
    rcases hgone with hnone | ⟨seq, hmem⟩
    · refine ih (.inl ?_) hset'
      by_cases hw : w.writesValue address
      · cases w with
        | setValue seq a value =>
          obtain rfl : a = address := hw
          exact absurd List.mem_cons_self (hset seq value)
        | deleteValue seq a =>
          obtain rfl : a = address := hw
          exact getValue_put_deleteValue seq
        | _ => cases hw
      · rw [getValue_put ha hw, hnone]
    · rcases List.mem_cons.mp hmem with rfl | hmem
      · exact ih (.inl (getValue_put_deleteValue seq)) hset'
      · exact ih (.inr ⟨seq, hmem⟩) hset'

end InMemoryStorageState

/-! ## The writes of a terminal transaction -/

/-- The namespaces that the cleanup scans. -/
def scannedNamespaces : List JsString :=
  [JsString.ofAscii "phi.op.tool_args", JsString.ofAscii "phi.op.tool_memo", JsString.ofAscii "phi.op.preparation",
    JsString.ofAscii "phi.pending.tool_output"]

/-- The namespaces of the other values that a terminal transaction is about. -/
def otherNamespaces : List JsString :=
  [JsString.ofAscii "phi.pending.entry", JsString.ofAscii "phi.result", JsString.ofAscii "phi.lane.state"]

section
variable {s : InMemoryStorageState} {a b : JsString} {stage : OperationStage} {lane : JsString} {record idle : Json}
  {address : StoreAddress}

theorem mem_deleteScanned {scan : StoreAddress} {w : Write} :
    w ∈ deleteScanned s scan ↔ ∃ x ∈ s.scalarValues, x.2.address.namespace = scan.namespace ∧
      scan.key <+: x.2.address.key ∧ w = .deleteValue x.2.address := by
  simp only [deleteScanned, InMemoryStorageState.scanValues, List.mem_map, List.mem_mergeSort, List.mem_filter,
    decide_eq_true_eq]
  constructor
  · rintro ⟨stored, ⟨⟨x, hx, rfl⟩, hns, hkey⟩, rfl⟩
    exact ⟨x, hx, hns, hkey, rfl⟩
  · rintro ⟨x, hx, hns, hkey, rfl⟩
    exact ⟨x.2, ⟨⟨x, hx, rfl⟩, hns, hkey⟩, rfl⟩

/-- Which values a terminal transaction can be about. -/
theorem writesValue_finish {w : Write} (hw : w ∈ finishWrites s a stage lane record idle)
    (h : w.writesValue address) :
    address = operationMeta a ∨ address = operationState a ∨
      (address.namespace ∈ scannedNamespaces ∧ a ++ [58] <+: address.key) ∨
      address.namespace ∈ otherNamespaces := by
  have hscanned : ∀ {scan : StoreAddress}, scan.namespace ∈ scannedNamespaces → scan.key = a ++ [58] →
      w ∈ deleteScanned s scan → address.namespace ∈ scannedNamespaces ∧ a ++ [58] <+: address.key := by
    intro scan hns hkey hmem
    obtain ⟨x, -, hxns, hxkey, rfl⟩ := mem_deleteScanned.mp hmem
    obtain rfl : x.2.address = address := h
    exact ⟨hxns ▸ hns, hkey ▸ hxkey⟩
  simp only [finishWrites, operationCleanupWrites, List.mem_append, List.mem_cons, List.not_mem_nil, or_false,
    List.mem_map] at hw
  rcases hw with ((((((((rfl | rfl) | hw) | hw) | hw) | hw) | hw) | ⟨id, -, rfl⟩) | (rfl | rfl))
  · exact .inl h.symm
  · exact .inr (.inl h.symm)
  · exact .inr (.inr (.inl (hscanned (by simp [scannedNamespaces, operationToolArgsPrefix]) rfl hw)))
  · exact .inr (.inr (.inl (hscanned (by simp [scannedNamespaces, operationToolMemoPrefix]) rfl hw)))
  · exact .inr (.inr (.inl (hscanned (by simp [scannedNamespaces, operationPreparationPrefix]) rfl hw)))
  · exact .inr (.inr (.inl (hscanned (by simp [scannedNamespaces, pendingToolOutputPrefix]) rfl hw)))
  · cases stage <;> simp only [OperationStage.frameDelete, List.mem_singleton, List.not_mem_nil] at hw
    · subst hw
      cases h
    · subst hw
      cases h
  · obtain rfl : pendingEntry id = address := h
    exact .inr (.inr (.inr (by simp [otherNamespaces, pendingEntry])))
  · obtain rfl : operationResult a = address := h
    exact .inr (.inr (.inr (by simp [otherNamespaces, operationResult])))
  · obtain rfl : laneState lane = address := h
    exact .inr (.inr (.inr (by simp [otherNamespaces, laneState])))

/-- A terminal transaction deletes, and sets the result and the state of the lane. -/
theorem finishWrites_cases {w : Write} (hw : w ∈ finishWrites s a stage lane record idle) :
    (∃ address, w = .deleteValue address) ∨ (∃ address, w = .deleteList address) ∨
      w = .setValue (operationResult a) record ∨ w = .setValue (laneState lane) idle := by
  simp only [finishWrites, operationCleanupWrites, List.mem_append, List.mem_cons, List.not_mem_nil, or_false,
    List.mem_map, mem_deleteScanned] at hw
  rcases hw with ((((((((rfl | rfl) | ⟨x, -, -, -, rfl⟩) | ⟨x, -, -, -, rfl⟩) | ⟨x, -, -, -, rfl⟩) | ⟨x, -, -, -, rfl⟩) | hw)
    | ⟨id, -, rfl⟩) | (rfl | rfl))
  · exact .inl ⟨_, rfl⟩
  · exact .inl ⟨_, rfl⟩
  · exact .inl ⟨_, rfl⟩
  · exact .inl ⟨_, rfl⟩
  · exact .inl ⟨_, rfl⟩
  · exact .inl ⟨_, rfl⟩
  · cases stage with
    | tools calls => cases hw
    | other => cases hw
    | assistantEffectPending responseEntryId => exact .inr (.inl ⟨_, List.mem_singleton.mp hw⟩)
    | deferredEffectPending responseEntryId => exact .inr (.inl ⟨_, List.mem_singleton.mp hw⟩)
  · exact .inl ⟨_, rfl⟩
  · exact .inr (.inr (.inl rfl))
  · exact .inr (.inr (.inr rfl))

/-- Which lists a terminal transaction can be about. -/
theorem writesList_finish {w : Write} (hw : w ∈ finishWrites s a stage lane record idle) (h : w.writesList address) :
    ∃ responseEntryId, address = pendingAssistantFrames a responseEntryId := by
  simp only [finishWrites, operationCleanupWrites, List.mem_append, List.mem_cons, List.not_mem_nil, or_false,
    List.mem_map, mem_deleteScanned] at hw
  rcases hw with ((((((((rfl | rfl) | ⟨x, -, -, -, rfl⟩) | ⟨x, -, -, -, rfl⟩) | ⟨x, -, -, -, rfl⟩) | ⟨x, -, -, -, rfl⟩) | hw)
    | ⟨id, -, rfl⟩) | (rfl | rfl))
  all_goals try cases h
  cases stage with
  | tools calls => cases hw
  | other => cases hw
  | assistantEffectPending responseEntryId =>
    obtain rfl := List.mem_singleton.mp hw
    exact ⟨responseEntryId, h.symm⟩
  | deferredEffectPending responseEntryId =>
    obtain rfl := List.mem_singleton.mp hw
    exact ⟨responseEntryId, h.symm⟩

theorem OwnsValue.cases_address (h : OwnsValue b address) :
    address = operationMeta b ∨ address = operationState b ∨
      (address.namespace ∈ scannedNamespaces ∧ b ++ [58] <+: address.key) := by
  cases h with
  | info => exact .inl rfl
  | state => exact .inr (.inl rfl)
  | toolArgs stepId sourceIndex =>
    exact .inr (.inr ⟨by simp [scannedNamespaces, operationToolArgs], by simp [operationToolArgs]⟩)
  | toolMemo invocationId name =>
    exact .inr (.inr ⟨by simp [scannedNamespaces, operationToolMemo], by simp [operationToolMemo]⟩)
  | preparation taskId =>
    exact .inr (.inr ⟨by simp [scannedNamespaces, operationPreparation], by simp [operationPreparation]⟩)
  | toolOutput invocationId =>
    exact .inr (.inr ⟨by simp [scannedNamespaces, pendingToolOutput], by simp [pendingToolOutput]⟩)

/-- Keys of two operations whose ids are separate differ. -/
theorem Separate.not_both (h : Separate a b) (hne : a ≠ b) {key : JsString} (ha : a ++ [58] <+: key) :
    ¬b ++ [58] <+: key := by
  intro hb
  rcases List.prefix_or_prefix_of_prefix ha hb with hab | hba
  · rcases List.prefix_concat_iff.mp hab with heq | hkey
    · exact hne (List.append_cancel_right heq)
    · exact h.1 hkey
  · rcases List.prefix_concat_iff.mp hba with heq | hkey
    · exact hne (List.append_cancel_right heq).symm
    · exact h.2 hkey

/-- A terminal transaction is about no value of an operation whose id is separate. -/
theorem Separate.not_writesValue (h : Separate a b) (hne : a ≠ b) (howns : OwnsValue b address) {w : Write}
    (hw : w ∈ finishWrites s a stage lane record idle) : ¬w.writesValue address := by
  intro hwrites
  have hmeta : JsString.ofAscii "phi.op.meta" ∉ scannedNamespaces ++ otherNamespaces := by decide
  have hstate : JsString.ofAscii "phi.op.state" ∉ scannedNamespaces ++ otherNamespaces := by decide
  have hother : ∀ ns ∈ scannedNamespaces, ns ∉ otherNamespaces := by decide
  rcases howns.cases_address with rfl | rfl | ⟨hns, hkey⟩
  · rcases writesValue_finish hw hwrites with heq | heq | ⟨hns, -⟩ | hns
    · exact hne (congrArg StoreAddress.key heq).symm
    · exact absurd (congrArg StoreAddress.namespace heq) (show JsString.ofAscii "phi.op.meta" ≠ JsString.ofAscii "phi.op.state" by decide)
    · exact hmeta (List.mem_append_left _ hns)
    · exact hmeta (List.mem_append_right _ hns)
  · rcases writesValue_finish hw hwrites with heq | heq | ⟨hns, -⟩ | hns
    · exact absurd (congrArg StoreAddress.namespace heq) (show JsString.ofAscii "phi.op.state" ≠ JsString.ofAscii "phi.op.meta" by decide)
    · exact hne (congrArg StoreAddress.key heq).symm
    · exact hstate (List.mem_append_left _ hns)
    · exact hstate (List.mem_append_right _ hns)
  · rcases writesValue_finish hw hwrites with heq | heq | ⟨-, hkey'⟩ | hns'
    · rw [heq] at hns
      exact hmeta (List.mem_append_left _ hns)
    · rw [heq] at hns
      exact hstate (List.mem_append_left _ hns)
    · exact h.not_both hne hkey' hkey
    · exact hother _ hns hns'

/-- The terminal transaction of an operation leaves what belongs to another, if their ids are separate. -/
theorem Separate.keeps (h : Separate a b) (hne : a ≠ b) (s : InMemoryStorageState) (stage : OperationStage)
    (lane : JsString) (record idle : Json) (timestamp : ℕ) :
    KeepsOperation b s (finishOperation s a stage lane record idle timestamp) := by
  constructor
  · intro address hvalid howns
    exact InMemoryStorageState.getValue_perform hvalid (fun w hw => h.not_writesValue hne howns hw) timestamp
  · intro responseEntryId hvalid
    refine InMemoryStorageState.elementsAt_perform hvalid (fun w hw hwrites => ?_) timestamp
    obtain ⟨responseEntryId', heq⟩ := writesList_finish hw hwrites
    have ha : a ++ [58] <+: (pendingAssistantFrames a responseEntryId').key := by simp [pendingAssistantFrames]
    have hb : b ++ [58] <+: (pendingAssistantFrames b responseEntryId).key := by simp [pendingAssistantFrames]
    rw [← heq] at ha
    exact h.not_both hne ha hb

end

/-! ## Ids that are not separate -/

/-- If the ids are not separate, a step of one operation can keep its arguments where the other looks for its own. -/
theorem exists_toolArgs {a b : JsString} (ha : (operationMeta a).Valid) (h : ¬Separate a b) :
    ∃ stepId, (0 : UInt16) ∉ stepId ∧ a ++ [58] <+: (operationToolArgs b stepId 0).key := by
  rw [Separate, not_and_or, not_not, not_not] at h
  rcases h with hab | hba
  · refine ⟨[], List.not_mem_nil, hab.trans ?_⟩
    simp [operationToolArgs]
  · obtain ⟨stepId, rfl⟩ := hba
    refine ⟨stepId, ?_, ?_⟩
    · intro hmem
      have hnul : (0 : UInt16) ∉ b ++ [58] ++ stepId := by
        have hv : validateAddress (operationMeta (b ++ [58] ++ stepId)) = .ok () := ha
        simp only [validateAddress, ite_error_eq_ok] at hv
        exact hv.2.2.1
      exact hnul (List.mem_append_right _ hmem)
    · simp [operationToolArgs]

theorem valid_of_operationMeta {operationId : JsString} (h : (operationMeta operationId).Valid) {address : StoreAddress}
    (hns : address.namespace.length ≠ 0 ∧ (0 : UInt16) ∉ address.namespace)
    (hkey : ∀ u ∈ address.key, u ∈ operationId ∨ u ≠ 0) : address.Valid := by
  have hv : validateAddress (operationMeta operationId) = .ok () := h
  simp only [validateAddress, ite_error_eq_ok] at hv
  have hnul : (0 : UInt16) ∉ address.key := by
    intro hmem
    rcases hkey 0 hmem with hid | hne
    · exact hv.2.2.1 hid
    · exact hne rfl
  rw [StoreAddress.Valid, validateAddress, if_neg hns.1, if_neg hns.2, if_neg hnul]

/-- A session in which an operation has stored the arguments of a tool call. -/
def withToolArgs (operationId stepId : JsString) : InMemoryStorageState :=
  InMemoryStorageState.empty.put (.setValue 1 (operationToolArgs operationId stepId 0) .null)

theorem invariant_withToolArgs {operationId stepId : JsString} (h : (operationToolArgs operationId stepId 0).Valid) :
    (withToolArgs operationId stepId).Invariant :=
  InMemoryStorageState.invariant_empty.put
    { seq := le_rfl
      entry_id := by simp [CommittedWrite.id?]
      usage_id := by simp [CommittedWrite.id?]
      parent := by simp } h

theorem valid_operationToolArgs {operationId stepId : JsString} (h : (operationMeta operationId).Valid)
    (hstep : (0 : UInt16) ∉ stepId) : (operationToolArgs operationId stepId 0).Valid := by
  have hns : (JsString.ofAscii "phi.op.tool_args").length ≠ 0 ∧ (0 : UInt16) ∉ JsString.ofAscii "phi.op.tool_args" := by
    decide
  refine valid_of_operationMeta h hns fun u hu => ?_
  have hzero : numberText 0 = [48] := rfl
  simp only [operationToolArgs, hzero, List.mem_append, List.mem_singleton] at hu
  rcases hu with (((hu | rfl) | hu) | rfl) | rfl
  · exact .inl hu
  · exact .inr (by decide)
  · exact .inr fun hzero => hstep (hzero ▸ hu)
  · exact .inr (by decide)
  · exact .inr (by decide)

/-- The terminal transaction of an operation deletes the arguments that the prefix of its id matches. -/
theorem finish_deletes {a b stepId : JsString} (ha : (operationMeta a).Valid)
    (hvalid : (operationToolArgs b stepId 0).Valid) (hkey : a ++ [58] <+: (operationToolArgs b stepId 0).key) :
    ¬KeepsOperation b (withToolArgs b stepId) (finishOperation (withToolArgs b stepId) a .other [] .null .null 0) := by
  intro hkeeps
  have hread : (withToolArgs b stepId).getValue (operationToolArgs b stepId 0)
      = some ⟨operationToolArgs b stepId 0, .null, 1⟩ := by
    simp [withToolArgs, InMemoryStorageState.put, InMemoryStorageState.getValue]
  have hscanned : .deleteValue (operationToolArgs b stepId 0)
      ∈ finishWrites (withToolArgs b stepId) a .other [] .null .null := by
    have hmem : .deleteValue (operationToolArgs b stepId 0)
        ∈ deleteScanned (withToolArgs b stepId) (operationToolArgsPrefix a) :=
      mem_deleteScanned.mpr ⟨_, List.mem_singleton_self _, rfl, hkey, rfl⟩
    simp [finishWrites, operationCleanupWrites, hmem]
  have hanonymous : ∀ w ∈ finishWrites (withToolArgs b stepId) a .other [] .null .null, w.Anonymous := by
    intro w hw
    rcases finishWrites_cases hw with ⟨address, rfl⟩ | ⟨address, rfl⟩ | rfl | rfl <;> trivial
  have hresult : (operationResult a).Valid :=
    valid_of_operationMeta ha (show (JsString.ofAscii "phi.result").length ≠ 0 ∧ (0 : UInt16) ∉ JsString.ofAscii "phi.result" by decide) fun u hu => .inl hu
  have hok : ∀ w ∈ prepareStorageCommit (finishWrites (withToolArgs b stepId) a .other [] .null .null)
      (withToolArgs b stepId).nextSeq 0, w.AddressOk := by
    intro w hw
    obtain ⟨v, hv, seq, rfl⟩ := mem_prepareStorageCommit hw
    rcases finishWrites_cases hv with ⟨address, rfl⟩ | ⟨address, rfl⟩ | rfl | rfl
    · trivial
    · trivial
    · exact hresult
    · exact show (laneState []).Valid by decide
  have hfinished : finishOperation (withToolArgs b stepId) a .other [] .null .null 0
      = (prepareStorageCommit (finishWrites (withToolArgs b stepId) a .other [] .null .null)
          (withToolArgs b stepId).nextSeq 0).foldl InMemoryStorageState.put (withToolArgs b stepId) := by
    rw [finishOperation, InMemoryStorageState.commit, InMemoryStorageState.prepareCommit,
      InMemoryStorageState.validateCommitted_anonymous hanonymous]
    simp only [ok_bind, pure, Except.pure, InMemoryStorageState.applyValidated_of_addressOk hok]
  have hgone : (finishOperation (withToolArgs b stepId) a .other [] .null .null 0).getValue (operationToolArgs b stepId 0)
      = none := by
    rw [hfinished]
    refine InMemoryStorageState.getValue_foldl_deleted hvalid (.inr ?_) fun seq value hmem => ?_
    · obtain ⟨seq, hseq⟩ := exists_mem_prepareStorageCommit hscanned (withToolArgs b stepId).nextSeq 0
      exact ⟨seq, hseq⟩
    · obtain ⟨w, hw, seq', heq⟩ := mem_prepareStorageCommit hmem
      have hns : JsString.ofAscii "phi.op.tool_args" ≠ JsString.ofAscii "phi.result" ∧
          JsString.ofAscii "phi.op.tool_args" ≠ JsString.ofAscii "phi.lane.state" := by decide
      rcases finishWrites_cases hw with ⟨address, rfl⟩ | ⟨address, rfl⟩ | rfl | rfl
      · cases heq
      · cases heq
      · injection heq with _ haddress
        exact hns.1 (congrArg StoreAddress.namespace haddress)
      · injection heq with _ haddress
        exact hns.2 (congrArg StoreAddress.namespace haddress)
  rw [hkeeps.value _ hvalid (.toolArgs stepId 0), hread] at hgone
  cases hgone

/-- The terminal transaction of one operation leaves what belongs to another, whatever the session stores and in
whatever stage the operation ends, exactly when neither id goes on with a colon in the other. -/
theorem terminal_cleanup_frame_iff (a b : JsString) (ha : (operationMeta a).Valid) (hb : (operationMeta b).Valid)
    (hne : a ≠ b) :
    (∀ s : InMemoryStorageState, s.Invariant → ∀ stage lane record idle timestamp,
        KeepsOperation b s (finishOperation s a stage lane record idle timestamp))
      ↔ Separate a b := by
  constructor
  · intro h
    by_contra hnot
    obtain ⟨stepId, hstep, hkey⟩ := exists_toolArgs ha hnot
    have hvalid := valid_operationToolArgs hb hstep
    exact finish_deletes ha hvalid hkey (h _ (invariant_withToolArgs hvalid) .other [] .null .null 0)
  · intro h s _ stage lane record idle timestamp
    exact h.keeps hne s stage lane record idle timestamp

theorem terminal_cleanup_frame_siblings :
    KeepsOperation (JsString.ofAscii "b") (withToolArgs (JsString.ofAscii "b") (JsString.ofAscii "s"))
      (finishOperation (withToolArgs (JsString.ofAscii "b") (JsString.ofAscii "s")) (JsString.ofAscii "a") .other []
        .null .null 0) :=
  (terminal_cleanup_frame_iff (JsString.ofAscii "a") (JsString.ofAscii "b") (by decide) (by decide) (by decide)).mpr
    (by decide) _ (invariant_withToolArgs (by decide)) .other [] .null .null 0

/-- The operation `x` deletes the arguments that the operation `x:y` has stored for a tool call. -/
theorem terminal_cleanup_deletes_other :
    JsString.ofAscii "x" ≠ JsString.ofAscii "x:y" ∧
      ((withToolArgs (JsString.ofAscii "x:y") (JsString.ofAscii "s")).getValue
        (operationToolArgs (JsString.ofAscii "x:y") (JsString.ofAscii "s") 0)).isSome = true ∧
      ¬KeepsOperation (JsString.ofAscii "x:y") (withToolArgs (JsString.ofAscii "x:y") (JsString.ofAscii "s"))
        (finishOperation (withToolArgs (JsString.ofAscii "x:y") (JsString.ofAscii "s")) (JsString.ofAscii "x") .other []
          .null .null 0) := by
  refine ⟨by decide, by decide, finish_deletes (by decide) (by decide) ?_⟩
  exact ⟨JsString.ofAscii "y:s:0", by decide⟩

end Phi.Session

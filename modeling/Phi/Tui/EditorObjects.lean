import Phi.Tui.Undo

/-!
# Objects of the editor

The state, the array of its lines and the map of the pastes are objects that commands write in place, or put others for.
A snapshot is a clone of them, and an undo takes its parts over without another clone. This runs the commands on such
objects: no two owners have an object in common, so a write reaches no snapshot (`view_step`).
-/

namespace Phi.Tui

/-! ## Memory -/

/-- The state of an editor, with the address of its array of lines. -/
structure StateObject where
  lines : ℕ
  cursorLine : ℕ
  cursorCol : ℕ

structure Memory where
  states : List StateObject
  arrays : List (List JsString)
  maps : List (Table ℕ JsString)

namespace Memory

def stateObject (m : Memory) (a : ℕ) : StateObject := m.states.getD a ⟨0, 0, 0⟩

def stateAt (m : Memory) (a : ℕ) : EditorState where
  lines := m.arrays.getD (m.stateObject a).lines []
  cursorLine := (m.stateObject a).cursorLine
  cursorCol := (m.stateObject a).cursorCol

def mapAt (m : Memory) (a : ℕ) : Table ℕ JsString := m.maps.getD a []

/-- `structuredClone` of a state; the clone is the last object. -/
def cloneState (m : Memory) (a : ℕ) : Memory :=
  { m with
    arrays := m.arrays ++ [(m.stateAt a).lines]
    states := m.states ++ [{ m.stateObject a with lines := m.arrays.length }] }

/-- `structuredClone` of a map of pastes. -/
def cloneMap (m : Memory) (a : ℕ) : Memory := { m with maps := m.maps ++ [m.mapAt a] }

/-- A state is written in place. Its lines are written in place too, or they are put in another array. -/
def writeState (m : Memory) (a : ℕ) (assigns : Bool) (s : EditorState) : Memory :=
  if assigns then
    { m with
      arrays := m.arrays ++ [s.lines]
      states := m.states.set a ⟨m.arrays.length, s.cursorLine, s.cursorCol⟩ }
  else
    { m with
      arrays := m.arrays.set (m.stateObject a).lines s.lines
      states := m.states.set a ⟨(m.stateObject a).lines, s.cursorLine, s.cursorCol⟩ }

def writeMap (m : Memory) (a : ℕ) (pastes : Table ℕ JsString) : Memory := { m with maps := m.maps.set a pastes }

/-- `Object.assign` of a state. -/
def assignState (m : Memory) (a b : ℕ) : Memory := { m with states := m.states.set a (m.stateObject b) }

/-- Each address is that of an object, and no two of them have an object in common. -/
structure Own (m : Memory) (states maps : List ℕ) : Prop where
  states_lt : ∀ a ∈ states, a < m.states.length
  states_nodup : states.Nodup
  arrays_lt : ∀ a ∈ states, (m.stateObject a).lines < m.arrays.length
  arrays_inj : ∀ a ∈ states, ∀ b ∈ states, (m.stateObject a).lines = (m.stateObject b).lines → a = b
  maps_lt : ∀ a ∈ maps, a < m.maps.length
  maps_nodup : maps.Nodup

variable {m : Memory} {states states' maps maps' : List ℕ} {a b : ℕ}

theorem Own.sublist (h : m.Own states maps) (hstates : states'.Sublist states) (hmaps : maps'.Sublist maps) :
    m.Own states' maps' where
  states_lt a ha := h.states_lt a (hstates.subset ha)
  states_nodup := h.states_nodup.sublist hstates
  arrays_lt a ha := h.arrays_lt a (hstates.subset ha)
  arrays_inj a ha b hb := h.arrays_inj a (hstates.subset ha) b (hstates.subset hb)
  maps_lt a ha := h.maps_lt a (hmaps.subset ha)
  maps_nodup := h.maps_nodup.sublist hmaps

theorem Own.perm (h : m.Own states maps) (hstates : states'.Perm states) (hmaps : maps'.Perm maps) :
    m.Own states' maps' where
  states_lt a ha := h.states_lt a (hstates.subset ha)
  states_nodup := hstates.nodup_iff.mpr h.states_nodup
  arrays_lt a ha := h.arrays_lt a (hstates.subset ha)
  arrays_inj a ha b hb := h.arrays_inj a (hstates.subset ha) b (hstates.subset hb)
  maps_lt a ha := h.maps_lt a (hmaps.subset ha)
  maps_nodup := hmaps.nodup_iff.mpr h.maps_nodup

/-! ### Clones -/

theorem stateObject_cloneState_of_lt (hb : b < m.states.length) : (m.cloneState a).stateObject b = m.stateObject b :=
  List.getD_append _ _ _ _ hb

theorem stateObject_cloneState_new :
    (m.cloneState a).stateObject m.states.length = { m.stateObject a with lines := m.arrays.length } := by
  rw [stateObject, cloneState, List.getD_append_right _ _ _ _ le_rfl, Nat.sub_self]
  rfl

theorem Own.stateAt_cloneState (h : m.Own states maps) (hb : b ∈ states) :
    (m.cloneState a).stateAt b = m.stateAt b := by
  have harray : (m.cloneState a).arrays.getD (m.stateObject b).lines [] = m.arrays.getD (m.stateObject b).lines [] :=
    List.getD_append _ _ _ _ (h.arrays_lt b hb)
  rw [stateAt, stateObject_cloneState_of_lt (h.states_lt b hb), harray, stateAt]

theorem stateAt_cloneState_new : (m.cloneState a).stateAt m.states.length = m.stateAt a := by
  have harray : (m.cloneState a).arrays.getD m.arrays.length [] = (m.stateAt a).lines := by
    rw [cloneState, List.getD_append_right _ _ _ _ le_rfl, Nat.sub_self]
    rfl
  rw [stateAt, stateObject_cloneState_new]
  dsimp only
  rw [harray]
  rfl

theorem Own.cloneState (h : m.Own states maps) : (m.cloneState a).Own (m.states.length :: states) maps where
  states_lt b hb := by
    rw [Memory.cloneState, List.length_append, List.length_singleton]
    rcases List.mem_cons.mp hb with rfl | hb
    · exact Nat.lt_succ_self _
    · exact (h.states_lt b hb).trans (Nat.lt_succ_self _)
  states_nodup := List.nodup_cons.mpr ⟨fun hmem => absurd (h.states_lt _ hmem) (lt_irrefl _), h.states_nodup⟩
  arrays_lt b hb := by
    have hlength : (m.cloneState a).arrays.length = m.arrays.length + 1 := by simp [Memory.cloneState]
    rw [hlength]
    rcases List.mem_cons.mp hb with rfl | hb
    · rw [stateObject_cloneState_new]
      exact Nat.lt_succ_self _
    · rw [stateObject_cloneState_of_lt (h.states_lt b hb)]
      exact (h.arrays_lt b hb).trans (Nat.lt_succ_self _)
  arrays_inj b hb c hc heq := by
    rcases List.mem_cons.mp hb with rfl | hb <;> rcases List.mem_cons.mp hc with rfl | hc
    · rfl
    · rw [stateObject_cloneState_new, stateObject_cloneState_of_lt (h.states_lt c hc)] at heq
      exact absurd (h.arrays_lt c hc) (not_lt.mpr heq.le)
    · rw [stateObject_cloneState_new, stateObject_cloneState_of_lt (h.states_lt b hb)] at heq
      exact absurd (h.arrays_lt b hb) (not_lt.mpr heq.ge)
    · rw [stateObject_cloneState_of_lt (h.states_lt b hb), stateObject_cloneState_of_lt (h.states_lt c hc)] at heq
      exact h.arrays_inj b hb c hc heq
  maps_lt := h.maps_lt
  maps_nodup := h.maps_nodup

theorem Own.mapAt_cloneMap (h : m.Own states maps) (hb : b ∈ maps) : (m.cloneMap a).mapAt b = m.mapAt b :=
  List.getD_append _ _ _ _ (h.maps_lt b hb)

theorem mapAt_cloneMap_new : (m.cloneMap a).mapAt m.maps.length = m.mapAt a := by
  rw [mapAt, cloneMap, List.getD_append_right _ _ _ _ le_rfl, Nat.sub_self]
  rfl

theorem Own.cloneMap (h : m.Own states maps) : (m.cloneMap a).Own states (m.maps.length :: maps) where
  states_lt := h.states_lt
  states_nodup := h.states_nodup
  arrays_lt := h.arrays_lt
  arrays_inj := h.arrays_inj
  maps_lt b hb := by
    rw [Memory.cloneMap, List.length_append, List.length_singleton]
    rcases List.mem_cons.mp hb with rfl | hb
    · exact Nat.lt_succ_self _
    · exact (h.maps_lt b hb).trans (Nat.lt_succ_self _)
  maps_nodup := List.nodup_cons.mpr ⟨fun hmem => absurd (h.maps_lt _ hmem) (lt_irrefl _), h.maps_nodup⟩

/-! ### Writes -/

theorem getD_set_ne {α : Type*} {xs : List α} {x d : α} {i j : ℕ} (hne : i ≠ j) : (xs.set i x).getD j d = xs.getD j d := by
  rw [List.getD_eq_getElem?_getD, List.getElem?_set_ne hne, List.getD_eq_getElem?_getD]

theorem getD_set_self {α : Type*} {xs : List α} {x d : α} {i : ℕ} (hlt : i < xs.length) : (xs.set i x).getD i d = x := by
  rw [List.getD_eq_getElem?_getD, List.getElem?_set_self hlt, Option.getD_some]

variable {assigns : Bool} {s : EditorState} {pastes : Table ℕ JsString}

/-- The array that a state has behind a write. -/
def writtenLines (m : Memory) (a : ℕ) (assigns : Bool) : ℕ :=
  if assigns then m.arrays.length else (m.stateObject a).lines

theorem writeState_states :
    (m.writeState a assigns s).states = m.states.set a ⟨m.writtenLines a assigns, s.cursorLine, s.cursorCol⟩ := by
  cases assigns <;> rfl

theorem writeState_maps : (m.writeState a assigns s).maps = m.maps := by cases assigns <;> rfl

theorem stateObject_writeState_of_ne (hne : b ≠ a) : (m.writeState a assigns s).stateObject b = m.stateObject b := by
  rw [stateObject, writeState_states, getD_set_ne hne.symm, stateObject]

theorem stateObject_writeState_self (ha : a < m.states.length) :
    (m.writeState a assigns s).stateObject a = ⟨m.writtenLines a assigns, s.cursorLine, s.cursorCol⟩ := by
  rw [stateObject, writeState_states, getD_set_self ha]

theorem Own.stateAt_writeState_self (h : m.Own states maps) (ha : a ∈ states) :
    (m.writeState a assigns s).stateAt a = s := by
  have harray : (m.writeState a assigns s).arrays.getD (m.writtenLines a assigns) [] = s.lines := by
    cases assigns with
    | true =>
      show (m.arrays ++ [s.lines]).getD m.arrays.length [] = s.lines
      rw [List.getD_append_right _ _ _ _ le_rfl, Nat.sub_self]
      rfl
    | false => exact getD_set_self (h.arrays_lt a ha)
  rw [stateAt, stateObject_writeState_self (h.states_lt a ha)]
  dsimp only
  rw [harray]

theorem Own.stateAt_writeState_of_ne (h : m.Own states maps) (ha : a ∈ states) (hb : b ∈ states) (hne : b ≠ a) :
    (m.writeState a assigns s).stateAt b = m.stateAt b := by
  have harray : (m.writeState a assigns s).arrays.getD (m.stateObject b).lines [] =
      m.arrays.getD (m.stateObject b).lines [] := by
    cases assigns with
    | true => exact List.getD_append _ _ _ _ (h.arrays_lt b hb)
    | false => exact getD_set_ne fun heq => hne (h.arrays_inj b hb a ha heq.symm)
  rw [stateAt, stateObject_writeState_of_ne hne, harray, stateAt]

theorem Own.writeState (h : m.Own states maps) (ha : a ∈ states) : (m.writeState a assigns s).Own states maps where
  states_lt b hb := by
    rw [writeState_states, List.length_set]
    exact h.states_lt b hb
  states_nodup := h.states_nodup
  arrays_lt b hb := by
    have hlength : m.arrays.length ≤ (m.writeState a assigns s).arrays.length := by
      cases assigns <;> simp [Memory.writeState]
    by_cases hne : b = a
    · rw [hne, stateObject_writeState_self (h.states_lt a ha)]
      cases assigns with
      | true => simp [Memory.writeState, writtenLines]
      | false => exact lt_of_lt_of_le (h.arrays_lt a ha) hlength
    · rw [stateObject_writeState_of_ne hne]
      exact lt_of_lt_of_le (h.arrays_lt b hb) hlength
  arrays_inj b hb c hc heq := by
    have hother : ∀ d ∈ states, d ≠ a → m.writtenLines a assigns ≠ (m.stateObject d).lines := by
      intro d hd hne hsame
      cases assigns with
      | true => exact absurd (h.arrays_lt d hd) (not_lt.mpr hsame.le)
      | false => exact hne (h.arrays_inj d hd a ha hsame.symm)
    by_cases hba : b = a <;> by_cases hca : c = a
    · rw [hba, hca]
    · rw [hba, stateObject_writeState_self (h.states_lt a ha), stateObject_writeState_of_ne hca] at heq
      exact absurd heq (hother c hc hca)
    · rw [hca, stateObject_writeState_self (h.states_lt a ha), stateObject_writeState_of_ne hba] at heq
      exact absurd heq.symm (hother b hb hba)
    · rw [stateObject_writeState_of_ne hba, stateObject_writeState_of_ne hca] at heq
      exact h.arrays_inj b hb c hc heq
  maps_lt b hb := by
    rw [writeState_maps]
    exact h.maps_lt b hb
  maps_nodup := h.maps_nodup

theorem mapAt_writeState : (m.writeState a assigns s).mapAt b = m.mapAt b := by rw [mapAt, writeState_maps, mapAt]

theorem Own.mapAt_writeMap_self (h : m.Own states maps) (ha : a ∈ maps) : (m.writeMap a pastes).mapAt a = pastes :=
  getD_set_self (h.maps_lt a ha)

theorem mapAt_writeMap_of_ne (hne : b ≠ a) : (m.writeMap a pastes).mapAt b = m.mapAt b := getD_set_ne hne.symm

theorem Own.writeMap (h : m.Own states maps) : (m.writeMap a pastes).Own states maps where
  states_lt := h.states_lt
  states_nodup := h.states_nodup
  arrays_lt := h.arrays_lt
  arrays_inj := h.arrays_inj
  maps_lt b hb := by
    rw [Memory.writeMap, List.length_set]
    exact h.maps_lt b hb
  maps_nodup := h.maps_nodup

/-! ### Assigned states -/

theorem stateObject_assignState_self (ha : a < m.states.length) : (m.assignState a b).stateObject a = m.stateObject b :=
  getD_set_self ha

theorem stateObject_assignState_of_ne {c : ℕ} (hne : c ≠ a) : (m.assignState a b).stateObject c = m.stateObject c :=
  getD_set_ne hne.symm

theorem stateAt_assignState_self (ha : a < m.states.length) : (m.assignState a b).stateAt a = m.stateAt b := by
  rw [stateAt, stateObject_assignState_self ha, stateAt]
  rfl

theorem stateAt_assignState_of_ne {c : ℕ} (hne : c ≠ a) : (m.assignState a b).stateAt c = m.stateAt c := by
  rw [stateAt, stateObject_assignState_of_ne hne, stateAt]
  rfl

/-- What has been assigned is not looked at any more. -/
theorem Own.assignState (h : m.Own (a :: b :: states) maps) : (m.assignState a b).Own (a :: states) maps := by
  have hnodup := h.states_nodup
  rw [List.nodup_cons, List.nodup_cons, List.mem_cons, not_or] at hnodup
  rcases hnodup with ⟨⟨hab, ha⟩, hb, hrest⟩
  have hself := stateObject_assignState_self (b := b) (h.states_lt a (by simp))
  have hother : ∀ c ∈ states, (m.assignState a b).stateObject c = m.stateObject c := fun c hc =>
    stateObject_assignState_of_ne fun hca => ha (hca ▸ hc)
  have hlt : ∀ c ∈ states, c ∈ a :: b :: states := fun c hc => List.mem_cons_of_mem a (List.mem_cons_of_mem b hc)
  refine ⟨fun c hc => ?_, List.nodup_cons.mpr ⟨ha, hrest⟩, fun c hc => ?_, fun c hc d hd heq => ?_, h.maps_lt, h.maps_nodup⟩
  · rw [Memory.assignState, List.length_set]
    rcases List.mem_cons.mp hc with rfl | hc
    · exact h.states_lt c (by simp)
    · exact h.states_lt c (hlt c hc)
  · rcases List.mem_cons.mp hc with rfl | hc
    · rw [hself]
      exact h.arrays_lt b (by simp)
    · rw [hother c hc]
      exact h.arrays_lt c (hlt c hc)
  · rcases List.mem_cons.mp hc with hca | hc' <;> rcases List.mem_cons.mp hd with hda | hd'
    · rw [hca, hda]
    · rw [hca, hself, hother d hd'] at heq
      exact absurd (h.arrays_inj b (by simp) d (hlt d hd') heq ▸ hd') hb
    · rw [hda, hself, hother c hc'] at heq
      exact absurd (h.arrays_inj c (hlt c hc') b (by simp) heq ▸ hc') hb
    · rw [hother c hc', hother d hd'] at heq
      exact h.arrays_inj c (hlt c hc') d (hlt d hd') heq

end Memory

/-! ## The editor -/

structure SnapshotObject where
  state : ℕ
  pastes : ℕ
  pasteCounter : ℕ

/-- The fields of an editor, with the addresses of its objects. -/
structure EditorObject where
  memory : Memory
  state : ℕ
  pastes : ℕ
  pasteCounter : ℕ
  history : List JsString
  historyIndex : Option ℕ
  historyDraft : Option ℕ
  killRing : List JsString
  lastAction : Option LastAction
  preferredVisualCol : Option ℕ
  snappedFromCursorCol : Option ℕ
  undoStack : List SnapshotObject

def Memory.snapshotAt (m : Memory) (s : SnapshotObject) : EditorSnapshot where
  state := m.stateAt s.state
  pastes := m.mapAt s.pastes
  pasteCounter := s.pasteCounter

namespace EditorObject

def new : EditorObject where
  memory := { states := [⟨0, 0, 0⟩], arrays := [[[]]], maps := [[]] }
  state := 0
  pastes := 0
  pasteCounter := 0
  history := []
  historyIndex := none
  historyDraft := none
  killRing := []
  lastAction := none
  preferredVisualCol := none
  snappedFromCursorCol := none
  undoStack := []

/-- What the objects hold. -/
def view (o : EditorObject) : Editor where
  state := o.memory.stateAt o.state
  pastes := o.memory.mapAt o.pastes
  pasteCounter := o.pasteCounter
  history := o.history
  historyIndex := o.historyIndex
  historyDraft := o.historyDraft.map o.memory.stateAt
  killRing := o.killRing
  lastAction := o.lastAction
  preferredVisualCol := o.preferredVisualCol
  snappedFromCursorCol := o.snappedFromCursorCol
  undoStack := o.undoStack.map o.memory.snapshotAt

/-- The states that are kept beside the one that is edited. -/
def keptStates (o : EditorObject) : List ℕ := o.historyDraft.toList ++ o.undoStack.map SnapshotObject.state

def keptMaps (o : EditorObject) : List ℕ := o.undoStack.map SnapshotObject.pastes

def Separate (o : EditorObject) : Prop := o.memory.Own (o.state :: o.keptStates) (o.pastes :: o.keptMaps)

/-! ### Parts of the commands -/

def pushUndoSnapshot (o : EditorObject) : EditorObject :=
  { o with
    memory := (o.memory.cloneState o.state).cloneMap o.pastes
    undoStack := ⟨o.memory.states.length, o.memory.maps.length, o.pasteCounter⟩ :: o.undoStack }

/-- What entering the history keeps: a snapshot, and a clone of the state as the draft. -/
def enterHistory (o : EditorObject) : EditorObject :=
  let o := o.pushUndoSnapshot
  { o with memory := o.memory.cloneState o.state, historyDraft := some o.memory.states.length }

/-- What a command makes of the fields is written to the objects. -/
def put (assigns : Bool) (e : Editor) (o : EditorObject) : EditorObject where
  memory := (o.memory.writeState o.state assigns e.state).writeMap o.pastes e.pastes
  state := o.state
  pastes := o.pastes
  pasteCounter := e.pasteCounter
  history := e.history
  historyIndex := e.historyIndex
  historyDraft := if e.historyDraft.isSome then o.historyDraft else none
  killRing := e.killRing
  lastAction := e.lastAction
  preferredVisualCol := e.preferredVisualCol
  snappedFromCursorCol := e.snappedFromCursorCol
  undoStack := o.undoStack

/-- The draft is the state again. -/
def restoreDraft (draft : ℕ) (o : EditorObject) : EditorObject :=
  { o with
    state := draft
    historyDraft := none
    historyIndex := none
    lastAction := none
    preferredVisualCol := none
    snappedFromCursorCol := none }

def submitValue (o : EditorObject) : EditorObject :=
  let m := o.memory
  { o with
    memory := Memory.writeMap
      { m with arrays := m.arrays ++ [[[]]], states := m.states ++ [⟨m.arrays.length, 0, 0⟩] } o.pastes []
    state := m.states.length
    pasteCounter := 0
    historyIndex := none
    historyDraft := none
    undoStack := []
    lastAction := none }

def undo (o : EditorObject) : EditorObject :=
  let o := { o with historyIndex := none, historyDraft := none }
  match o.undoStack with
  | [] => o
  | snapshot :: undoStack =>
    { o with
      memory := o.memory.assignState o.state snapshot.state
      pastes := snapshot.pastes
      pasteCounter := snapshot.pasteCounter
      undoStack
      lastAction := none
      preferredVisualCol := none }

end EditorObject

namespace Command

/-- Whether a command puts another array for the lines. -/
def assignsLines (seg : Segmenters) : Command → Editor → Bool
  | handlePaste pasted, e =>
    let lineCount := ((e.pastedText pasted).splitOn 10).length
    !(10 < lineCount || 1000 < (e.pastedText pasted).length) && 1 < lineCount
  | handleBackspace, e =>
    let last := ((e.graphemeSegments seg (e.state.line.take e.state.cursorCol)).getLast?).map WordSegment.segment
    0 < e.state.cursorCol && ((last.filter isPasteMarker).bind matchMarker).isSome
  | setText _, _ => true
  | insertTextAtCursor text, _ => 1 < ((normalizeText text).splitOn 10).length
  | applyCompletion _ _ _, _ => true
  | navigateHistory up, e => e.history ≠ [] && (e.nextHistoryIndex up).isSome
  | _, _ => false

/-- The draft that a command goes back to. -/
def draftBehind (o : EditorObject) : Command → Option ℕ
  | navigateHistory false => if o.history ≠ [] ∧ o.historyIndex = some 0 then o.historyDraft else none
  | _ => none

/-- What a command does to the objects before it edits. -/
def prepare (o : EditorObject) (c : Command) : EditorObject :=
  if c.beginsUnit o.view then
    match c with
    | navigateHistory _ => o.enterHistory
    | _ => o.pushUndoSnapshot
  else o

end Command

namespace EditorObject

section

variable (seg : Segmenters) (display : Display)

def step (o : EditorObject) (c : Command) : EditorObject :=
  match c, c.draftBehind o with
  | .undo, _ => o.undo
  | .submitValue, _ => o.submitValue
  | _, some draft => o.restoreDraft draft
  | c, none => (c.prepare o).put (c.assignsLines seg o.view) (c.apply seg display o.view)

def run (o : EditorObject) (cs : List Command) : EditorObject := cs.foldl (step seg display) o

end

/-! ### What the objects hold -/

variable {o : EditorObject}

theorem separate_new : new.Separate where
  states_lt a ha := by
    obtain rfl : a = 0 := by simpa [keptStates, new] using ha
    decide
  states_nodup := by simp [keptStates, new]
  arrays_lt a ha := by
    obtain rfl : a = 0 := by simpa [keptStates, new] using ha
    decide
  arrays_inj a ha b hb _ := by
    obtain rfl : a = 0 := by simpa [keptStates, new] using ha
    obtain rfl : b = 0 := by simpa [keptStates, new] using hb
    rfl
  maps_lt a ha := by
    obtain rfl : a = 0 := by simpa [keptMaps, new] using ha
    decide
  maps_nodup := by simp [keptMaps, new]

theorem mem_keptStates_of_snapshot {s : SnapshotObject} (hs : s ∈ o.undoStack) : s.state ∈ o.keptStates :=
  List.mem_append_right _ (List.mem_map_of_mem hs)

theorem mem_keptMaps_of_snapshot {s : SnapshotObject} (hs : s ∈ o.undoStack) : s.pastes ∈ o.keptMaps :=
  List.mem_map_of_mem hs

theorem mem_keptStates_of_draft {draft : ℕ} (hdraft : o.historyDraft = some draft) : draft ∈ o.keptStates :=
  List.mem_append_left _ (by rw [hdraft]; exact List.mem_singleton_self draft)

/-- The kept objects hold the same in another memory. -/
structure SameKept (o : EditorObject) (m : Memory) : Prop where
  states : ∀ a ∈ o.keptStates, m.stateAt a = o.memory.stateAt a
  maps : ∀ a ∈ o.keptMaps, m.mapAt a = o.memory.mapAt a

theorem SameKept.undoStack {m : Memory} (h : o.SameKept m) :
    o.undoStack.map m.snapshotAt = o.undoStack.map o.memory.snapshotAt := by
  refine List.map_congr_left fun s hs => ?_
  rw [Memory.snapshotAt, h.states _ (mem_keptStates_of_snapshot hs), h.maps _ (mem_keptMaps_of_snapshot hs),
    Memory.snapshotAt]

theorem SameKept.historyDraft {m : Memory} (h : o.SameKept m) :
    o.historyDraft.map m.stateAt = o.historyDraft.map o.memory.stateAt := by
  cases hdraft : o.historyDraft with
  | none => rfl
  | some draft => rw [Option.map_some, h.states _ (mem_keptStates_of_draft hdraft), Option.map_some]

theorem view_of_memory {m : Memory} {s : EditorState} {pastes : Table ℕ JsString} (hkept : o.SameKept m)
    (hstate : m.stateAt o.state = s) (hpastes : m.mapAt o.pastes = pastes) :
    { o with memory := m }.view = { o.view with state := s, pastes } := by
  unfold view
  dsimp only
  rw [hstate, hpastes, hkept.historyDraft, hkept.undoStack]

theorem Separate.pushUndoSnapshot (h : o.Separate) :
    o.pushUndoSnapshot.view = o.view.pushUndoSnapshot ∧ o.pushUndoSnapshot.Separate := by
  have hstates : ∀ a ∈ o.state :: o.keptStates,
      ((o.memory.cloneState o.state).cloneMap o.pastes).stateAt a = o.memory.stateAt a :=
    fun a ha => Memory.Own.stateAt_cloneState h ha
  have hmaps : ∀ a ∈ o.pastes :: o.keptMaps,
      ((o.memory.cloneState o.state).cloneMap o.pastes).mapAt a = o.memory.mapAt a :=
    fun a ha => Memory.Own.mapAt_cloneMap h.cloneState ha
  have hkept : o.SameKept ((o.memory.cloneState o.state).cloneMap o.pastes) :=
    ⟨fun a ha => hstates a (List.mem_cons_of_mem _ ha), fun a ha => hmaps a (List.mem_cons_of_mem _ ha)⟩
  have hview := view_of_memory hkept (hstates _ (List.mem_cons_self ..)) (hmaps _ (List.mem_cons_self ..))
  have hnew : ((o.memory.cloneState o.state).cloneMap o.pastes).snapshotAt
      ⟨o.memory.states.length, o.memory.maps.length, o.pasteCounter⟩ = o.view.snapshot := by
    rw [Memory.snapshotAt]
    dsimp only
    have hstate : ((o.memory.cloneState o.state).cloneMap o.pastes).stateAt o.memory.states.length =
      o.memory.stateAt o.state := Memory.stateAt_cloneState_new
    have hmap : ((o.memory.cloneState o.state).cloneMap o.pastes).mapAt o.memory.maps.length =
      o.memory.mapAt o.pastes := Memory.mapAt_cloneMap_new
    rw [hstate, hmap]
    rfl
  refine ⟨?_, ?_⟩
  · calc
      o.pushUndoSnapshot.view = { { o with memory := (o.memory.cloneState o.state).cloneMap o.pastes }.view with
          undoStack := ((o.memory.cloneState o.state).cloneMap o.pastes).snapshotAt
              ⟨o.memory.states.length, o.memory.maps.length, o.pasteCounter⟩ ::
            o.undoStack.map ((o.memory.cloneState o.state).cloneMap o.pastes).snapshotAt } := rfl
      _ = o.view.pushUndoSnapshot := by
        rw [hview, hnew, hkept.undoStack]
        rfl
  · have hown := Memory.Own.cloneMap (a := o.pastes) (Memory.Own.cloneState (a := o.state) h)
    refine hown.perm ?_ (List.Perm.swap _ _ _)
    have hmiddle : (o.historyDraft.toList ++ o.memory.states.length :: o.undoStack.map SnapshotObject.state).Perm
        (o.memory.states.length :: o.keptStates) := List.perm_middle
    exact (hmiddle.cons o.state).trans (List.Perm.swap _ _ _)

theorem Separate.enterHistory (h : o.Separate) :
    o.enterHistory.view = { o.view.pushUndoSnapshot with historyDraft := some o.view.state } ∧
      o.enterHistory.Separate := by
  rcases h.pushUndoSnapshot with ⟨hview, hown⟩
  have hkept : o.pushUndoSnapshot.SameKept (o.pushUndoSnapshot.memory.cloneState o.state) :=
    ⟨fun a ha => hown.stateAt_cloneState (List.mem_cons_of_mem _ ha), fun _ _ => rfl⟩
  have hstate : (o.pushUndoSnapshot.memory.cloneState o.state).stateAt o.state = o.pushUndoSnapshot.memory.stateAt o.state :=
    hown.stateAt_cloneState (List.mem_cons_self ..)
  have hnew : (o.pushUndoSnapshot.memory.cloneState o.state).stateAt o.pushUndoSnapshot.memory.states.length =
      o.pushUndoSnapshot.memory.stateAt o.state := Memory.stateAt_cloneState_new
  have hmemory := view_of_memory hkept hstate rfl
  have hpushed : o.pushUndoSnapshot.memory.stateAt o.state = o.view.state := congrArg Editor.state hview
  refine ⟨?_, ?_⟩
  · calc
      o.enterHistory.view =
          { { o.pushUndoSnapshot with memory := o.pushUndoSnapshot.memory.cloneState o.state }.view with
            historyDraft := some ((o.pushUndoSnapshot.memory.cloneState o.state).stateAt
              o.pushUndoSnapshot.memory.states.length) } := rfl
      _ = { o.pushUndoSnapshot.view with historyDraft := some o.view.state } := by
        rw [hmemory, hnew, hpushed]
        exact congrArg (fun s => { o.pushUndoSnapshot.view with state := s, historyDraft := some o.view.state }) hpushed.symm
      _ = { o.view.pushUndoSnapshot with historyDraft := some o.view.state } := by rw [hview]
  · have hclone := Memory.Own.cloneState (a := o.state) hown
    have hkeptStates : o.enterHistory.keptStates = o.pushUndoSnapshot.memory.states.length ::
        o.pushUndoSnapshot.undoStack.map SnapshotObject.state := rfl
    have hsublist : (o.pushUndoSnapshot.memory.states.length :: o.state ::
        o.pushUndoSnapshot.undoStack.map SnapshotObject.state).Sublist
          (o.pushUndoSnapshot.memory.states.length :: o.pushUndoSnapshot.state :: o.pushUndoSnapshot.keptStates) :=
      List.Sublist.cons_cons _ (List.Sublist.cons_cons _ (List.sublist_append_right _ _))
    refine (hclone.sublist hsublist (List.Sublist.refl _)).perm ?_ (List.Perm.refl _)
    rw [hkeptStates]
    exact List.Perm.swap _ _ _

theorem Separate.put {assigns : Bool} {e : Editor} (h : o.Separate) (hkept : Editor.Kept o.view e) :
    (o.put assigns e).view = e ∧ (o.put assigns e).Separate := by
  have hself : o.state ∈ o.state :: o.keptStates := List.mem_cons_self ..
  have hnodup := List.nodup_cons.mp h.states_nodup
  have hmapsNodup := List.nodup_cons.mp h.maps_nodup
  have hwritten : (o.memory.writeState o.state assigns e.state).Own (o.state :: o.keptStates) (o.pastes :: o.keptMaps) :=
    Memory.Own.writeState h hself
  have hsame : o.SameKept ((o.memory.writeState o.state assigns e.state).writeMap o.pastes e.pastes) := by
    refine ⟨fun a ha => ?_, fun a ha => ?_⟩
    · exact h.stateAt_writeState_of_ne hself (List.mem_cons_of_mem _ ha) fun heq => hnodup.1 (heq ▸ ha)
    · have hne : a ≠ o.pastes := fun heq => hmapsNodup.1 (heq ▸ ha)
      rw [Memory.mapAt_writeMap_of_ne hne, Memory.mapAt_writeState]
  have hstate : ((o.memory.writeState o.state assigns e.state).writeMap o.pastes e.pastes).stateAt o.state = e.state :=
    Memory.Own.stateAt_writeState_self h hself
  have hpastes : ((o.memory.writeState o.state assigns e.state).writeMap o.pastes e.pastes).mapAt o.pastes = e.pastes :=
    hwritten.mapAt_writeMap_self (List.mem_cons_self ..)
  refine ⟨?_, ?_⟩
  · have hstack : o.undoStack.map ((o.memory.writeState o.state assigns e.state).writeMap o.pastes e.pastes).snapshotAt =
        e.undoStack := hsame.undoStack.trans hkept.undoStack.symm
    have hdraft : (if e.historyDraft.isSome then o.historyDraft else none).map
        ((o.memory.writeState o.state assigns e.state).writeMap o.pastes e.pastes).stateAt = e.historyDraft := by
      rcases hkept.historyDraft with hnone | hdraft
      · rw [hnone]
        rfl
      · rw [hdraft]
        show (if (o.historyDraft.map o.memory.stateAt).isSome then o.historyDraft else none).map _ =
          o.historyDraft.map o.memory.stateAt
        rw [← hsame.historyDraft]
        cases o.historyDraft <;> rfl
    unfold view EditorObject.put
    dsimp only
    rw [hstate, hpastes, hdraft, hstack]
  · refine hwritten.writeMap.sublist (List.Sublist.cons_cons _ (List.Sublist.append ?_ (List.Sublist.refl _)))
      (List.Sublist.refl _)
    show (if e.historyDraft.isSome then o.historyDraft else none).toList.Sublist o.historyDraft.toList
    split
    · exact List.Sublist.refl _
    · exact List.nil_sublist _

theorem Separate.restoreDraft {draft : ℕ} (h : o.Separate) (hdraft : o.historyDraft = some draft) :
    (o.restoreDraft draft).view =
      { o.view with
        state := o.memory.stateAt draft
        historyDraft := none
        historyIndex := none
        lastAction := none
        preferredVisualCol := none
        snappedFromCursorCol := none } ∧ (o.restoreDraft draft).Separate := by
  refine ⟨rfl, h.sublist ?_ (List.Sublist.refl _)⟩
  have hkept : o.keptStates = draft :: o.undoStack.map SnapshotObject.state := by
    rw [keptStates, hdraft]
    rfl
  rw [hkept]
  exact List.sublist_cons_self _ _

theorem Separate.undo (h : o.Separate) : o.undo.view = o.view.undo ∧ o.undo.Separate := by
  cases hstack : o.undoStack with
  | nil =>
    have hundo : o.undo = { o with historyIndex := none, historyDraft := none } := by
      unfold EditorObject.undo
      dsimp only
      rw [hstack]
    have hview : o.view.undo = o.view.exitHistoryBrowsing := by
      unfold Editor.undo view Editor.exitHistoryBrowsing
      dsimp only
      rw [hstack]
      rfl
    rw [hundo, hview]
    exact ⟨rfl, h.sublist (List.Sublist.cons_cons _ (List.sublist_append_right _ _)) (List.Sublist.refl _)⟩
  | cons snapshot undoStack =>
    have hstates : (o.state :: snapshot.state :: undoStack.map SnapshotObject.state).Sublist (o.state :: o.keptStates) := by
      rw [keptStates, hstack]
      exact List.Sublist.cons_cons _ (List.sublist_append_right _ _)
    have hmaps : (snapshot.pastes :: undoStack.map SnapshotObject.pastes).Sublist (o.pastes :: o.keptMaps) := by
      rw [keptMaps, hstack]
      exact List.sublist_cons_self _ _
    have hown := h.sublist hstates hmaps
    have hnotMem : ∀ s ∈ undoStack, s.state ≠ o.state := by
      intro s hs heq
      have hmem : o.state ∈ snapshot.state :: undoStack.map SnapshotObject.state :=
        List.mem_cons_of_mem _ (heq ▸ List.mem_map_of_mem hs)
      exact (List.nodup_cons.mp hown.states_nodup).1 hmem
    have hrest : undoStack.map (o.memory.assignState o.state snapshot.state).snapshotAt =
        undoStack.map o.memory.snapshotAt := by
      refine List.map_congr_left fun s hs => ?_
      rw [Memory.snapshotAt, Memory.stateAt_assignState_of_ne (hnotMem s hs)]
      rfl
    have hstate := Memory.stateAt_assignState_self (b := snapshot.state) (hown.states_lt o.state (List.mem_cons_self ..))
    have hundo : o.undo = { o with
        historyIndex := none
        historyDraft := none
        memory := o.memory.assignState o.state snapshot.state
        pastes := snapshot.pastes
        pasteCounter := snapshot.pasteCounter
        undoStack
        lastAction := none
        preferredVisualCol := none } := by
      unfold EditorObject.undo
      dsimp only
      rw [hstack]
    refine ⟨?_, ?_⟩
    · rw [hundo]
      unfold view Editor.undo Editor.exitHistoryBrowsing
      dsimp only
      rw [hstack, hstate, hrest]
      rfl
    · rw [hundo]
      exact hown.assignState

theorem Separate.submitValue (h : o.Separate) : o.submitValue.view = o.view.submitValue ∧ o.submitValue.Separate := by
  have hstate : o.submitValue.memory.stateObject o.memory.states.length = ⟨o.memory.arrays.length, 0, 0⟩ :=
    (List.getD_append_right _ _ _ _ le_rfl).trans (by rw [Nat.sub_self]; rfl)
  have hlines : o.submitValue.memory.arrays.getD o.memory.arrays.length [] = [[]] :=
    (List.getD_append_right _ _ _ _ le_rfl).trans (by rw [Nat.sub_self]; rfl)
  have hpastes : o.submitValue.memory.mapAt o.pastes = [] :=
    Memory.getD_set_self (h.maps_lt _ (List.mem_cons_self ..))
  refine ⟨?_, ?_⟩
  · have hview : o.submitValue.memory.stateAt o.memory.states.length = { lines := [[]], cursorLine := 0, cursorCol := 0 } := by
      rw [Memory.stateAt, hstate]
      dsimp only
      rw [hlines]
    calc
      o.submitValue.view = { o.view.exitHistoryBrowsing with
          state := o.submitValue.memory.stateAt o.memory.states.length
          pastes := o.submitValue.memory.mapAt o.pastes
          pasteCounter := 0
          undoStack := []
          lastAction := none } := rfl
      _ = o.view.submitValue := by
        rw [hview, hpastes]
        rfl
  · have hlength : o.submitValue.memory.states.length = o.memory.states.length + 1 := List.length_append
    have harrays : o.submitValue.memory.arrays.length = o.memory.arrays.length + 1 := List.length_append
    have hmaps : o.submitValue.memory.maps.length = o.memory.maps.length := List.length_set
    refine ⟨fun a ha => ?_, List.nodup_singleton _, fun a ha => ?_, fun a ha b hb _ => ?_, fun a ha => ?_,
      List.nodup_singleton _⟩
    · obtain rfl : a = o.memory.states.length := List.mem_singleton.mp ha
      rw [hlength]
      exact Nat.lt_succ_self _
    · obtain rfl : a = o.memory.states.length := List.mem_singleton.mp ha
      rw [hstate, harrays]
      exact Nat.lt_succ_self _
    · exact (List.mem_singleton.mp ha).trans (List.mem_singleton.mp hb).symm
    · obtain rfl : a = o.pastes := List.mem_singleton.mp ha
      rw [hmaps]
      exact h.maps_lt _ (List.mem_cons_self ..)

/-! ### Steps -/

section

variable (seg : Segmenters) (display : Display) {c : Command}

theorem step_of_draftBehind {draft : ℕ} (hdraft : c.draftBehind o = some draft) :
    c = .navigateHistory false ∧ o.history ≠ [] ∧ o.historyIndex = some 0 ∧ o.historyDraft = some draft ∧
      o.step seg display c = o.restoreDraft draft := by
  unfold Command.draftBehind at hdraft
  split at hdraft
  · rename_i hc
    split at hdraft
    · rename_i hwhere
      refine ⟨rfl, hwhere.1, hwhere.2, hdraft, ?_⟩
      have hbehind : Command.draftBehind o (.navigateHistory false) = some draft := by
        rw [Command.draftBehind, if_pos hwhere, hdraft]
      unfold step
      rw [hbehind]
    · cases hdraft
  · cases hdraft

theorem step_of_isUndoable (hc : c.isUndoable = true) (hdraft : c.draftBehind o = none) :
    o.step seg display c = (c.prepare o).put (c.assignsLines seg o.view) (c.apply seg display o.view) := by
  unfold step
  rw [hdraft]
  cases c <;> first | rfl | cases hc

theorem view_restoreDraft {draft : ℕ} (hhistory : o.history ≠ []) (hindex : o.historyIndex = some 0)
    (hdraft : o.historyDraft = some draft) : (o.restoreDraft draft).view = o.view.navigateHistory false := by
  have hdraft' : o.view.historyDraft = some (o.memory.stateAt draft) := by
    show o.historyDraft.map _ = _
    rw [hdraft]
    rfl
  have hindex' : o.view.historyIndex = some 0 := hindex
  have hbrowsing : o.view.historyIndex ≠ none := by
    rw [hindex']
    exact Option.some_ne_none 0
  have hnext : ({ o.view with lastAction := none } : Editor).nextHistoryIndex false = some none := by
    simp [Editor.nextHistoryIndex, hindex']
  unfold Editor.navigateHistory
  dsimp only
  rw [if_neg (show o.view.history ≠ [] from hhistory), hnext]
  dsimp only
  rw [if_neg hbrowsing]
  unfold Editor.showHistory
  dsimp only
  rw [hdraft']
  rfl

theorem Separate.prepare (h : o.Separate) (hc : c.isUndoable = true) :
    Editor.Kept (c.prepare o).view (c.apply seg display o.view) ∧ (c.prepare o).Separate := by
  by_cases hbegins : c.beginsUnit o.view = true
  · by_cases hhistory : ∃ up, c = .navigateHistory up
    · rcases hhistory with ⟨up, rfl⟩
      have hprepare : (Command.navigateHistory up).prepare o = o.enterHistory := by rw [Command.prepare, if_pos hbegins]
      rw [hprepare, h.enterHistory.1, Command.apply, Editor.navigateHistory_entering hbegins]
      exact ⟨⟨rfl, .inr rfl⟩, h.enterHistory.2⟩
    · have hprepare : c.prepare o = o.pushUndoSnapshot := by
        unfold Command.prepare
        rw [if_pos hbegins]
        cases c with
        | navigateHistory up => exact absurd ⟨up, rfl⟩ hhistory
        | _ => rfl
      have hkept := Editor.kept_apply seg display hc o.view fun up hup => absurd ⟨up, hup⟩ hhistory
      rw [Editor.begun_of_beginsUnit hbegins, ← h.pushUndoSnapshot.1] at hkept
      rw [hprepare]
      exact ⟨hkept, h.pushUndoSnapshot.2⟩
  · have hkept := Editor.kept_apply seg display hc o.view fun up hup => hbegins
    rw [Editor.begun_of_not_beginsUnit hbegins] at hkept
    unfold Command.prepare
    rw [if_neg hbegins]
    exact ⟨hkept, h⟩

/-- A step does to what the objects hold what the command does, and leaves no object with two owners. -/
theorem Separate.step (h : o.Separate) (c : Command) :
    (o.step seg display c).view = c.apply seg display o.view ∧ (o.step seg display c).Separate := by
  by_cases hc : c.isUndoable = true
  · cases hdraft : c.draftBehind o with
    | some draft =>
      rcases step_of_draftBehind seg display hdraft with ⟨rfl, hhistory, hindex, hdraft, hstep⟩
      rw [hstep]
      exact ⟨view_restoreDraft hhistory hindex hdraft, (h.restoreDraft hdraft).2⟩
    | none =>
      have hprepare := h.prepare seg display hc
      rw [step_of_isUndoable seg display hc hdraft]
      exact hprepare.2.put hprepare.1
  · cases c with
    | undo => exact h.undo
    | submitValue => exact h.submitValue
    | _ => exact absurd rfl hc

end

end EditorObject

end Phi.Tui

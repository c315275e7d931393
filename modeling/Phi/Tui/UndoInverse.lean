import Phi.Tui.EditorObjects

/-!
# Undo as an inverse

Behind commands that can be undone, the snapshots of the units that they have begun are on top of the undo stack. So an
undo for each of the latest units gives back what was there before them, whatever was written since. The column that a
vertical move has snapped from is not part of a snapshot, and an undo does not forget it: only where there is none, the
editor goes on as one with the restored state does (`undo_inverse`, `undo_keeps_snap`).
-/

namespace Phi.Tui

variable (seg : Segmenters) (display : Display)

namespace Editor

def run (e : Editor) (cs : List Command) : Editor := cs.foldl (fun e c => c.apply seg display e) e

/-- What was there when the units of a run began, the latest first. -/
def units : Editor → List Command → List EditorSnapshot
  | _, [] => []
  | e, c :: cs => units (c.apply seg display e) cs ++ if c.beginsUnit e then [e.snapshot] else []

/-- The editor with a state, and with no trace of what has been done to come to it but the history and the kill ring. -/
def restored (e : Editor) (s : EditorSnapshot) (undoStack : List EditorSnapshot) : Editor where
  state := s.state
  pastes := s.pastes
  pasteCounter := s.pasteCounter
  history := e.history
  killRing := e.killRing
  undoStack := undoStack

theorem undoStack_begun (c : Command) (e : Editor) :
    (e.begun c).undoStack = (if c.beginsUnit e then [e.snapshot] else []) ++ e.undoStack := by
  unfold begun
  split <;> rfl

theorem undoStack_run {cs : List Command} (hcs : ∀ c ∈ cs, c.isUndoable = true) (e : Editor) :
    (e.run seg display cs).undoStack = e.units seg display cs ++ e.undoStack := by
  induction cs generalizing e with
  | nil => rfl
  | cons c cs ih =>
    rw [List.forall_mem_cons] at hcs
    calc
      (e.run seg display (c :: cs)).undoStack = ((c.apply seg display e).run seg display cs).undoStack := rfl
      _ = (c.apply seg display e).units seg display cs ++ (e.begun c).undoStack := by
        rw [ih hcs.2, undoStack_apply seg display hcs.1]
      _ = e.units seg display (c :: cs) ++ e.undoStack := by rw [undoStack_begun, units, List.append_assoc]

theorem undo_of_undoStack {e : Editor} {s : EditorSnapshot} {rest : List EditorSnapshot} (hstack : e.undoStack = s :: rest) :
    e.undo = { e.restored s rest with snappedFromCursorCol := e.snappedFromCursorCol } := by
  unfold undo exitHistoryBrowsing
  dsimp only
  rw [hstack]
  rfl

theorem undos_of_undoStack {e : Editor} {top rest : List EditorSnapshot} {s : EditorSnapshot}
    (hstack : e.undoStack = top ++ s :: rest) :
    undo^[top.length + 1] e = { e.restored s rest with snappedFromCursorCol := e.snappedFromCursorCol } := by
  induction top generalizing e with
  | nil => exact undo_of_undoStack hstack
  | cons first top ih =>
    have hundo : e.undo =
        { e.restored first (top ++ s :: rest) with snappedFromCursorCol := e.snappedFromCursorCol } :=
      undo_of_undoStack hstack
    rw [List.length_cons, Function.iterate_succ_apply, hundo, ih rfl]
    rfl

end Editor

namespace EditorObject

variable {o : EditorObject}

theorem Separate.run (h : o.Separate) (cs : List Command) :
    (o.run seg display cs).view = o.view.run seg display cs ∧ (o.run seg display cs).Separate := by
  induction cs generalizing o with
  | nil => exact ⟨rfl, h⟩
  | cons c cs ih =>
    rcases h.step seg display c with ⟨hview, hsep⟩
    rcases ih hsep with ⟨hrun, hsep'⟩
    rw [hview] at hrun
    exact ⟨hrun, hsep'⟩

theorem Separate.undos (h : o.Separate) (k : ℕ) :
    (EditorObject.undo^[k] o).view = Editor.undo^[k] o.view ∧ (EditorObject.undo^[k] o).Separate := by
  induction k generalizing o with
  | zero => exact ⟨rfl, h⟩
  | succ k ih =>
    rcases ih h.undo.2 with ⟨hview, hsep⟩
    rw [h.undo.1] at hview
    exact ⟨hview, hsep⟩

end EditorObject

open EditorObject in
/-- Undos give back what was there before the latest units of a run. Where no column is left that a vertical move has
snapped from, they leave an editor that goes on as one with that state. -/
theorem undo_inverse (before cs : List Command) (hcs : ∀ c ∈ cs, c.isUndoable = true) (i : ℕ) (s : EditorSnapshot)
    (hunit : ((EditorObject.new.run seg display before).view.units seg display cs)[i]? = some s) :
    let start := EditorObject.new.run seg display before
    let done := start.run seg display cs
    let undone := EditorObject.undo^[i + 1] done
    undone.view.snapshot = s ∧
      (done.snappedFromCursorCol = none → ∀ ds, (undone.run seg display ds).view =
        (done.view.restored s ((start.view.units seg display cs).drop (i + 1) ++ start.view.undoStack)).run
          seg display ds) := by
  intro start done undone
  have hstart : start.Separate := (separate_new.run seg display before).2
  rcases hstart.run seg display cs with ⟨hview, hdone⟩
  rcases hdone.undos (i + 1) with ⟨hundone, hsep⟩
  rcases List.getElem?_eq_some_iff.mp hunit with ⟨hi, hs⟩
  have hsplit : start.view.units seg display cs =
      (start.view.units seg display cs).take i ++ s :: (start.view.units seg display cs).drop (i + 1) := by
    rw [← hs, ← List.drop_eq_getElem_cons hi, List.take_append_drop]
  have hlength : ((start.view.units seg display cs).take i).length = i := List.length_take_of_le hi.le
  have hstack : done.view.undoStack = (start.view.units seg display cs).take i ++
      s :: ((start.view.units seg display cs).drop (i + 1) ++ start.view.undoStack) := by
    rw [hview, Editor.undoStack_run seg display hcs, ← List.cons_append, ← List.append_assoc, ← hsplit]
  have hundos := Editor.undos_of_undoStack hstack
  rw [hlength] at hundos
  refine ⟨?_, fun hsnapped ds => ?_⟩
  · rw [hundone, hundos]
    rfl
  · have hsnapped' : done.view.snappedFromCursorCol = none := hsnapped
    rw [(hsep.run seg display ds).1, hundone, hundos, hsnapped']
    rfl

/-- Pairs of surrogates are one. -/
def pairSurrogates : JsString → List JsString
  | high :: low :: text =>
    if 0xD800 ≤ high ∧ high ≤ 0xDBFF ∧ 0xDC00 ≤ low ∧ low ≤ 0xDFFF then [high, low] :: pairSurrogates text
    else [high] :: pairSurrogates (low :: text)
  | [u] => [[u]]
  | [] => []

def surrogatePairs : Segmenters where
  graphemes text := indexed 0 ((pairSurrogates text).map fun segment => { segment })
  words text := [{ segment := text, isWordLike := true }]

/-- A pair of surrogates is two columns wide. -/
def unitsWide : Display where
  graphemeWidth := List.length
  isCjk _ := false

/-- `ab`, a newline and a pair of surrogates; the cursor goes up, left and down into the pair. -/
def typedPair : List Command :=
  [.insertCharacter (JsString.ofAscii "a"), .insertCharacter (JsString.ofAscii "b"), .addNewLine,
    .insertCharacter [0xD83D, 0xDE00], .moveCursor 80 (-1) 0, .moveCursor 80 0 (-1), .moveCursor 80 1 0]

/-- A line is ended, the end is taken back, and the cursor goes up. -/
theorem undo_inverse_newLine :
    let typed : List Command := [.insertCharacter (JsString.ofAscii "a"), .addNewLine]
    let done := EditorObject.new.run surrogatePairs unitsWide typed
    let line : EditorSnapshot := ⟨{ lines := [JsString.ofAscii "a"], cursorLine := 0, cursorCol := 1 }, [], 0⟩
    (EditorObject.undo done).view.snapshot = line ∧
      ((EditorObject.undo done).run surrogatePairs unitsWide [.moveCursor 80 (-1) 0]).view =
        (done.view.restored line [{ line with state := { lines := [[]], cursorLine := 0, cursorCol := 0 } }]).run
          surrogatePairs unitsWide [.moveCursor 80 (-1) 0] := by
  intro typed done line
  have h := undo_inverse surrogatePairs unitsWide [] typed (by decide) 0 line rfl
  exact ⟨h.1, h.2 rfl [.moveCursor 80 (-1) 0]⟩

open EditorObject in
/-- The pair is taken back, and its column is left: the cursor goes up to another column than it would in the restored
state. -/
theorem undo_keeps_snap : ∃ (cs ds : List Command) (s : EditorSnapshot) (rest : List EditorSnapshot),
    (∀ c ∈ cs, c.isUndoable = true) ∧ EditorObject.new.view.units surrogatePairs unitsWide cs = s :: rest ∧
    ((EditorObject.undo (EditorObject.new.run surrogatePairs unitsWide cs)).run surrogatePairs unitsWide
        ds).view.state.cursorCol ≠
      (((EditorObject.new.run surrogatePairs unitsWide cs).view.restored s rest).run surrogatePairs unitsWide
        ds).state.cursorCol :=
  ⟨typedPair, [.moveCursor 80 (-1) 0], _, _, by decide, rfl, by decide⟩

end Phi.Tui

import Phi.Server.Router

/-!
# At most one open handle

A session is opened only if it is neither hosted nor being opened, and its entry is deleted only when its handle is
closed or has terminated. So of all handles of a session at most one is open (`Hosting.unique`).
-/

set_option linter.unusedSectionVars false

namespace Phi.Server

variable {C S : Type} [DecidableEq C] [DecidableEq S]

theorem modifyAt_apply {α : Type} (table : ℕ → Option α) (i : ℕ) (f : α → α) (j : ℕ) :
    modifyAt table i f j = if j = i then (table j).map f else table j := rfl

theorem modifyAt_eq_some {α : Type} {table : ℕ → Option α} {i j : ℕ} {f : α → α} {x : α} :
    modifyAt table i f j = some x ↔ (j = i ∧ ∃ y, table j = some y ∧ f y = x) ∨ (j ≠ i ∧ table j = some x) := by
  rw [modifyAt_apply]
  split_ifs with h
  · simp [h]
  · simp [h]

theorem modifyAt_eq_map {α : Type} (table : ℕ → Option α) (i : ℕ) (f : α → α) :
    modifyAt table i f = fun j => (table j).map fun x => if j = i then f x else x := by
  funext j
  rw [modifyAt_apply]
  split_ifs with h
  · rfl
  · exact Option.map_id'.symm

theorem map_modifyAt {α β : Type} {table : ℕ → Option α} {i : ℕ} {f : α → α} {g : α → β} (h : ∀ x, g (f x) = g x) (j : ℕ) :
    (modifyAt table i f j).map g = (table j).map g := by
  rw [modifyAt_apply]
  split_ifs
  · cases table j with
    | none => rfl
    | some x => exact congrArg some (h x)
  · rfl

theorem deleteIf_apply {κ : Type} [DecidableEq κ] (table : κ → Option ℕ) (k : κ) (i : ℕ) (k' : κ) :
    deleteIf table k i k' = if k' = k ∧ table k = some i then none else table k' := by
  rw [deleteIf]
  split_ifs with h h' h'
  · rw [h'.1, Function.update_self]
  · rw [Function.update_of_ne (by tauto)]
  · exact absurd h'.2 h
  · rfl

/-- `close` has not settled, and the session has not terminated. -/
def Handle.IsOpen (x : Handle S) : Prop := x.closed = false ∧ x.terminated = false

def OpeningState.Settled : OpeningState → Prop
  | .settled _ => True
  | _ => False

/-- What the tables of the sessions, the openings and the handles have to do with each other. -/
structure Hosting (s : Sessions S) : Prop where
  freshHandle : ∀ h, s.nextHandle ≤ h → s.handles h = none
  freshOpening : ∀ p, s.nextOpening ≤ p → s.openings p = none
  hosted : ∀ id h, s.hostedSessions id = some h → (s.handles h).map (·.session) = some id
  listed : ∀ id p, s.openingSessions id = some p → (s.openings p).map (·.session) = some id
  running : ∀ p id state, s.openings p = some ⟨id, state⟩ → ¬state.Settled →
    s.openingSessions id = some p ∧ s.hostedSessions id = none
  draining : ∀ p id h, s.openings p = some ⟨id, .draining h⟩ → (s.handles h).map (·.session) = some id
  isOpen : ∀ h x, s.handles h = some x → x.IsOpen →
    s.hostedSessions x.session = some h
      ∨ ∃ p, s.openings p = some ⟨x.session, .draining h⟩

namespace Hosting

variable {s : Sessions S}

/-- Two open handles of a session are one. -/
theorem unique (h : Hosting s) {h₁ h₂ : ℕ} {x₁ x₂ : Handle S} (hx₁ : s.handles h₁ = some x₁)
    (hx₂ : s.handles h₂ = some x₂) (ho₁ : x₁.IsOpen) (ho₂ : x₂.IsOpen) (hid : x₁.session = x₂.session) : h₁ = h₂ := by
  rcases h.isOpen h₁ x₁ hx₁ ho₁ with hopen₁ | ⟨p₁, hp₁⟩ <;> rcases h.isOpen h₂ x₂ hx₂ ho₂ with hopen₂ | ⟨p₂, hp₂⟩
  · rw [hid, hopen₂] at hopen₁
    exact (Option.some.inj hopen₁).symm
  · have hnone := (h.running p₂ _ _ hp₂ not_false).2
    rw [← hid, hopen₁] at hnone
    cases hnone
  · have hnone := (h.running p₁ _ _ hp₁ not_false).2
    rw [hid, hopen₂] at hnone
    cases hnone
  · rw [hid] at hp₁
    have hsame := (h.running p₁ _ _ hp₁ not_false).1
    rw [(h.running p₂ _ _ hp₂ not_false).1] at hsame
    rw [Option.some.inj hsame, hp₁] at hp₂
    cases hp₂
    rfl

theorem init : Hosting ({} : Sessions S) where
  freshHandle _ _ := rfl
  freshOpening _ _ := rfl
  hosted _ _ h := by cases h
  listed _ _ h := by cases h
  running _ _ _ h := nomatch h
  draining _ _ _ h := nomatch h
  isOpen _ _ h := by cases h

/-- A new opening. -/
theorem beginOpening (h : Hosting s) {id : S} (hhosted : s.hostedSessions id = none)
    (hopening : s.openingSessions id = none) :
    Hosting { s with
      openings := Function.update s.openings s.nextOpening (some ⟨id, .resolving⟩)
      nextOpening := s.nextOpening + 1
      openingSessions := Function.update s.openingSessions id (some s.nextOpening) } := by
  have hnext := h.freshOpening _ le_rfl
  obtain ⟨h1, h2, h3, h4, h5, h6, h7⟩ := h
  refine ⟨h1, ?_, h3, ?_, ?_, ?_, fun g x hx ho => (h7 g x hx ho).imp_right ?_⟩
  · grind [Function.update_apply]
  · grind [Function.update_apply]
  · grind [Function.update_apply, OpeningState.Settled]
  · grind [Function.update_apply]
  · rintro ⟨p, hp⟩
    exact ⟨p, by grind [Function.update_apply]⟩

/-- An opening that has settled is taken off the table. -/
theorem unlist (h : Hosting s) {p : ℕ} {id : S} {result : Option ℕ} (hp : s.openings p = some ⟨id, .settled result⟩) :
    Hosting { s with openingSessions := deleteIf s.openingSessions id p } := by
  obtain ⟨h1, h2, h3, h4, h5, h6, h7⟩ := h
  refine ⟨h1, h2, h3, ?_, ?_, h6, h7⟩
  · grind [deleteIf_apply]
  · grind [deleteIf_apply, OpeningState.Settled]

/-- An opening goes on, or fails, that has no handle. -/
theorem setOpening (h : Hosting s) {p : ℕ} {id : S} {state state' : OpeningState} (hp : s.openings p = some ⟨id, state⟩)
    (hrunning : ¬state.Settled) (hbefore : ∀ g, state ≠ .draining g) (hafter : ∀ g, state' ≠ .draining g) :
    Hosting { s with openings := modifyAt s.openings p fun x => { x with state := state' } } := by
  obtain ⟨h1, h2, h3, h4, h5, h6, h7⟩ := h
  refine ⟨h1, ?_, h3, ?_, ?_, ?_, fun g x hx ho => (h7 g x hx ho).imp_right ?_⟩
  · grind [modifyAt_apply]
  · grind [modifyAt_apply]
  · grind [modifyAt_apply]
  · grind [modifyAt_apply]
  · rintro ⟨p', hp'⟩
    exact ⟨p', by grind [modifyAt_apply]⟩

/-- Handles are closed, or terminate. -/
theorem shut (h : Hosting s) {f : ℕ → Handle S → Handle S} (hsession : ∀ g x, (f g x).session = x.session)
    (hshut : ∀ g x, (f g x).IsOpen → x.IsOpen) : Hosting { s with handles := fun g => (s.handles g).map (f g) } := by
  have hmap (g : ℕ) : ((s.handles g).map (f g)).map (·.session) = (s.handles g).map (·.session) := by
    rw [Option.map_map]
    exact congrArg (fun e => (s.handles g).map e) (funext (hsession g))
  obtain ⟨h1, h2, h3, h4, h5, h6, h7⟩ := h
  refine ⟨?_, h2, ?_, h4, h5, ?_, ?_⟩
  · intro g hg
    show (s.handles g).map (f g) = none
    rw [h1 g hg]
    rfl
  · exact fun id g hg => (hmap g).trans (h3 id g hg)
  · exact fun p id g hp => (hmap g).trans (h6 p id g hp)
  · intro g x hx ho
    obtain ⟨y, hy, rfl⟩ := Option.map_eq_some_iff.mp hx
    rw [hsession]
    exact h7 g y hy (hshut g y ho)

/-- Sessions are no longer hosted, whose handles are not open. -/
theorem unhost (h : Hosting s) {hosted : S → Option ℕ} (hsub : ∀ id g, hosted id = some g → s.hostedSessions id = some g)
    (hshut : ∀ id g x, s.hostedSessions id = some g → s.handles g = some x → x.IsOpen → hosted id = some g) :
    Hosting { s with hostedSessions := hosted } := by
  obtain ⟨h1, h2, h3, h4, h5, h6, h7⟩ := h
  refine ⟨h1, h2, ?_, h4, ?_, h6, ?_⟩
  · exact fun id g hg => h3 id g (hsub id g hg)
  · intro p id state hp hrunning
    refine ⟨(h5 p id state hp hrunning).1, ?_⟩
    by_contra hne
    obtain ⟨g, hg⟩ := Option.ne_none_iff_exists'.mp hne
    have hnone := (h5 p id state hp hrunning).2
    rw [hsub id g hg] at hnone
    cases hnone
  · exact fun g x hx ho => (h7 g x hx ho).imp_left fun hg => hshut _ g x hg hx ho

/-- A handle comes into being, and is hosted, or closed again. -/
theorem addHandle (h : Hosting s) {p : ℕ} {id : S} {x : Handle S} (hp : s.openings p = some ⟨id, .opening⟩)
    (hx : x.session = id) :
    Hosting { s with
        handles := Function.update s.handles s.nextHandle (some x)
        nextHandle := s.nextHandle + 1
        openings := modifyAt s.openings p fun y => { y with state := .draining s.nextHandle } }
      ∧ Hosting { s with
        handles := Function.update s.handles s.nextHandle (some x)
        nextHandle := s.nextHandle + 1
        openings := modifyAt s.openings p fun y => { y with state := .settled (some s.nextHandle) }
        hostedSessions := Function.update s.hostedSessions id (some s.nextHandle) } := by
  have hnext := h.freshHandle _ le_rfl
  obtain ⟨hlisted, hnone⟩ := h.running p id _ hp not_false
  obtain ⟨h1, h2, h3, h4, h5, h6, h7⟩ := h
  constructor
  · refine ⟨?_, ?_, ?_, ?_, ?_, ?_, ?_⟩
    · grind [Function.update_apply]
    · grind [modifyAt_apply]
    · grind [Function.update_apply]
    · grind [modifyAt_apply]
    · grind [modifyAt_apply, OpeningState.Settled]
    · grind [modifyAt_apply, Function.update_apply]
    · intro g y hy ho
      by_cases hg : g = s.nextHandle
      · exact .inr ⟨p, by grind [modifyAt_apply, Function.update_apply]⟩
      · simp only [Function.update_apply, if_neg hg] at hy
        refine (h7 g y hy ho).imp_right fun ⟨q, hq⟩ => ⟨q, ?_⟩
        grind [modifyAt_apply]
  · refine ⟨?_, ?_, ?_, ?_, ?_, ?_, ?_⟩
    · grind [Function.update_apply]
    · grind [modifyAt_apply]
    · grind [Function.update_apply]
    · grind [modifyAt_apply]
    · grind [modifyAt_apply, Function.update_apply, OpeningState.Settled]
    · grind [modifyAt_apply, Function.update_apply]
    · intro g y hy ho
      by_cases hg : g = s.nextHandle
      · grind [modifyAt_apply, Function.update_apply]
      · simp only [Function.update_apply, if_neg hg] at hy
        rcases h7 g y hy ho with hhosted | ⟨q, hq⟩
        · grind [Function.update_apply]
        · exact .inr ⟨q, by grind [modifyAt_apply]⟩

/-- An opening fails whose handle has been closed again. -/
theorem endDraining (h : Hosting s) {p g : ℕ} {id : S} (hp : s.openings p = some ⟨id, .draining g⟩)
    (hshut : ∀ x, s.handles g = some x → ¬x.IsOpen) :
    Hosting { s with openings := modifyAt s.openings p fun y => { y with state := .settled none } } := by
  obtain ⟨h1, h2, h3, h4, h5, h6, h7⟩ := h
  refine ⟨h1, ?_, h3, ?_, ?_, ?_, fun g' x hx ho => (h7 g' x hx ho).imp_right ?_⟩
  · grind [modifyAt_apply]
  · grind [modifyAt_apply]
  · grind [modifyAt_apply, OpeningState.Settled]
  · grind [modifyAt_apply]
  · rintro ⟨p', hp'⟩
    exact ⟨p', by grind [modifyAt_apply]⟩

end Hosting

end Phi.Server

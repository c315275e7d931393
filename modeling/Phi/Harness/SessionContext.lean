import Phi.Data.Except
import Phi.Harness.Compaction

/-!
# The context of a session

Model of `buildSessionContext` of `packages/agent/src/harness/session/context.ts`, before a compaction and after it.
Custom entries enter the context through the projectors of the application. A preparation takes no projector: of the
entries that a cut keeps it retains the messages, and what is projected from a custom entry among them is gone with it.
-/

namespace Phi.Harness

open Coding (AgentMessage name roleOf)

variable {ε : Type}

/-- The projector for a custom type, if there is one; it may throw, and it may give `undefined`. -/
abbrev EntryProjectors (ε : Type) := JsString → Option (Entry → Except ε (Option (List AgentMessage)))

/-- What one entry adds to the context. -/
def projectEntry (entryProjectors : EntryProjectors ε) (entry : Entry) : Except ε (List AgentMessage) :=
  match entry.body with
  | .custom customType _ =>
    match entryProjectors customType with
    | none => .ok []
    | some projector => (projector entry).map fun projected => projected.getD []
  | _ => .ok (sessionEntryToContextMessages entry)

/-- The loop of `buildSessionContext` over its entries. -/
def projectEntries (entryProjectors : EntryProjectors ε) (entries : List Entry) : Except ε (List AgentMessage) :=
  entries.foldlM (fun messages entry => do
    let more ← projectEntry entryProjectors entry
    return messages ++ more) []

def buildSessionContext (entryProjectors : EntryProjectors ε) (pathEntries : List Entry) :
    Except ε (List AgentMessage) :=
  projectEntries entryProjectors (buildContextEntries pathEntries)

/-! ## The loop -/

section Loop

variable {entryProjectors : EntryProjectors ε}

theorem projectEntries_cons (entry : Entry) (entries : List Entry) :
    projectEntries entryProjectors (entry :: entries) = (do
      let more ← projectEntry entryProjectors entry
      let rest ← projectEntries entryProjectors entries
      return more ++ rest) := by
  have hfrom : ∀ (entries : List Entry) (messages : List AgentMessage),
      entries.foldlM (fun messages entry => do
        let more ← projectEntry entryProjectors entry
        return messages ++ more) messages = (do
          let rest ← projectEntries entryProjectors entries
          return messages ++ rest) := by
    intro entries
    induction entries with
    | nil =>
      intro messages
      simp [projectEntries]
    | cons e entries ih =>
      intro messages
      rw [projectEntries, List.foldlM_cons, List.foldlM_cons]
      cases projectEntry entryProjectors e with
      | error err => rfl
      | ok more =>
        simp only [ok_bind, pure_bind, List.nil_append]
        rw [ih (messages ++ more), ih more]
        cases projectEntries entryProjectors entries with
        | error err => rfl
        | ok rest => simp [pure, Except.pure]
  rw [projectEntries, List.foldlM_cons]
  cases projectEntry entryProjectors entry with
  | error err => rfl
  | ok more =>
    simp only [ok_bind, pure_bind, List.nil_append]
    exact hfrom entries more

theorem projectEntries_append (front back : List Entry) :
    projectEntries entryProjectors (front ++ back) = (do
      let early ← projectEntries entryProjectors front
      let late ← projectEntries entryProjectors back
      return early ++ late) := by
  induction front with
  | nil =>
    rw [List.nil_append]
    cases projectEntries entryProjectors back <;> rfl
  | cons e front ih =>
    rw [List.cons_append, projectEntries_cons, projectEntries_cons, ih]
    cases projectEntry entryProjectors e with
    | error err => rfl
    | ok more =>
      cases projectEntries entryProjectors front with
      | error err => rfl
      | ok early =>
        cases projectEntries entryProjectors back with
        | error err => rfl
        | ok late => simp [pure, Except.pure]

/-- Entries that no projector sees add their own messages. -/
theorem projectEntries_eq_ok {entries : List Entry}
    (h : ∀ e ∈ entries, projectEntry entryProjectors e = .ok (sessionEntryToContextMessages e)) :
    projectEntries entryProjectors entries = .ok (entries.flatMap sessionEntryToContextMessages) := by
  induction entries with
  | nil => rfl
  | cons e entries ih =>
    rw [List.forall_mem_cons] at h
    rw [projectEntries_cons, h.1, ih h.2]
    rfl

end Loop

/-! ## Before a compaction -/

/-- The entries that a preparation keeps the messages of. -/
def recentEntries (F : NumberFormat) (pathEntries : List Entry) (settings : CompactionSettings) : List Entry :=
  let entries := compactableEntries pathEntries
  entries.drop (findCutPoint F entries 0 entries.length settings.keepRecentTokens).firstKeptEntryIndex

/-- The entries in front of the cut. -/
def earlierEntries (F : NumberFormat) (pathEntries : List Entry) (settings : CompactionSettings) : List Entry :=
  let entries := compactableEntries pathEntries
  entries.take (findCutPoint F entries 0 entries.length settings.keepRecentTokens).firstKeptEntryIndex

theorem earlier_append_recent (F : NumberFormat) (pathEntries : List Entry) (settings : CompactionSettings) :
    earlierEntries F pathEntries settings ++ recentEntries F pathEntries settings = compactableEntries pathEntries :=
  List.take_append_drop _ _

def Entry.isCustom (entry : Entry) : Bool :=
  match entry.body with
  | .custom _ _ => true
  | _ => false

theorem projectEntry_eq (entryProjectors : EntryProjectors ε) {e : Entry}
    (h : e.isCustom = true → projectEntry entryProjectors e = .ok []) :
    projectEntry entryProjectors e = .ok (sessionEntryToContextMessages e) := by
  cases hbody : e.body with
  | custom customType data =>
    have hmessages : sessionEntryToContextMessages e = [] := by rw [sessionEntryToContextMessages, hbody]
    rw [hmessages]
    exact h (by rw [Entry.isCustom, hbody])
  | _ => rw [projectEntry, hbody]

/-- The virtual entries show what the previous compaction shows of its tail. -/
theorem flatMap_virtualRetainedEntries (prevCompaction : Entry) (retainedTail : List AgentMessage) :
    (virtualRetainedEntries prevCompaction retainedTail).flatMap sessionEntryToContextMessages
      = retainedTail.filter isContextMessage := by
  have hnone : ∀ e ∈ virtualRetainedEntries prevCompaction retainedTail, e.compaction? = none := by
    intro e he
    obtain ⟨x, -, rfl⟩ := List.mem_map.mp he
    rfl
  rw [flatMap_sessionEntryToContextMessages hnone, filter_virtualRetainedEntries]

theorem isCustom_virtualRetainedEntries (prevCompaction : Entry) (retainedTail : List AgentMessage) :
    ∀ e ∈ virtualRetainedEntries prevCompaction retainedTail, e.isCustom = false := by
  intro e he
  obtain ⟨x, -, rfl⟩ := List.mem_map.mp he
  rfl

/-- **The context is the last summary with what the entries contribute that a preparation cuts.** -/
theorem buildSessionContext_eq (entryProjectors : EntryProjectors ε) (pathEntries : List Entry) :
    buildSessionContext entryProjectors pathEntries = (do
      let messages ← projectEntries entryProjectors (compactableEntries pathEntries)
      return summaryMessages pathEntries ++ messages) := by
  have hspec := lastCompaction_loop_spec pathEntries pathEntries.length
  rw [← lastCompaction] at hspec
  rw [buildSessionContext, buildContextEntries, summaryMessages, compactableEntries]
  cases hlast : lastCompaction pathEntries with
  | none =>
    simp only [List.nil_append]
    cases projectEntries entryProjectors pathEntries <;> rfl
  | some last =>
    obtain ⟨i, compaction⟩ := last
    rw [hlast] at hspec
    obtain ⟨e, he, hcompaction⟩ := Option.bind_eq_some_iff.mp hspec.2.1
    have hbody : e.body = .compaction compaction := by
      rw [Entry.compaction?] at hcompaction
      split at hcompaction
      next c hbody => rw [hbody, Option.some.inj hcompaction]
      · cases hcompaction
    have hentry : projectEntry entryProjectors e
        = .ok (createCompactionSummaryMessage compaction.summary compaction.tokensBefore e.timestamp
          :: compaction.retainedTail.filter isContextMessage) := by
      rw [projectEntry, hbody]
      simp only [sessionEntryToContextMessages, hbody]
    have htail : projectEntries entryProjectors (virtualRetainedEntries e compaction.retainedTail)
        = .ok (compaction.retainedTail.filter isContextMessage) := by
      rw [projectEntries_eq_ok fun v hv => ?_, flatMap_virtualRetainedEntries]
      refine projectEntry_eq entryProjectors fun hcustom => ?_
      rw [isCustom_virtualRetainedEntries e _ v hv] at hcustom
      cases hcustom
    simp only [he, Option.toList_some, List.flatMap_singleton, List.singleton_append, List.map_cons, List.map_nil]
    rw [projectEntries_cons, projectEntries_append, hentry, htail]
    simp only [ok_bind]
    cases projectEntries entryProjectors (pathEntries.drop (i + 1)) with
    | error err => rfl
    | ok messages => simp [pure, Except.pure]

/-- Before the compaction, the entries from the cut on contribute the end of the context. -/
theorem buildSessionContext_cut (entryProjectors : EntryProjectors ε) (F : NumberFormat) (pathEntries : List Entry)
    (settings : CompactionSettings) :
    buildSessionContext entryProjectors pathEntries = (do
      let early ← projectEntries entryProjectors (earlierEntries F pathEntries settings)
      let recent ← projectEntries entryProjectors (recentEntries F pathEntries settings)
      return summaryMessages pathEntries ++ (early ++ recent)) := by
  rw [buildSessionContext_eq, ← earlier_append_recent F pathEntries settings, projectEntries_append]
  cases projectEntries entryProjectors (earlierEntries F pathEntries settings) with
  | error err => rfl
  | ok early => cases projectEntries entryProjectors (recentEntries F pathEntries settings) <;> rfl

/-! ## After it -/

end Phi.Harness

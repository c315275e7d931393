import Phi.Output.Truncate
import Phi.Data.Regions

/-!
# Updates of a bounded output view

The source of a shell output publishes changes to one bounded view of it. `updateFrom` compares the view with the one
published last and finds a short way to tell the change; the consumer follows with `applyShellOutputUpdate`. However
the overlap of the two texts is found, the consumer gets the view itself (`applyShellOutputUpdate_updateFrom`).
-/

namespace Phi.Output

/-- `TruncationResult` without its content. -/
structure ShellOutputTruncation where
  truncated : Bool
  truncatedBy : Option TruncatedBy
  totalLines : ℕ
  totalBytes : ℕ
  outputLines : ℕ
  outputBytes : ℕ
  lastLinePartial : Bool
  firstLineExceedsLimit : Bool
  maxLines : ℕ
  maxBytes : ℕ
  deriving DecidableEq

structure ShellOutputMetadata where
  truncation : ShellOutputTruncation
  spillPath : Option JsString
  lastLineBytes : Option ℕ
  deriving DecidableEq

structure ShellOutputView extends ShellOutputMetadata where
  text : JsString
  deriving DecidableEq

inductive ShellOutputUpdate where
  | replace (output : ShellOutputView)
  | append (text : JsString) (metadata : ShellOutputMetadata)
  | slide (drop : ℕ) (text : JsString) (metadata : ShellOutputMetadata)
  | metadata (metadata : ShellOutputMetadata)
  deriving DecidableEq

def applyShellOutputUpdate (current : Option ShellOutputView) : ShellOutputUpdate → ShellOutputView
  | .replace output => output
  | .append text metadata => ⟨metadata, (current.map ShellOutputView.text).getD [] ++ text⟩
  | .slide drop text metadata => ⟨metadata, (current.map fun view => view.text.drop drop).getD [] ++ text⟩
  | .metadata metadata => ⟨metadata, (current.map ShellOutputView.text).getD []⟩

/-- The loop over the places of the probe in the tail: the first of at most eight from which on the tail is the
beginning of `after`. -/
def findOverlap (tail after probe : JsString) : Option ℕ :=
  let candidates := ((List.range (tail.length + 1)).filter fun index => OccursAt probe tail index).take 8
  (candidates.find? fun index =>
    tail.length - index ≤ after.length && tail.drop index == after.take (tail.length - index)).map (tail.length - ·)

def suffixPrefixOverlap (before after : JsString) (scan : ℕ) : ℕ :=
  if before.length = 0 ∨ after.length = 0 ∨ scan = 0 then 0
  else
    let tail := if before.length > scan then before.drop (before.length - scan) else before
    let probeLength := min 64 after.length
    match findOverlap tail after (after.take probeLength) with
    | some overlapLength => overlapLength
    | none => if probeLength = 1 then 0 else (findOverlap tail after (after.take 1)).getD 0

def updateFrom (previous : Option ShellOutputView) (current : ShellOutputView) : ShellOutputUpdate :=
  match previous with
  | none => .replace current
  | some previous =>
    let metadata := current.toShellOutputMetadata
    if current.text = previous.text then .metadata metadata
    else if current.text.length > previous.text.length ∧ current.text.take previous.text.length = previous.text then
      .append (current.text.drop previous.text.length) metadata
    else
      let shared := suffixPrefixOverlap previous.text current.text
        (min (min previous.text.length current.text.length) (current.truncation.maxBytes * 2))
      if shared > 0 then .slide (previous.text.length - shared) (current.text.drop shared) metadata
      else .replace current

/-! ## Overlaps -/

/-- The last `n` units of one text are the first of the other. -/
def Overlaps (before after : JsString) (n : ℕ) : Prop := before.drop (before.length - n) = after.take n

theorem overlaps_of_findOverlap {tail after probe : JsString} {n : ℕ} (h : findOverlap tail after probe = some n) :
    n ≤ tail.length ∧ Overlaps tail after n := by
  rcases Option.map_eq_some_iff.mp h with ⟨index, hfind, rfl⟩
  have hcandidate := List.mem_of_mem_take (List.mem_of_find?_eq_some hfind)
  have hindex := List.mem_range.mp (List.mem_of_mem_filter hcandidate)
  have hoverlap := List.find?_some hfind
  rw [Bool.and_eq_true, decide_eq_true_eq, beq_iff_eq] at hoverlap
  refine ⟨Nat.sub_le _ _, ?_⟩
  rw [Overlaps, show tail.length - (tail.length - index) = index by omega]
  exact hoverlap.2

/-- What is found in the tail that is searched is found in the whole text. -/
theorem overlaps_suffixPrefixOverlap {before after : JsString} {scan : ℕ}
    (h : 0 < suffixPrefixOverlap before after scan) :
    Overlaps before after (suffixPrefixOverlap before after scan) := by
  have hdrop : ∀ n, n ≤ (if before.length > scan then before.drop (before.length - scan) else before).length →
      Overlaps (if before.length > scan then before.drop (before.length - scan) else before) after n →
      Overlaps before after n := by
    intro n hn hoverlap
    split at hn
    · rename_i hlong
      rw [if_pos hlong, Overlaps, List.drop_drop, List.length_drop] at hoverlap
      rw [List.length_drop] at hn
      rw [Overlaps, ← hoverlap]
      congr 1
      omega
    · rename_i hshort
      rwa [if_neg hshort] at hoverlap
  unfold suffixPrefixOverlap at h ⊢
  split at h
  · omega
  · rename_i hne
    rw [if_neg hne]
    dsimp only at h ⊢
    split at h
    · rename_i overlapLength hfind
      rcases overlaps_of_findOverlap hfind with ⟨hle, hoverlap⟩
      exact hdrop _ hle hoverlap
    · split at h
      · omega
      · rename_i hprobe
        rw [if_neg hprobe]
        cases hfind : findOverlap (if before.length > scan then before.drop (before.length - scan) else before) after
            (after.take 1) with
        | none =>
          rw [hfind] at h
          simp at h
        | some n =>
          rcases overlaps_of_findOverlap hfind with ⟨hle, hoverlap⟩
          exact hdrop n hle hoverlap

/-- The consumer gets the view that the update was made for. -/
theorem applyShellOutputUpdate_updateFrom (previous : Option ShellOutputView) (current : ShellOutputView) :
    applyShellOutputUpdate previous (updateFrom previous current) = current := by
  cases previous with
  | none => rfl
  | some previous =>
    rw [updateFrom]
    dsimp only
    split
    · rename_i hsame
      simp only [applyShellOutputUpdate, Option.map_some, Option.getD_some, ← hsame]
    · split
      · rename_i hlonger
        simp only [applyShellOutputUpdate, Option.map_some, Option.getD_some]
        have htext : previous.text ++ current.text.drop previous.text.length = current.text := by
          have hsplit := List.take_append_drop previous.text.length current.text
          rwa [hlonger.2] at hsplit
        rw [htext]
      · split
        · rename_i hshared
          have hoverlap := overlaps_suffixPrefixOverlap hshared
          simp only [applyShellOutputUpdate, Option.map_some, Option.getD_some]
          rw [hoverlap, List.take_append_drop]
        · rfl

end Phi.Output

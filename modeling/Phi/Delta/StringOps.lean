import Phi.Data.Utf8
import Phi.Delta.Diff

/-!
# Texts that the ops of a string carry

`diffString` cuts the new text behind an overlap with the old one. An old text without lone surrogates does not end in
the middle of a pair, so the cut is not in the middle of one either: what the ops carry has no lone surrogates
(`overlap_diffString`).
-/

namespace Phi

namespace Text

/-- A cut behind a unit that is no high surrogate takes no pair apart. -/
theorem Paired.take_drop {s : JsString} (hs : Paired s) (n : ℕ)
    (hlast : ∀ u ∈ (s.take n).getLast?, isHighSurrogate u = false) : Paired (s.take n) ∧ Paired (s.drop n) := by
  induction hs generalizing n with
  | nil => simpa using Paired.nil
  | @unit u s hu hs ih =>
    cases n with
    | zero => exact ⟨.nil, .unit hu hs⟩
    | succ n =>
      have hrest : ∀ v ∈ (s.take n).getLast?, isHighSurrogate v = false := by
        intro v hv
        apply hlast
        rw [List.take_succ_cons, List.getLast?_cons, hv]
        rfl
      exact ⟨.unit hu (ih n hrest).1, (ih n hrest).2⟩
  | @pair u v s hu hv hs ih =>
    match n with
    | 0 => exact ⟨.nil, .pair hu hv hs⟩
    | 1 => exact absurd (hlast u rfl) (by simp [hu])
    | n + 2 =>
      have hrest : ∀ w ∈ (s.take n).getLast?, isHighSurrogate w = false := by
        intro w hw
        apply hlast
        rw [List.take_succ_cons, List.take_succ_cons, List.getLast?_cons, List.getLast?_cons, hw]
        rfl
      exact ⟨.pair hu hv (ih n hrest).1, (ih n hrest).2⟩

/-- A text without lone surrogates does not end in a high one. -/
theorem Paired.getLast {s : JsString} (hs : Paired s) : ∀ u ∈ s.getLast?, isHighSurrogate u = false := by
  induction hs with
  | nil => simp
  | @unit u s hu _ ih =>
    intro v hv
    rw [List.getLast?_cons, Option.mem_def, Option.some.injEq] at hv
    cases hs : s.getLast? with
    | none =>
      rw [hs] at hv
      exact hv ▸ (Bool.or_eq_false_iff.mp hu).1
    | some w =>
      rw [hs] at hv
      exact ih v (hv ▸ hs)
  | @pair u v s hu hv _ ih =>
    intro w hw
    rw [List.getLast?_cons, List.getLast?_cons, Option.mem_def, Option.some.injEq, Option.getD_some] at hw
    cases hs : s.getLast? with
    | none =>
      rw [hs, Option.getD_none] at hw
      simp only [isLowSurrogate, Bool.and_eq_true, decide_eq_true_eq] at hv
      simp only [isHighSurrogate, Bool.and_eq_false_iff, decide_eq_false_iff_not, ← hw]
      omega
    | some x =>
      rw [hs] at hw
      exact ih w (hw ▸ hs)

end Text

namespace Delta

open Text (Paired)

theorem overlap_le (a b : JsString) (scan probe maxCandidates : ℕ) :
    overlap a b scan probe maxCandidates ≤ a.length := by
  have htail : ∀ {h n}, probeOverlap (if a.length > scan then a.drop (a.length - scan) else a) b h
      maxCandidates = some n → n ≤ a.length := by
    intro h n hn
    refine (probeOverlap_sound hn).1.trans ?_
    split
    · rw [List.length_drop]
      omega
    · exact le_refl _
  simp only [overlap]
  split
  · exact Nat.zero_le _
  split
  · next n hn => exact htail hn
  split
  · exact Nat.zero_le _
  · cases hp : probeOverlap (if a.length > scan then a.drop (a.length - scan) else a) b 1 maxCandidates with
    | none => exact Nat.zero_le _
    | some n => exact htail hp

/-- The length that is returned is one of both texts. -/
theorem overlap_bounds (a b : JsString) (scan probe maxCandidates : ℕ) :
    overlap a b scan probe maxCandidates ≤ a.length ∧ overlap a b scan probe maxCandidates ≤ b.length := by
  have hle := overlap_le a b scan probe maxCandidates
  have hlength := congrArg List.length (overlap_sound a b scan probe maxCandidates)
  rw [List.length_drop, List.length_take] at hlength
  exact ⟨hle, by omega⟩

/-- The text that an op carries: a string as its value, or what it appends. -/
def Op.payload : Op → Option JsString
  | .r (.string text) => some text
  | .s _ (.string text) => some text
  | .a _ text => some text
  | _ => none

/-- What is left of the new text behind an overlap with the old one. -/
theorem paired_drop_overlap {before after : JsString} (hbefore : Paired before) (hafter : Paired after)
    (scan probe maxCandidates : ℕ) : Paired (after.drop (overlap before after scan probe maxCandidates)) := by
  refine (hafter.take_drop _ ?_).2
  rw [← overlap_sound]
  intro u hu
  refine hbefore.getLast u ?_
  rw [List.getLast?_drop] at hu
  split at hu
  · cases hu
  · exact hu

theorem paired_payload {before after : JsString} (hbefore : Paired before) (hafter : Paired after) (scan : ℕ)
    (path : Path) : ∀ op ∈ diffString scan before after path, ∀ text ∈ op.payload, Paired text := by
  intro op hop text htext
  unfold diffString at hop
  split at hop
  · cases hop
  split at hop
  · next hpath =>
    rw [emitSet, if_pos hpath, List.mem_singleton] at hop
    subst hop
    cases htext
    exact hafter
  split at hop
  · next hstarts =>
    rw [List.mem_singleton] at hop
    subst hop
    cases htext
    refine (hafter.take_drop _ ?_).2
    rw [hstarts.2]
    exact hbefore.getLast
  dsimp only at hop
  split at hop
  · rw [List.mem_singleton] at hop
    subst hop
    cases htext
    exact hafter
  · rcases List.mem_cons.mp hop with rfl | hop
    · cases htext
    · split at hop
      · rw [List.mem_singleton] at hop
        subst hop
        cases htext
        exact paired_drop_overlap hbefore hafter scan 64 8
      · cases hop

/-- What `overlap` returns is an overlap, whatever the bounds of its search are, and the ops of texts without lone
surrogates carry texts without lone surrogates. -/
theorem overlap_diffString :
    (∀ (a b : JsString) (scan probe maxCandidates : ℕ),
      overlap a b scan probe maxCandidates ≤ a.length ∧ overlap a b scan probe maxCandidates ≤ b.length ∧
        a.drop (a.length - overlap a b scan probe maxCandidates) = b.take (overlap a b scan probe maxCandidates)) ∧
    ∀ (before after : JsString) (path : Path) (scan : ℕ), Paired before → Paired after →
      ∀ op ∈ diffString scan before after path, ∀ text ∈ op.payload, Paired text := by
  refine ⟨fun a b scan probe maxCandidates => ?_, fun before after path scan hbefore hafter => ?_⟩
  · obtain ⟨ha, hb⟩ := overlap_bounds a b scan probe maxCandidates
    exact ⟨ha, hb, overlap_sound a b scan probe maxCandidates⟩
  · exact paired_payload hbefore hafter scan path

/-- A pair of surrogates in both texts, at the end of one and at the start of the other. -/
theorem overlap_diffString_pair : ∀ op ∈ diffString 100 [0x61, 0xD83D, 0xDE00] [0xD83D, 0xDE00, 0x62] [.index 0],
    ∀ text ∈ op.payload, Paired text :=
  overlap_diffString.2 _ _ _ _ (.unit rfl (.pair rfl rfl .nil)) (.pair rfl rfl (.unit rfl .nil))

end Delta

end Phi

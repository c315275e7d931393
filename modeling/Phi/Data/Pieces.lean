import Phi.Data.Regions

/-!
# Replacing piece by piece

A content is cut into pieces that stand at offsets of their own. `pieceOf` is what replacing regions makes of one
piece: its elements outside of the regions, and the new texts of the regions that start on it. Putting the pieces
together is replacing in the whole content (`replaceRegions_eq`), and a piece that no region touches stays as it is.

`layPieces` puts pieces together of which only the touched ones are replaced, and the others are taken from elsewhere.
-/

namespace Phi

variable {α β : Type*}

/-- Regions that follow one another start in their order. -/
theorem Consecutive.pairwise_le {lo hi : ℕ} {rs : List (Region α)} (h : Consecutive lo hi rs) :
    rs.Pairwise fun a b => a.start ≤ b.start := by
  induction rs generalizing lo with
  | nil => exact .nil
  | cons r rs ih =>
    refine List.pairwise_cons.mpr ⟨?_, ih h.2⟩
    intro r' hr'
    exact (Nat.le_add_right _ _).trans (h.2.forall_mem r' hr').1

/-! ## One piece -/

namespace Region

/-- The end of what a region touches: an empty one touches the place where it stands. -/
def reach (r : Region α) : ℕ := max r.stop (r.start + 1)

theorem stop_le_reach (r : Region α) : r.stop ≤ r.reach := le_max_left _ _

theorem start_lt_reach (r : Region α) : r.start < r.reach := Nat.lt_of_lt_of_le (Nat.lt_succ_self _) (le_max_right _ _)

theorem reach_of_pos {r : Region α} (hpos : 0 < r.length) : r.reach = r.stop :=
  max_eq_left (Nat.lt_add_of_pos_right hpos)

theorem reach_le {r : Region α} {hi : ℕ} (hstop : r.stop ≤ hi) (hstart : r.start < hi) : r.reach ≤ hi :=
  max_le hstop hstart

/-- The region covers the index or, if it is empty, stands at it. -/
def covers (r : Region α) (i : ℕ) : Bool := r.start ≤ i && i < r.stop

def touches (r : Region α) (offset length : ℕ) : Bool := r.start < offset + length && offset < r.reach

end Region

/-- What replacing makes of the element at an index. -/
def unitOf (rs : List (Region α)) (i : ℕ) (a : α) : List α :=
  (rs.filter fun r => r.start = i).flatMap Region.text ++ if rs.any fun r => r.covers i then [] else [a]

/-- What replacing makes of the piece at an offset. -/
def pieceOf (rs : List (Region α)) : ℕ → List α → List α
  | _, [] => []
  | offset, a :: piece => unitOf rs offset a ++ pieceOf rs (offset + 1) piece

theorem pieceOf_append (rs : List (Region α)) (offset : ℕ) (p q : List α) :
    pieceOf rs offset (p ++ q) = pieceOf rs offset p ++ pieceOf rs (offset + p.length) q := by
  induction p generalizing offset with
  | nil => simp [pieceOf]
  | cons a p ih =>
    rw [List.cons_append, pieceOf, pieceOf, ih, List.append_assoc, List.length_cons, Nat.add_assoc, Nat.add_comm 1]

theorem unitOf_congr {rs rs' : List (Region α)} {i : ℕ} (a : α)
    (htexts : (rs.filter fun r => r.start = i).flatMap Region.text = (rs'.filter fun r => r.start = i).flatMap Region.text)
    (hcovers : (rs.any fun r => r.covers i) = rs'.any fun r => r.covers i) : unitOf rs i a = unitOf rs' i a := by
  rw [unitOf, unitOf, htexts, hcovers]

/-- Regions that do not reach the index do nothing to its element. -/
theorem unitOf_append_left {rs rs' : List (Region α)} {i : ℕ} (a : α) (h : ∀ r ∈ rs, r.reach ≤ i) :
    unitOf (rs ++ rs') i a = unitOf rs' i a := by
  apply unitOf_congr
  · rw [List.filter_append, List.filter_eq_nil_iff.mpr, List.nil_append]
    intro r hr heq
    have hlt := r.start_lt_reach
    have hle := h r hr
    simp only [decide_eq_true_eq] at heq
    omega
  · rw [List.any_append, List.any_eq_false.mpr, Bool.false_or]
    intro r hr hcov
    have hle := r.stop_le_reach.trans (h r hr)
    simp only [Region.covers, Bool.and_eq_true, decide_eq_true_eq] at hcov
    omega

/-- Regions behind the index do nothing to its element. -/
theorem unitOf_append_right {rs rs' : List (Region α)} {i : ℕ} (a : α) (h : ∀ r ∈ rs', i < r.start) :
    unitOf (rs ++ rs') i a = unitOf rs i a := by
  apply unitOf_congr
  · have hnone : (rs'.filter fun r => r.start = i) = [] := by
      rw [List.filter_eq_nil_iff]
      intro r hr heq
      have hlt := h r hr
      simp only [decide_eq_true_eq] at heq
      omega
    rw [List.filter_append, hnone, List.append_nil]
  · have hnone : (rs'.any fun r => r.covers i) = false := by
      rw [List.any_eq_false]
      intro r hr hcov
      have hlt := h r hr
      simp only [Region.covers, Bool.and_eq_true, decide_eq_true_eq] at hcov
      omega
    rw [List.any_append, hnone, Bool.or_false]

theorem pieceOf_append_left {rs rs' : List (Region α)} {offset : ℕ} {piece : List α}
    (h : ∀ r ∈ rs, r.reach ≤ offset) : pieceOf (rs ++ rs') offset piece = pieceOf rs' offset piece := by
  induction piece generalizing offset with
  | nil => rfl
  | cons a piece ih =>
    rw [pieceOf, pieceOf, unitOf_append_left a h, ih fun r hr => (h r hr).trans (Nat.le_succ _)]

theorem pieceOf_append_right {rs rs' : List (Region α)} {offset : ℕ} {piece : List α}
    (h : ∀ r ∈ rs', offset + piece.length ≤ r.start) : pieceOf (rs ++ rs') offset piece = pieceOf rs offset piece := by
  induction piece generalizing offset with
  | nil => rfl
  | cons a piece ih =>
    rw [List.length_cons] at h
    rw [pieceOf, pieceOf, unitOf_append_right a fun r hr => (by have := h r hr; omega),
      ih fun r hr => (by have := h r hr; omega)]

theorem pieceOf_nil (offset : ℕ) (piece : List α) : pieceOf [] offset piece = piece := by
  induction piece generalizing offset with
  | nil => rfl
  | cons a piece ih =>
    rw [pieceOf, ih]
    rfl

/-- A piece that no region touches stays as it is. -/
theorem pieceOf_of_untouched {rs : List (Region α)} {offset : ℕ} {piece : List α}
    (h : ∀ r ∈ rs, r.touches offset piece.length = false) : pieceOf rs offset piece = piece := by
  induction piece generalizing offset with
  | nil => rfl
  | cons a piece ih =>
    have hnot : ∀ r ∈ rs, offset + (piece.length + 1) ≤ r.start ∨ r.reach ≤ offset := by
      intro r hr
      have hr := h r hr
      simp only [Region.touches, List.length_cons, Bool.and_eq_false_iff, decide_eq_false_iff_not] at hr
      omega
    have hunit : unitOf rs offset a = [a] := by
      have hnone : unitOf rs offset a = unitOf [] offset a := unitOf_congr a ?_ ?_
      · exact hnone
      · rw [List.filter_eq_nil_iff.mpr]
        · rfl
        · intro r hr heq
          have hlt := r.start_lt_reach
          have hor := hnot r hr
          simp only [decide_eq_true_eq] at heq
          omega
      · apply List.any_eq_false.mpr
        intro r hr hcov
        have hle := r.stop_le_reach
        have hor := hnot r hr
        simp only [Region.covers, Bool.and_eq_true, decide_eq_true_eq] at hcov
        omega
    rw [pieceOf, hunit, ih]
    · rfl
    · intro r hr
      have hor := hnot r hr
      simp only [Region.touches, Bool.and_eq_false_iff, decide_eq_false_iff_not]
      omega

/-! ## The whole content -/

/-- What a region covers is left out. -/
theorem pieceOf_covered {r : Region α} {rs : List (Region α)} {offset : ℕ} {piece : List α}
    (hstart : r.start < offset) (hstop : offset + piece.length ≤ r.stop) (hrs : ∀ r' ∈ rs, r.stop ≤ r'.start) :
    pieceOf (r :: rs) offset piece = [] := by
  induction piece generalizing offset with
  | nil => rfl
  | cons a piece ih =>
    rw [List.length_cons] at hstop
    have hfilter : ((r :: rs).filter fun r' => r'.start = offset) = [] := by
      rw [List.filter_eq_nil_iff, List.forall_mem_cons]
      refine ⟨by simpa using hstart.ne, ?_⟩
      intro r' hr' heq
      have hle := hrs r' hr'
      simp only [decide_eq_true_eq] at heq
      omega
    have hcov : r.covers offset = true := by
      simp only [Region.covers, Bool.and_eq_true, decide_eq_true_eq]
      omega
    rw [pieceOf, unitOf, hfilter, List.any_cons, hcov, Bool.true_or, if_pos rfl, ih (by omega) (by omega)]
    rfl

/-- A piece on which a region starts is its text and what the others make of the rest. -/
theorem pieceOf_start {r : Region α} {rs : List (Region α)} {piece : List α} (hne : piece ≠ [])
    (hlen : r.length ≤ piece.length) (hrs : ∀ r' ∈ rs, r.stop ≤ r'.start) :
    pieceOf (r :: rs) r.start piece = r.text ++ pieceOf rs r.stop (piece.drop r.length) := by
  cases piece with
  | nil => exact absurd rfl hne
  | cons a piece =>
    have hfilter : ((r :: rs).filter fun r' => r'.start = r.start).flatMap Region.text =
        r.text ++ (rs.filter fun r' => r'.start = r.start).flatMap Region.text := by
      rw [List.filter_cons_of_pos (by simp), List.flatMap_cons]
    rcases Nat.eq_zero_or_pos r.length with hzero | hpos
    · -- an empty region puts its text in front of the element
      have hstop : r.stop = r.start := by rw [Region.stop, hzero, Nat.add_zero]
      have hcov : r.covers r.start = false := by simp [Region.covers, hstop]
      have hreach : r.reach ≤ r.start + 1 := by
        rw [Region.reach, hstop]
        omega
      rw [hzero, List.drop_zero, hstop, pieceOf, pieceOf, unitOf, hfilter, List.any_cons, hcov, Bool.false_or, unitOf,
        List.append_assoc, List.append_assoc, List.append_assoc]
      congr 3
      exact @pieceOf_append_left _ [r] rs _ _ (by simpa using hreach)
    · have hbehind : (rs.filter fun r' => r'.start = r.start) = [] := by
        rw [List.filter_eq_nil_iff]
        intro r' hr' heq
        have hle : r.start + r.length ≤ r'.start := hrs r' hr'
        simp only [decide_eq_true_eq] at heq
        omega
      have hcov : r.covers r.start = true := by simp [Region.covers, Region.stop, hpos]
      have hsplit : piece = piece.take (r.length - 1) ++ piece.drop (r.length - 1) := (List.take_append_drop ..).symm
      have htake : (piece.take (r.length - 1)).length = r.length - 1 := by
        rw [List.length_take]
        rw [List.length_cons] at hlen
        omega
      have hcovered : pieceOf (r :: rs) (r.start + 1) (piece.take (r.length - 1)) = [] := by
        refine pieceOf_covered (Nat.lt_succ_self _) ?_ hrs
        rw [htake, Region.stop]
        omega
      have hstop : r.start + 1 + (r.length - 1) = r.stop := by
        rw [Region.stop]
        omega
      have hrest : pieceOf (r :: rs) r.stop (piece.drop (r.length - 1)) = pieceOf rs r.stop (piece.drop (r.length - 1)) :=
        @pieceOf_append_left _ [r] rs _ _ (by simp [Region.reach_of_pos hpos])
      rw [pieceOf, unitOf, hfilter, hbehind, List.any_cons, hcov, Bool.true_or, if_pos rfl]
      conv_lhs => rw [hsplit, pieceOf_append, hcovered, htake, hstop, hrest]
      rw [show (a :: piece).drop r.length = piece.drop (r.length - 1) by
        rw [← Nat.sub_add_cancel hpos, List.drop_succ_cons, Nat.add_sub_cancel]]
      simp

/-- Regions that follow one another and start within the content are replaced piece by piece. -/
theorem replaceRegions_eq {lo hi : ℕ} {rs : List (Region α)} {content : List α} (h : Consecutive lo hi rs)
    (hhi : hi ≤ lo + content.length) (hin : ∀ r ∈ rs, r.start < lo + content.length) :
    replaceRegions lo rs content = pieceOf rs lo content := by
  induction rs generalizing lo content with
  | nil => exact (pieceOf_nil lo content).symm
  | cons r rs ih =>
    rw [List.forall_mem_cons] at hin
    have hlo := h.1
    have hstop := h.2.le
    have hstart : r.start + r.length = r.stop := rfl
    have htake : (content.take (r.start - lo)).length = r.start - lo := by
      rw [List.length_take]
      omega
    have hbefore : pieceOf (r :: rs) lo (content.take (r.start - lo)) = content.take (r.start - lo) := by
      have hall : pieceOf ([] ++ (r :: rs)) lo (content.take (r.start - lo)) =
          pieceOf [] lo (content.take (r.start - lo)) := by
        apply pieceOf_append_right
        rw [htake]
        intro r' hr'
        rcases List.mem_cons.mp hr' with rfl | hr'
        · omega
        · have hle := (h.2.forall_mem r' hr').1
          omega
      rw [List.nil_append, pieceOf_nil] at hall
      exact hall
    have hrest : replaceRegions r.stop rs (content.drop (r.stop - lo)) = pieceOf rs r.stop (content.drop (r.stop - lo)) := by
      have hlen : r.stop + (content.drop (r.stop - lo)).length = lo + content.length := by
        rw [List.length_drop]
        omega
      apply ih h.2
      · rw [hlen]
        exact hhi
      · rw [hlen]
        exact hin.2
    have hat : pieceOf (r :: rs) r.start (content.drop (r.start - lo)) =
        r.text ++ pieceOf rs r.stop (content.drop (r.stop - lo)) := by
      rw [pieceOf_start, List.drop_drop, show r.start - lo + r.length = r.stop - lo by omega]
      · intro hnil
        rw [List.drop_eq_nil_iff] at hnil
        omega
      · rw [List.length_drop]
        omega
      · exact fun r' hr' => (h.2.forall_mem r' hr').1
    conv_rhs => rw [← List.take_append_drop (r.start - lo) content, pieceOf_append, hbefore, htake,
      show lo + (r.start - lo) = r.start by omega, hat]
    rw [replaceRegions, hrest, List.append_assoc]

/-! ## Pieces put together -/

/-- Pieces one after another: of one that some region touches, what replacing makes of it, put down by `put`; of any
other one what is kept of it. -/
def layPieces (rs : List (Region α)) (base : β → List α) (put : List α → List α) (kept : β → List α) :
    ℕ → List β → List α
  | _, [] => []
  | offset, p :: ps =>
    (if rs.any fun r => r.touches offset (base p).length then put (pieceOf rs offset (base p)) else kept p)
      ++ layPieces rs base put kept (offset + (base p).length) ps

/-- The pieces that no region touches. -/
def untouched (rs : List (Region α)) (base : β → List α) : ℕ → List β → List β
  | _, [] => []
  | offset, p :: ps =>
    if rs.any fun r => r.touches offset (base p).length then untouched rs base (offset + (base p).length) ps
    else p :: untouched rs base (offset + (base p).length) ps

variable {rs rs' : List (Region α)} {base kept kept' : β → List α} {put : List α → List α} {offset : ℕ} {ps qs : List β}

theorem mem_of_mem_untouched {p : β} (h : p ∈ untouched rs base offset ps) : p ∈ ps := by
  induction ps generalizing offset with
  | nil => exact h
  | cons q ps ih =>
    rw [untouched] at h
    split at h
    · exact List.mem_cons_of_mem _ (ih h)
    · rcases List.mem_cons.mp h with rfl | h
      · exact List.mem_cons_self ..
      · exact List.mem_cons_of_mem _ (ih h)

theorem layPieces_append : layPieces rs base put kept offset (ps ++ qs) = layPieces rs base put kept offset ps
    ++ layPieces rs base put kept (offset + (ps.map base).flatten.length) qs := by
  induction ps generalizing offset with
  | nil => rfl
  | cons p ps ih =>
    rw [List.cons_append, layPieces, layPieces, ih, List.append_assoc, List.map_cons, List.flatten_cons,
      List.length_append, Nat.add_assoc]

theorem layPieces_map {γ : Type*} (f : γ → β) {ps : List γ} : layPieces rs base put kept offset (ps.map f) =
    layPieces rs (fun p => base (f p)) put (fun p => kept (f p)) offset ps := by
  induction ps generalizing offset with
  | nil => rfl
  | cons p ps ih =>
    rw [List.map_cons, layPieces, layPieces, ih]

/-- Pieces in front of all the regions are kept. -/
theorem layPieces_of_before (h : ∀ r ∈ rs, offset + (ps.map base).flatten.length ≤ r.start) :
    layPieces rs base put kept offset ps = (ps.map kept).flatten := by
  induction ps generalizing offset with
  | nil => rfl
  | cons p ps ih =>
    simp only [List.map_cons, List.flatten_cons, List.length_append] at h ⊢
    have hnone : (rs.any fun r => r.touches offset (base p).length) = false := by
      rw [List.any_eq_false]
      intro r hr htouch
      have hle := h r hr
      simp only [Region.touches, Bool.and_eq_true, decide_eq_true_eq] at htouch
      omega
    rw [layPieces, hnone, ih fun r hr => by rw [Nat.add_assoc]; exact h r hr]
    rfl

/-- Of pieces that are all touched nothing is kept. -/
theorem layPieces_of_touched (h : ∀ k, (hk : k < ps.length) → ∃ r ∈ rs,
    r.touches (offset + ((ps.take k).map base).flatten.length) (base ps[k]).length = true) :
    layPieces rs base id kept offset ps = pieceOf rs offset (ps.map base).flatten := by
  induction ps generalizing offset with
  | nil => rfl
  | cons p ps ih =>
    have hfirst : (rs.any fun r => r.touches offset (base p).length) = true := by
      rcases h 0 (Nat.zero_lt_succ _) with ⟨r, hr, htouch⟩
      exact List.any_eq_true.mpr ⟨r, hr, htouch⟩
    rw [layPieces, hfirst, if_pos rfl, List.map_cons, List.flatten_cons, pieceOf_append, ih]
    · rfl
    · intro k hk
      rcases h (k + 1) (Nat.succ_lt_succ hk) with ⟨r, hr, htouch⟩
      refine ⟨r, hr, ?_⟩
      simpa [Nat.add_assoc] using htouch

/-- Where every piece is kept as it is, putting them together is replacing in the whole. -/
theorem layPieces_self : layPieces rs base id base offset ps = pieceOf rs offset (ps.map base).flatten := by
  induction ps generalizing offset with
  | nil => rfl
  | cons p ps ih =>
    rw [layPieces, ih, List.map_cons, List.flatten_cons, pieceOf_append]
    split
    · rfl
    · rename_i hnone
      have hkept : pieceOf rs offset (base p) = base p := pieceOf_of_untouched (by simpa using hnone)
      rw [hkept]

/-- Regions that do not reach the first piece do nothing. -/
theorem layPieces_append_left (h : ∀ r ∈ rs, r.reach ≤ offset) :
    layPieces (rs ++ rs') base put kept offset ps = layPieces rs' base put kept offset ps := by
  induction ps generalizing offset with
  | nil => rfl
  | cons p ps ih =>
    have hnone : (rs.any fun r => r.touches offset (base p).length) = false := by
      rw [List.any_eq_false]
      intro r hr htouch
      have hle := h r hr
      simp only [Region.touches, Bool.and_eq_true, decide_eq_true_eq] at htouch
      omega
    rw [layPieces, layPieces, List.any_append, hnone, Bool.false_or, pieceOf_append_left h,
      ih fun r hr => (h r hr).trans (Nat.le_add_right _ _)]

/-- What distributes over texts distributes over the pieces. -/
theorem map_layPieces {f : List α → List α} (hnil : f [] = []) (happend : ∀ a b, f (a ++ b) = f a ++ f b) :
    f (layPieces rs base put kept offset ps) =
      layPieces rs base (fun piece => f (put piece)) (fun p => f (kept p)) offset ps := by
  induction ps generalizing offset with
  | nil => exact hnil
  | cons p ps ih =>
    rw [layPieces, layPieces, happend, ih]
    split <;> rfl

theorem length_layPieces_le (h : ∀ p ∈ ps, (kept p).length ≤ (kept' p).length) :
    (layPieces rs base put kept offset ps).length ≤ (layPieces rs base put kept' offset ps).length := by
  induction ps generalizing offset with
  | nil => exact le_rfl
  | cons p ps ih =>
    rw [List.forall_mem_cons] at h
    have hrest := @ih (offset + (base p).length) h.2
    rw [layPieces, layPieces, List.length_append, List.length_append]
    split
    · omega
    · have hfirst := h.1
      omega

/-- Two ways to keep the pieces, one of which never keeps more, give the same only if they agree on all pieces that
are kept. -/
theorem layPieces_eq_iff (h : ∀ p ∈ ps, (kept p).length ≤ (kept' p).length) :
    layPieces rs base put kept offset ps = layPieces rs base put kept' offset ps ↔
      ∀ p ∈ untouched rs base offset ps, kept p = kept' p := by
  induction ps generalizing offset with
  | nil => simp [layPieces, untouched]
  | cons p ps ih =>
    rw [List.forall_mem_cons] at h
    rw [layPieces, layPieces, untouched]
    split
    · rw [List.append_cancel_left_eq]
      exact ih h.2
    · rw [List.forall_mem_cons, ← ih h.2]
      constructor
      · intro heq
        have hlength := congrArg List.length heq
        have hrest : (layPieces rs base put kept (offset + (base p).length) ps).length ≤
            (layPieces rs base put kept' (offset + (base p).length) ps).length := length_layPieces_le h.2
        rw [List.length_append, List.length_append] at hlength
        have hfirst := h.1
        exact List.append_inj heq (by omega)
      · rintro ⟨hfirst, hrest⟩
        rw [hfirst, hrest]

end Phi

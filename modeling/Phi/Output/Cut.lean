import Phi.Output.Truncate

/-!
# Truncating a part of an output

An output is kept in part: its end, or its beginning followed by something else. If the part holds a few bytes more
than the limit, truncating it gives the lines that truncating the whole output gives (`content_truncateTailBy_cut`,
`content_truncateHead_cut`), because the loops over the lines stop before they reach the cut.
-/

namespace Phi.Output

variable {fromEnd : JsString → ℕ → JsString} {options : TruncationOptions}

/-! ## The loop from the end -/

namespace Kept

/-- The bytes kept, with the newline that another line needs. -/
def load (kept : Kept) : ℕ := kept.bytes + if kept.lines.length > 0 then 1 else 0

/-- One more line in front. -/
def push (kept : Kept) (line : JsString) : Kept :=
  { kept with lines := line :: kept.lines, bytes := kept.load + byteLength line }

theorem load_push (kept : Kept) (line : JsString) : (kept.push line).load = kept.load + (byteLength line + 1) := by
  simp [load, push, Nat.add_assoc]

@[simp] theorem lines_push (kept : Kept) (line : JsString) : (kept.push line).lines = line :: kept.lines := rfl

@[simp] theorem load_empty : ({} : Kept).load = 0 := rfl

end Kept

theorem collectBack_cons (kept : Kept) (line : JsString) (rest : List JsString) :
    collectBack fromEnd options kept (line :: rest) =
      if kept.lines.length < options.maxLines then
        if options.maxBytes < kept.load + byteLength line then
          if kept.lines.length = 0 then
            ⟨[fromEnd line options.maxBytes], byteLength (fromEnd line options.maxBytes), .bytes, true⟩
          else { kept with truncatedBy := .bytes }
        else collectBack fromEnd options (kept.push line) rest
      else kept := by
  have hload : kept.bytes + (byteLength line + if kept.lines.length > 0 then 1 else 0) = kept.load + byteLength line := by
    rw [Kept.load]
    omega
  rw [collectBack]
  simp only [hload]
  rfl

/-- What the loop makes of the lines it comes to later, it makes of them behind any lines. -/
theorem collectBack_append_congr {front x y : List JsString} {kept : Kept}
    (h : ∀ kept' : Kept, kept'.load = kept.load + (front.map (byteLength · + 1)).sum →
      kept'.lines.length = kept.lines.length + front.length →
      (collectBack fromEnd options kept' x).lines = (collectBack fromEnd options kept' y).lines) :
    (collectBack fromEnd options kept (front ++ x)).lines = (collectBack fromEnd options kept (front ++ y)).lines := by
  induction front generalizing kept with
  | nil => exact h kept (by simp) rfl
  | cons line front ih =>
    rw [List.cons_append, List.cons_append, collectBack_cons, collectBack_cons]
    split
    · split
      · rfl
      · apply ih
        intro kept' hload hlength
        refine h kept' ?_ ?_
        · rw [hload, Kept.load_push, List.map_cons, List.sum_cons, Nat.add_assoc]
        · rw [hlength, Kept.lines_push, List.length_cons, List.length_cons]
          omega
    · rfl

/-- A line that does not fit behind others ends the loop. -/
theorem collectBack_stop {kept : Kept} {line : JsString} {rest : List JsString} (hlines : 0 < kept.lines.length)
    (hload : options.maxBytes < kept.load + byteLength line) :
    (collectBack fromEnd options kept (line :: rest)).lines = kept.lines := by
  rw [collectBack_cons, if_pos hload, if_neg (show ¬kept.lines.length = 0 by omega)]
  split <;> rfl

/-- Lines that fit are all kept. -/
theorem collectBack_all {ls : List JsString} {kept : Kept} (hlines : kept.lines.length + ls.length ≤ options.maxLines)
    (hload : kept.load + (ls.map (byteLength · + 1)).sum ≤ options.maxBytes + 1) :
    (collectBack fromEnd options kept ls).lines = ls.reverse ++ kept.lines := by
  induction ls generalizing kept with
  | nil => rfl
  | cons line ls ih =>
    simp only [List.map_cons, List.sum_cons, List.length_cons] at hlines hload
    rw [collectBack_cons, if_pos (by omega), if_neg (by omega), ih]
    · simp
    · rw [Kept.lines_push, List.length_cons]
      omega
    · rw [Kept.load_push]
      omega

/-! ## The end of an output -/

/-- The lines of a text with something in front: the first of them is longer, and others stand before it. -/
theorem splitLines_append (front : JsString) {text : JsString} (htext : text ≠ []) :
    ∃ before start first rest, front = unlines 10 before ++ start ∧ splitLinesForCounting text = first :: rest ∧
      splitLinesForCounting (front ++ text) = before ++ (start ++ first) :: rest ∧
      byteLength text ≤ byteLength first + 1 + (rest.map (byteLength · + 1)).sum := by
  rcases exists_unlines 10 front with ⟨before, start, rfl, hbefore, hstart⟩
  rcases exists_unlines 10 text with ⟨ls, tail, rfl, hls, htail⟩
  cases ls with
  | nil =>
    have hne : tail ≠ [] := by simpa using htext
    refine ⟨before, start, tail, [], rfl, ?_, ?_, by simp⟩
    · rw [splitLinesForCounting_unlines hls htail, if_neg hne]
      rfl
    · rw [unlines_nil, List.nil_append, List.append_assoc,
        splitLinesForCounting_unlines hbefore (by simp [hstart, htail]), if_neg (by simp [hne])]
  | cons l ls =>
    have hcons := List.forall_mem_cons.mp hls
    refine ⟨before, start, l, ls ++ if tail = [] then [] else [tail], rfl, ?_, ?_, ?_⟩
    · rw [splitLinesForCounting_unlines hls htail, List.cons_append]
    · have hall : ∀ line ∈ before ++ (start ++ l) :: ls, 10 ∉ line := by
        simp only [List.mem_append, List.mem_cons]
        rintro line (hline | rfl | hline)
        · exact hbefore line hline
        · simp [hstart, hcons.1]
        · exact hcons.2 line hline
      have heq : unlines 10 before ++ start ++ (unlines 10 (l :: ls) ++ tail) =
          unlines 10 (before ++ (start ++ l) :: ls) ++ tail := by
        simp [unlines_append]
      rw [heq, splitLinesForCounting_unlines hall htail]
      simp
    · rw [byteLength_unlines]
      split
      · rename_i hnil
        simp [hnil]
      · simp
        omega

/-- A newline for each line: one more than the text has, if its last line is open. -/
theorem sum_splitLines_le (text : JsString) :
    ((splitLinesForCounting text).map (byteLength · + 1)).sum ≤ byteLength text + 1 := by
  rcases exists_unlines 10 text with ⟨ls, tail, rfl, hls, htail⟩
  rw [splitLinesForCounting_unlines hls htail, byteLength_unlines]
  split
  · simp
    omega
  · simp
    omega

theorem splitLines_ne_nil {text : JsString} (h : text ≠ []) : splitLinesForCounting text ≠ [] := by
  rcases splitLines_append [] h with ⟨-, -, first, rest, -, heq, -⟩
  rw [heq]
  exact List.cons_ne_nil _ _

theorem not_fits_of_lt {text : JsString} (h : options.maxBytes < byteLength text) : ¬Fits text options :=
  fun hfits => absurd hfits.2 (by omega)

theorem content_truncateTailBy {text : JsString} (h : ¬Fits text options) :
    (truncateTailBy fromEnd text options).content =
      joinLines (collectBack fromEnd options {} (splitLinesForCounting text).reverse).lines := by
  rw [truncateTailBy, if_neg h]
  rfl

/-- The end of an output is truncated as the output is, if it has two bytes more than the limit. -/
theorem content_truncateTailBy_cut (front : JsString) {text : JsString} (htext : options.maxBytes + 2 ≤ byteLength text)
    (hfrom : ∀ before start first, front = unlines 10 before ++ start → options.maxBytes < byteLength first →
      fromEnd (start ++ first) options.maxBytes = fromEnd first options.maxBytes) :
    (truncateTailBy fromEnd (front ++ text) options).content = (truncateTailBy fromEnd text options).content := by
  have hne : text ≠ [] := by
    rintro rfl
    simp at htext
  have hlonger := byteLength_le_append_left front text
  rw [content_truncateTailBy (not_fits_of_lt (by omega)), content_truncateTailBy (not_fits_of_lt (by omega))]
  rcases splitLines_append front hne with ⟨before, start, first, rest, hfront, hlines, hall, hbytes⟩
  rw [hlines, hall, List.reverse_append, List.reverse_cons, List.reverse_cons, List.append_assoc, List.singleton_append]
  refine congrArg joinLines (collectBack_append_congr fun kept hload hlength => ?_)
  rw [List.map_reverse, List.sum_reverse, Kept.load_empty, Nat.zero_add] at hload
  have hfirst := byteLength_le_append_left start first
  -- the loop has no room for the line with the cut
  have hlt : options.maxBytes < kept.load + byteLength first := by omega
  by_cases hempty : kept.lines.length = 0
  · have hrest : rest = [] := by
      rw [List.length_reverse] at hlength
      exact List.length_eq_zero_iff.mp (by omega)
    rw [hrest] at hbytes
    simp only [List.map_nil, List.sum_nil] at hbytes
    rw [collectBack_cons, collectBack_cons, if_pos (show _ < kept.load + byteLength first from hlt),
      if_pos (show _ < kept.load + byteLength (start ++ first) by omega),
      hfrom before start first hfront (by omega)]
  · rw [collectBack_stop (by omega) (by omega), collectBack_stop (by omega) (by omega)]

theorem splitLines_newline (front text : JsString) {cut : JsString} (hcut : 10 ∉ cut) :
    ∃ before start, splitLinesForCounting (front ++ (cut ++ 10 :: text)) =
      before ++ (start ++ cut) :: splitLinesForCounting text := by
  rcases exists_unlines 10 front with ⟨before, start, rfl, hbefore, hstart⟩
  rcases exists_unlines 10 text with ⟨ls, tail, rfl, hls, htail⟩
  have hall : ∀ line ∈ before ++ (start ++ cut) :: ls, 10 ∉ line := by
    simp only [List.mem_append, List.mem_cons]
    rintro line (hline | rfl | hline)
    · exact hbefore line hline
    · simp [hstart, hcut]
    · exact hls line hline
  have heq : unlines 10 before ++ start ++ (cut ++ 10 :: (unlines 10 ls ++ tail)) =
      unlines 10 (before ++ (start ++ cut) :: ls) ++ tail := by
    simp [unlines_append]
  refine ⟨before, start, ?_⟩
  rw [heq, splitLinesForCounting_unlines hall htail, splitLinesForCounting_unlines hls htail, List.append_assoc,
    List.cons_append]

/-- The lines behind a cut line are what truncating the output keeps, if they and the rest of the cut line have two
bytes more than the limit. -/
theorem content_truncateTailBy_behind (front : JsString) {text cut : JsString} (hcut : 10 ∉ cut) (htext : text ≠ [])
    (hbytes : options.maxBytes + 2 ≤ byteLength (cut ++ 10 :: text)) :
    (truncateTailBy fromEnd (front ++ (cut ++ 10 :: text)) options).content =
      joinLines (collectBack fromEnd options {} (splitLinesForCounting text).reverse).lines := by
  have hlonger := byteLength_le_append_left front (cut ++ 10 :: text)
  rw [content_truncateTailBy (not_fits_of_lt (by omega))]
  rcases splitLines_newline front text hcut with ⟨before, start, hlines⟩
  rcases splitLines_append [] htext with ⟨-, -, first, rest, -, hsplit, -, hsum⟩
  have hlong := byteLength_le_append_left start cut
  rw [byteLength_newline] at hbytes
  rw [hlines, List.reverse_append, List.reverse_cons, List.append_assoc]
  conv_rhs => rw [← List.append_nil (splitLinesForCounting text).reverse]
  refine congrArg joinLines (collectBack_append_congr fun kept hload hlength => ?_)
  rw [List.map_reverse, List.sum_reverse, Kept.load_empty, Nat.zero_add, hsplit, List.map_cons, List.sum_cons] at hload
  rw [List.length_reverse, hsplit, List.length_cons] at hlength
  rw [List.singleton_append, collectBack_stop (by omega) (by omega)]
  rfl

/-! ## The beginning of an output -/

namespace Kept

/-- The bytes kept, with the newline that the line with index `i` needs. -/
def loadAt (i : ℕ) (kept : Kept) : ℕ := kept.bytes + if i > 0 then 1 else 0

/-- One more line behind. -/
def concat (i : ℕ) (kept : Kept) (line : JsString) : Kept :=
  { kept with lines := kept.lines ++ [line], bytes := kept.loadAt i + byteLength line }

theorem loadAt_concat (i : ℕ) (kept : Kept) (line : JsString) :
    (kept.concat i line).loadAt (i + 1) = kept.loadAt i + (byteLength line + 1) := by
  simp [loadAt, concat, Nat.add_assoc]

end Kept

theorem collect_cons (i : ℕ) (kept : Kept) (line : JsString) (rest : List JsString) :
    collect options i kept (line :: rest) =
      if i < options.maxLines then
        if options.maxBytes < kept.loadAt i + byteLength line then { kept with truncatedBy := .bytes }
        else collect options (i + 1) (kept.concat i line) rest
      else kept := by
  have hload : kept.bytes + (byteLength line + if i > 0 then 1 else 0) = kept.loadAt i + byteLength line := by
    rw [Kept.loadAt]
    omega
  rw [collect]
  simp only [hload]
  rfl

theorem collect_append_congr {front x y : List JsString} {i : ℕ} {kept : Kept}
    (h : ∀ kept' : Kept, kept'.loadAt (i + front.length) = kept.loadAt i + (front.map (byteLength · + 1)).sum →
      (collect options (i + front.length) kept' x).lines = (collect options (i + front.length) kept' y).lines) :
    (collect options i kept (front ++ x)).lines = (collect options i kept (front ++ y)).lines := by
  induction front generalizing i kept with
  | nil => exact h kept (by simp)
  | cons line front ih =>
    have hlength : i + (line :: front).length = i + 1 + front.length := by
      rw [List.length_cons]
      omega
    rw [hlength] at h
    rw [List.cons_append, List.cons_append, collect_cons, collect_cons]
    split
    · split
      · rfl
      · apply ih
        intro kept' hload
        refine h kept' ?_
        rw [hload, Kept.loadAt_concat, List.map_cons, List.sum_cons, Nat.add_assoc]
    · rfl

/-- A line that does not fit ends the loop. -/
theorem collect_stop {i : ℕ} {kept : Kept} {line : JsString} {rest : List JsString}
    (hload : options.maxBytes < kept.loadAt i + byteLength line) :
    (collect options i kept (line :: rest)).lines = kept.lines := by
  rw [collect_cons, if_pos hload]
  split <;> rfl

/-- The lines of a text that goes on: its whole lines, and one more unless the text ends with them. -/
theorem splitLines_append_right {ls : List JsString} {tail : JsString} (hls : ∀ l ∈ ls, 10 ∉ l) (htail : 10 ∉ tail)
    (more : JsString) :
    tail = [] ∧ splitLinesForCounting (unlines 10 ls ++ tail ++ more) = ls ∨
      ∃ next rest, splitLinesForCounting (unlines 10 ls ++ tail ++ more) = ls ++ (tail ++ next) :: rest := by
  rcases exists_unlines 10 more with ⟨ls', tail', rfl, hls', htail'⟩
  cases ls' with
  | nil =>
    rw [unlines_nil, List.nil_append, List.append_assoc,
      splitLinesForCounting_unlines hls (show 10 ∉ tail ++ tail' by simp [htail, htail'])]
    split
    · rename_i hnil
      exact .inl ⟨(List.append_eq_nil_iff.mp hnil).1, List.append_nil _⟩
    · exact .inr ⟨tail', [], rfl⟩
  | cons l ls' =>
    have hcons := List.forall_mem_cons.mp hls'
    have hall : ∀ line ∈ ls ++ (tail ++ l) :: ls', 10 ∉ line := by
      simp only [List.mem_append, List.mem_cons]
      rintro line (hline | rfl | hline)
      · exact hls line hline
      · simp [htail, hcons.1]
      · exact hcons.2 line hline
    have heq : unlines 10 ls ++ tail ++ (unlines 10 (l :: ls') ++ tail') =
        unlines 10 (ls ++ (tail ++ l) :: ls') ++ tail' := by
      simp [unlines_append]
    refine .inr ⟨l, ls' ++ if tail' = [] then [] else [tail'], ?_⟩
    rw [heq, splitLinesForCounting_unlines hall htail']
    simp

theorem content_truncateHead_of_lt {text : JsString} (h : options.maxBytes < byteLength text) :
    (truncateHead text options).content =
      if options.maxBytes < byteLength ((splitLinesForCounting text).headD []) then []
      else joinLines (collect options 0 {} (splitLinesForCounting text)).lines := by
  rw [truncateHead, if_neg (not_fits_of_lt h)]
  dsimp only
  split <;> rfl

/-- The content comes from the whole lines of a beginning that has two bytes more than the limit. -/
theorem content_truncateHead_eq {ls : List JsString} {tail : JsString} (hls : ∀ l ∈ ls, 10 ∉ l) (htail : 10 ∉ tail)
    (hbytes : options.maxBytes + 2 ≤ byteLength (unlines 10 ls ++ tail)) (more : JsString) :
    (truncateHead (unlines 10 ls ++ tail ++ more) options).content =
      if options.maxBytes < byteLength (ls.headD tail) then [] else joinLines (collect options 0 {} ls).lines := by
  have hlonger := byteLength_le_append_right (unlines 10 ls ++ tail) more
  rw [content_truncateHead_of_lt (by omega)]
  rw [byteLength_unlines] at hbytes
  rcases splitLines_append_right hls htail more with ⟨rfl, hlines⟩ | ⟨next, rest, hlines⟩
  · rw [hlines]
  · have hnext := byteLength_le_append_right tail next
    rw [hlines]
    -- the loop has no room for the line that the beginning does not end
    have hcollect : (collect options 0 {} (ls ++ (tail ++ next) :: rest)).lines = (collect options 0 {} (ls ++ [])).lines := by
      refine collect_append_congr fun kept hload => ?_
      rw [show ({} : Kept).loadAt 0 = 0 from rfl] at hload
      exact collect_stop (by omega)
    rw [hcollect, List.append_nil]
    cases ls with
    | nil =>
      simp only [List.map_nil, List.sum_nil, Nat.zero_add] at hbytes
      have hlong : options.maxBytes < byteLength (([] ++ (tail ++ next) :: rest).headD []) := by
        rw [List.nil_append, List.headD_cons]
        omega
      have htail : options.maxBytes < byteLength (([] : List JsString).headD tail) := by
        rw [List.headD_nil]
        omega
      rw [if_pos hlong, if_pos htail]
    | cons l ls => rfl

/-- Outputs with a common beginning are truncated to the same lines, if it has two bytes more than the limit. -/
theorem content_truncateHead_cut {text : JsString} (htext : options.maxBytes + 2 ≤ byteLength text)
    (more more' : JsString) :
    (truncateHead (text ++ more) options).content = (truncateHead (text ++ more') options).content := by
  rcases exists_unlines 10 text with ⟨ls, tail, rfl, hls, htail⟩
  rw [content_truncateHead_eq hls htail htext, content_truncateHead_eq hls htail htext]

end Phi.Output

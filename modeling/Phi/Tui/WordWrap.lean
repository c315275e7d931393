import Phi.Edit.EditDiff

/-!
# Word wrapping in the editor

Model of `wordWrapLine` of `packages/tui/src/components/editor.ts`. Texts are lists of UTF-16 code units.

`graphemes` is what `Intl.Segmenter` makes of a text, `graphemeWidth` the width of one grapheme, and `isCjk` the test for
a grapheme that may be broken at; the visible width of a text is the sum over its graphemes. A line may be given in
segments that take several graphemes together, as paste markers do.

A segment that is wider than the line is wrapped by itself, and that takes a grapheme for what it can be split into. So
a grapheme that is wider than the line is wrapped for ever: the function returns exactly when there is none
(`wrapsWell_iff`), and then the chunks are the line cut at graphemes, and each fits.
-/

namespace Phi.Tui

/-! ## Model -/

structure TextChunk where
  text : JsString
  startIndex : ℕ
  endIndex : ℕ

structure Segment where
  segment : JsString
  index : ℕ

/-- `/\s/.test(char)`. -/
def isWhitespaceChar (char : JsString) : Bool := char.any Edit.isWhiteSpace

/-- The text behind a number at the front, if there is one. -/
def dropNumber (text : JsString) : Option JsString :=
  if text.takeWhile isDigit = [] then none else some (text.dropWhile isDigit)

/-- The text behind a literal at the front, if it stands there. -/
def dropLiteral (literal : String) (text : JsString) : Option JsString :=
  if JsString.ofAscii literal <+: text then some (text.drop (JsString.ofAscii literal).length) else none

/-- `/^\[paste #(\d+)( (\+\d+ lines|\d+ chars))?\]$/.test(segment)`. -/
def isPasteMarker (segment : JsString) : Bool :=
  match (dropLiteral "[paste #" segment).bind dropNumber with
  | none => false
  | some rest =>
    rest = JsString.ofAscii "]"
      || ((dropLiteral " +" rest).bind dropNumber) = some (JsString.ofAscii " lines]")
      || ((dropLiteral " " rest).bind dropNumber) = some (JsString.ofAscii " chars]")

/-- Pieces of a text with the places where they stand. -/
def segmentsFrom : ℕ → List JsString → List Segment
  | _, [] => []
  | index, piece :: pieces => ⟨piece, index⟩ :: segmentsFrom (index + piece.length) pieces

section Wrap

variable (graphemes : JsString → List JsString) (graphemeWidth : JsString → ℕ) (isCjk : JsString → Bool)

def widthOf (gs : List JsString) : ℕ := (gs.map graphemeWidth).sum

def visibleWidth (text : JsString) : ℕ := widthOf graphemeWidth (graphemes text)

/-- What the loop carries. The wrap opportunity is where a break is allowed, and the width up to there. -/
structure WrapState where
  chunks : List TextChunk := []
  currentWidth : ℕ := 0
  chunkStart : ℕ := 0
  wrapOppIndex : Option ℕ := none
  wrapOppWidth : ℕ := 0

/-- The chunk of the line between two indices. -/
def chunkOf (line : JsString) (startIndex endIndex : ℕ) : TextChunk :=
  ⟨(line.take endIndex).drop startIndex, startIndex, endIndex⟩

/-- The segment does not fit: the line is broken at the wrap opportunity, or in front of the segment. -/
def breakBefore (line : JsString) (maxWidth gWidth charIndex : ℕ) (s : WrapState) : WrapState :=
  let backtracked := s.wrapOppIndex.filter fun _ => s.currentWidth - s.wrapOppWidth + gWidth ≤ maxWidth
  match backtracked with
  | some wrapOppIndex =>
    { s with
      chunks := s.chunks ++ [chunkOf line s.chunkStart wrapOppIndex]
      chunkStart := wrapOppIndex
      currentWidth := s.currentWidth - s.wrapOppWidth
      wrapOppIndex := none }
  | none =>
    if s.chunkStart < charIndex then
      { s with
        chunks := s.chunks ++ [chunkOf line s.chunkStart charIndex]
        chunkStart := charIndex
        currentWidth := 0
        wrapOppIndex := none }
    else { s with wrapOppIndex := none }

/-- A segment that is wider than the line is replaced by its own chunks; the last of them stays open. -/
def placeChunks (charIndex : ℕ) (subChunks : List TextChunk) (s : WrapState) : WrapState :=
  let last := subChunks.getLastD ⟨[], 0, 0⟩
  { s with
    chunks := s.chunks
      ++ subChunks.dropLast.map fun sc => ⟨sc.text, charIndex + sc.startIndex, charIndex + sc.endIndex⟩
    chunkStart := charIndex + last.startIndex
    currentWidth := visibleWidth graphemes graphemeWidth last.text
    wrapOppIndex := none }

/-- Whether a break is allowed between a segment and the next one. -/
def isWrapOpportunity (grapheme next : JsString) : Bool :=
  let isWs := !isPasteMarker grapheme && isWhitespaceChar grapheme
  if isWs && (isPasteMarker next || !isWhitespaceChar next) then true
  else if !isWs && !isWhitespaceChar next then
    (!isPasteMarker grapheme && isCjk grapheme) || (!isPasteMarker next && isCjk next)
  else false

def advance (seg : Segment) (next : Option Segment) (gWidth : ℕ) (s : WrapState) : WrapState :=
  let s := { s with currentWidth := s.currentWidth + gWidth }
  match next.filter fun next => isWrapOpportunity isCjk seg.segment next.segment with
  | some next => { s with wrapOppIndex := some next.index, wrapOppWidth := s.currentWidth }
  | none => s

/-- One round of the loop; `wrap` is the recursive call. -/
def wrapSegment (wrap : JsString → Option (List TextChunk)) (line : JsString) (maxWidth : ℕ) (seg : Segment)
    (next : Option Segment) (s : WrapState) : Option WrapState :=
  let gWidth := visibleWidth graphemes graphemeWidth seg.segment
  let s := if maxWidth < s.currentWidth + gWidth then breakBefore line maxWidth gWidth seg.index s else s
  if maxWidth < gWidth then
    (wrap seg.segment).map fun subChunks => placeChunks graphemes graphemeWidth seg.index subChunks s
  else some (advance isCjk seg next gWidth s)

def wrapSegments (wrap : JsString → Option (List TextChunk)) (line : JsString) (maxWidth : ℕ) :
    List Segment → WrapState → Option WrapState
  | [], s => some s
  | seg :: segments, s =>
    (wrapSegment graphemes graphemeWidth isCjk wrap line maxWidth seg segments.head? s).bind
      (wrapSegments wrap line maxWidth segments)

/-- `none` when the calls are nested deeper than the fuel. -/
def wordWrapLine : ℕ → JsString → ℕ → Option (List Segment) → Option (List TextChunk)
  | 0, _, _, _ => none
  | fuel + 1, line, maxWidth, preSegmented =>
    if line = [] ∨ maxWidth = 0 then some [⟨[], 0, 0⟩]
    else if visibleWidth graphemes graphemeWidth line ≤ maxWidth then some [⟨line, 0, line.length⟩]
    else
      let segments := preSegmented.getD (segmentsFrom 0 (graphemes line))
      (wrapSegments graphemes graphemeWidth isCjk (fun grapheme => wordWrapLine fuel grapheme maxWidth none) line maxWidth
        segments {}).map fun s => s.chunks ++ [chunkOf line s.chunkStart line.length]

end Wrap

/-! ## Graphemes -/

/-- What is relied on of the segmenter: the graphemes are the text, none is empty, and a text cut between graphemes has
the graphemes it had before. -/
structure IsSegmenter (graphemes : JsString → List JsString) : Prop where
  flatten : ∀ text, (graphemes text).flatten = text
  ne_nil : ∀ text, ∀ g ∈ graphemes text, g ≠ []
  of_infix : ∀ text gs, gs <:+: graphemes text → graphemes gs.flatten = gs

/-- Every unit by itself. -/
def units (text : JsString) : List JsString := text.map fun u => [u]

theorem isSegmenter_units : IsSegmenter units where
  flatten text := by
    induction text with
    | nil => rfl
    | cons u text ih => rw [units, List.map_cons, List.flatten_cons, ← units, ih, List.singleton_append]
  ne_nil text := by simp [units]
  of_infix text gs h := by
    rcases h with ⟨a, b, hab⟩
    have hsub : ∀ g ∈ gs, ∃ u, g = [u] := by
      intro g hg
      have hmem : g ∈ units text := by
        rw [← hab]
        exact List.mem_append_left _ (List.mem_append_right _ hg)
      rcases List.mem_map.mp hmem with ⟨u, -, rfl⟩
      exact ⟨u, rfl⟩
    clear hab
    induction gs with
    | nil => rfl
    | cons g gs ih =>
      rw [List.forall_mem_cons] at hsub
      rcases hsub.1 with ⟨u, rfl⟩
      rw [List.flatten_cons, units, List.map_append, ← units, ← units, ih hsub.2]
      rfl

/-! ## Chunks -/

/-- The chunks of a line that is cut into runs of graphemes, from an index on. -/
def chunksFrom : ℕ → List (List JsString) → List TextChunk
  | _, [] => []
  | index, part :: parts =>
    ⟨part.flatten, index, index + part.flatten.length⟩ :: chunksFrom (index + part.flatten.length) parts

theorem chunksFrom_append (index : ℕ) (ps qs : List (List JsString)) : chunksFrom index (ps ++ qs) =
    chunksFrom index ps ++ chunksFrom (index + ps.flatten.flatten.length) qs := by
  induction ps generalizing index with
  | nil => rfl
  | cons part ps ih =>
    rw [List.cons_append, chunksFrom, chunksFrom, ih, List.flatten_cons, List.flatten_append, List.length_append,
      List.cons_append, Nat.add_assoc]

theorem map_chunksFrom (offset index : ℕ) (ps : List (List JsString)) :
    ((chunksFrom index ps).map fun c : TextChunk => (⟨c.text, offset + c.startIndex, offset + c.endIndex⟩ : TextChunk)) =
      chunksFrom (offset + index) ps := by
  induction ps generalizing index with
  | nil => rfl
  | cons part ps ih =>
    rw [chunksFrom, chunksFrom, List.map_cons, ih, Nat.add_assoc]

theorem exists_part_of_mem {index : ℕ} {ps : List (List JsString)} {c : TextChunk} (hc : c ∈ chunksFrom index ps) :
    ∃ part ∈ ps, c.text = part.flatten := by
  induction ps generalizing index with
  | nil => simp [chunksFrom] at hc
  | cons part ps ih =>
    rcases List.mem_cons.mp hc with rfl | hc
    · exact ⟨part, List.mem_cons_self .., rfl⟩
    · rcases ih hc with ⟨part', hmem, heq⟩
      exact ⟨part', List.mem_cons_of_mem _ hmem, heq⟩

theorem chunkOf_flatten (a m r : List JsString) : chunkOf (a ++ m ++ r).flatten a.flatten.length (a ++ m).flatten.length =
    ⟨m.flatten, a.flatten.length, (a ++ m).flatten.length⟩ := by
  have htake : (a ++ m ++ r).flatten.take (a ++ m).flatten.length = (a ++ m).flatten := by
    rw [show (a ++ m ++ r).flatten = (a ++ m).flatten ++ r.flatten from List.flatten_append, List.take_left]
  rw [chunkOf, htake, List.flatten_append, List.drop_left]

/-- The chunks follow one another between two indices. -/
def Contiguous : ℕ → ℕ → List TextChunk → Prop
  | lo, hi, [] => lo = hi
  | lo, hi, c :: cs => c.startIndex = lo ∧ lo ≤ c.endIndex ∧ Contiguous c.endIndex hi cs

theorem contiguous_chunksFrom (index : ℕ) (ps : List (List JsString)) :
    Contiguous index (index + ps.flatten.flatten.length) (chunksFrom index ps) := by
  induction ps generalizing index with
  | nil => rfl
  | cons part ps ih =>
    refine ⟨rfl, Nat.le_add_right _ _, ?_⟩
    have hrest := ih (index + part.flatten.length)
    rwa [Nat.add_assoc, ← List.length_append, ← List.flatten_append, ← List.flatten_cons] at hrest

/-- The text of a chunk is the part of the line between its indices. -/
theorem text_chunksFrom (before : List JsString) (ps : List (List JsString)) (after : List JsString) :
    ∀ c ∈ chunksFrom before.flatten.length ps,
      c.text = ((before ++ ps.flatten ++ after).flatten.take c.endIndex).drop c.startIndex := by
  induction ps generalizing before with
  | nil => simp [chunksFrom]
  | cons part ps ih =>
    rw [chunksFrom, List.forall_mem_cons]
    have hlength : before.flatten.length + part.flatten.length = (before ++ part).flatten.length := by
      rw [List.flatten_append, List.length_append]
    constructor
    · have hchunk := chunkOf_flatten before part (ps.flatten ++ after)
      rw [chunkOf, TextChunk.mk.injEq] at hchunk
      simp only [hlength, List.flatten_cons, List.append_assoc] at hchunk ⊢
      exact hchunk.1.symm
    · rw [hlength]
      intro c hc
      have hrest := ih (before ++ part) c hc
      simpa only [List.flatten_cons, List.append_assoc] using hrest

/-! ## One round -/

section Proofs

variable {graphemes : JsString → List JsString} {graphemeWidth : JsString → ℕ} {isCjk : JsString → Bool}
  {gs rest cur : List JsString} {parts : List (List JsString)} {maxWidth : ℕ} {s : WrapState} {line : JsString}

theorem widthOf_append (a b : List JsString) :
    widthOf graphemeWidth (a ++ b) = widthOf graphemeWidth a + widthOf graphemeWidth b := by
  rw [widthOf, List.map_append, List.sum_append, widthOf, widthOf]

theorem width_le_widthOf {g : JsString} (hg : g ∈ gs) : graphemeWidth g ≤ widthOf graphemeWidth gs :=
  List.single_le_sum (fun _ _ => Nat.zero_le _) _ (List.mem_map_of_mem hg)

/-- In the middle of the loop the line is the graphemes of the finished chunks, those of the open chunk, and the rest;
a wrap opportunity is a place within the open chunk. -/
structure Wrapping (graphemeWidth : JsString → ℕ) (gs : List JsString) (maxWidth : ℕ) (parts : List (List JsString))
    (cur rest : List JsString) (s : WrapState) : Prop where
  split : gs = parts.flatten ++ cur ++ rest
  chunks : s.chunks = chunksFrom 0 parts
  fits : ∀ part ∈ parts, widthOf graphemeWidth part ≤ maxWidth
  start : s.chunkStart = parts.flatten.flatten.length
  width : s.currentWidth = widthOf graphemeWidth cur
  le : widthOf graphemeWidth cur ≤ maxWidth
  opp : ∀ k ∈ s.wrapOppIndex, ∃ b c, cur = b ++ c ∧ k = (parts.flatten ++ b).flatten.length ∧
    s.wrapOppWidth = widthOf graphemeWidth b

/-- What is finished when the open chunk is closed behind its first graphemes. -/
theorem Wrapping.close {b c : List JsString} (h : Wrapping graphemeWidth gs maxWidth parts (b ++ c) rest s) :
    (s.chunks ++ [chunkOf gs.flatten s.chunkStart (parts.flatten ++ b).flatten.length] = chunksFrom 0 (parts ++ [b])) ∧
      (∀ part ∈ parts ++ [b], widthOf graphemeWidth part ≤ maxWidth) ∧ (parts ++ [b]).flatten = parts.flatten ++ b := by
  have hflat : (parts ++ [b]).flatten = parts.flatten ++ b := by simp
  have hle := h.le
  rw [widthOf_append] at hle
  refine ⟨?_, ?_, hflat⟩
  · have hsplit : gs = parts.flatten ++ b ++ (c ++ rest) := by
      rw [h.split]
      simp only [List.append_assoc]
    rw [h.chunks, h.start, hsplit, chunkOf_flatten, chunksFrom_append, Nat.zero_add, List.flatten_append,
      List.length_append]
    rfl
  · intro part hpart
    rcases List.mem_append.mp hpart with hpart | hpart
    · exact h.fits part hpart
    · rw [List.mem_singleton.mp hpart]
      omega

/-- Breaking in front of a segment leaves an open chunk that the segment fits behind, or an empty one. -/
theorem Wrapping.breakBefore (h : Wrapping graphemeWidth gs maxWidth parts cur rest s) (hne : ∀ g ∈ gs, g ≠ [])
    (gWidth : ℕ) : ∃ parts' cur',
      Wrapping graphemeWidth gs maxWidth parts' cur' rest
        (breakBefore gs.flatten maxWidth gWidth (parts.flatten ++ cur).flatten.length s) ∧
      parts'.flatten ++ cur' = parts.flatten ++ cur ∧
      (widthOf graphemeWidth cur' + gWidth ≤ maxWidth ∨ cur' = []) := by
  unfold Tui.breakBefore
  cases hopp : s.wrapOppIndex.filter fun _ => decide (s.currentWidth - s.wrapOppWidth + gWidth ≤ maxWidth) with
  | some k =>
    rw [Option.filter_eq_some_iff] at hopp
    rcases hopp with ⟨hk, hfits⟩
    rcases h.opp k hk with ⟨b, c, rfl, rfl, hwidth⟩
    rcases h.close with ⟨hchunks, hall, hflat⟩
    have hcurrent := h.width
    rw [widthOf_append] at hcurrent
    have hle := h.le
    rw [widthOf_append] at hle
    rw [decide_eq_true_eq] at hfits
    refine ⟨parts ++ [b], c, ⟨?_, hchunks, hall, ?_, ?_, by omega, by simp⟩, ?_, .inl (by omega)⟩
    · rw [hflat, h.split]
      simp only [List.append_assoc]
    · rw [hflat]
    · show s.currentWidth - s.wrapOppWidth = _
      omega
    · rw [hflat, List.append_assoc]
  | none =>
    dsimp only
    split
    · have h' : Wrapping graphemeWidth gs maxWidth parts (cur ++ []) rest s := by rwa [List.append_nil]
      rcases h'.close with ⟨hchunks, hall, hflat⟩
      refine ⟨parts ++ [cur], [], ⟨?_, hchunks, hall, ?_, rfl, Nat.zero_le _, by simp⟩, ?_, .inr rfl⟩
      · rw [hflat, h.split, List.append_nil]
      · rw [hflat]
      · rw [hflat, List.append_nil]
    · rename_i hge
      have hnil : cur = [] := by
        rw [h.start, List.flatten_append, List.length_append] at hge
        have hlength : cur.flatten = [] := List.length_eq_zero_iff.mp (by omega)
        rw [List.flatten_eq_nil_iff] at hlength
        cases cur with
        | nil => rfl
        | cons g cur =>
          have hmem : g ∈ gs := by
            rw [h.split]
            simp
          exact absurd (hlength g (List.mem_cons_self ..)) (hne g hmem)
      exact ⟨parts, cur, ⟨h.split, h.chunks, h.fits, h.start, h.width, h.le, by simp⟩, rfl, .inr hnil⟩

/-- A segment that fits is added to the open chunk. -/
theorem Wrapping.advance {ps : List JsString} {seg : Segment} {next : Option Segment}
    (h : Wrapping graphemeWidth gs maxWidth parts cur (ps ++ rest) s)
    (hfits : widthOf graphemeWidth cur + widthOf graphemeWidth ps ≤ maxWidth)
    (hnext : ∀ n ∈ next, n.index = (parts.flatten ++ (cur ++ ps)).flatten.length) :
    Wrapping graphemeWidth gs maxWidth parts (cur ++ ps) rest
      (advance isCjk seg next (widthOf graphemeWidth ps) s) := by
  have hwidth : s.currentWidth + widthOf graphemeWidth ps = widthOf graphemeWidth (cur ++ ps) := by
    rw [widthOf_append, h.width]
  have hsplit : gs = parts.flatten ++ (cur ++ ps) ++ rest := by
    rw [h.split]
    simp only [List.append_assoc]
  have hle : widthOf graphemeWidth (cur ++ ps) ≤ maxWidth := by rwa [widthOf_append]
  unfold Tui.advance
  cases hopp : next.filter fun next => isWrapOpportunity isCjk seg.segment next.segment with
  | some n =>
    refine ⟨hsplit, h.chunks, h.fits, h.start, hwidth, hle, ?_⟩
    rintro k ⟨⟩
    refine ⟨cur ++ ps, [], (List.append_nil _).symm, ?_, hwidth⟩
    exact hnext n (Option.filter_eq_some_iff.mp hopp).1
  | none =>
    refine ⟨hsplit, h.chunks, h.fits, h.start, hwidth, hle, ?_⟩
    intro k hk
    rcases h.opp k hk with ⟨b, c, rfl, hk', hb⟩
    exact ⟨b, c ++ ps, List.append_assoc .., hk', hb⟩

/-- A segment that was wrapped by itself gives finished chunks and an open one. -/
theorem Wrapping.placeChunks {ps : List JsString} {inner : List (List JsString)}
    (h : Wrapping graphemeWidth gs maxWidth parts [] (ps ++ rest) s) (hseg : IsSegmenter graphemes)
    (hps : ∃ text, graphemes text = ps) (hinner : inner ≠ []) (hflat : inner.flatten = ps)
    (hfits : ∀ part ∈ inner, widthOf graphemeWidth part ≤ maxWidth) :
    ∃ parts' cur', Wrapping graphemeWidth gs maxWidth parts' cur' rest
        (placeChunks graphemes graphemeWidth parts.flatten.flatten.length (chunksFrom 0 inner) s) ∧
      parts'.flatten ++ cur' = parts.flatten ++ ps := by
  rcases List.eq_nil_or_concat inner with hnil | ⟨front, last, hconcat⟩
  · exact absurd hnil hinner
  rw [List.concat_eq_append] at hconcat
  subst hconcat
  have hlast : graphemes last.flatten = last := by
    rcases hps with ⟨text, htext⟩
    apply hseg.of_infix text
    rw [htext, ← hflat]
    exact ⟨front.flatten, [], by simp⟩
  have hchunks : chunksFrom 0 (front ++ [last]) = chunksFrom 0 front ++ [⟨last.flatten, front.flatten.flatten.length,
      front.flatten.flatten.length + last.flatten.length⟩] := by
    rw [chunksFrom_append, Nat.zero_add]
    rfl
  refine ⟨parts ++ front, last, ?_, by rw [← hflat]; simp⟩
  unfold Tui.placeChunks
  rw [hchunks, List.dropLast_concat, List.getLastD_concat, map_chunksFrom]
  constructor
  case split =>
    rw [h.split, ← hflat]
    simp
  case chunks =>
    show s.chunks ++ _ = _
    rw [h.chunks, chunksFrom_append, Nat.zero_add, Nat.add_zero]
  case fits =>
    intro part hpart
    rcases List.mem_append.mp hpart with hpart | hpart
    · exact h.fits part hpart
    · exact hfits part (List.mem_append_left _ hpart)
  case start =>
    show parts.flatten.flatten.length + _ = _
    rw [List.flatten_append, List.flatten_append, List.length_append]
  case width =>
    show visibleWidth graphemes graphemeWidth last.flatten = _
    rw [visibleWidth, hlast]
  case le => exact hfits last (List.mem_append_right _ (List.mem_singleton.mpr rfl))
  case opp => simp

/-! ## The loop -/

/-- What a segment wider than the line is wrapped into. -/
def WrapsPieces (graphemes : JsString → List JsString) (graphemeWidth : JsString → ℕ) (maxWidth : ℕ)
    (wrap : JsString → Option (List TextChunk)) (pieces : List JsString) : Prop :=
  ∀ piece ∈ pieces, maxWidth < visibleWidth graphemes graphemeWidth piece → ∃ inner : List (List JsString),
    inner ≠ [] ∧ inner.flatten = graphemes piece ∧ (∀ part ∈ inner, widthOf graphemeWidth part ≤ maxWidth) ∧
      wrap piece = some (chunksFrom 0 inner)

theorem Wrapping.wrapSegment (isCjk : JsString → Bool) {piece : JsString} {next : Option Segment}
    {wrap : JsString → Option (List TextChunk)}
    (h : Wrapping graphemeWidth gs maxWidth parts cur (graphemes piece ++ rest) s) (hseg : IsSegmenter graphemes)
    (hne : ∀ g ∈ gs, g ≠ []) (hwrap : WrapsPieces graphemes graphemeWidth maxWidth wrap [piece])
    (hnext : ∀ n ∈ next, n.index = (parts.flatten ++ cur ++ graphemes piece).flatten.length) :
    ∃ s' parts' cur', wrapSegment graphemes graphemeWidth isCjk wrap gs.flatten maxWidth
        ⟨piece, (parts.flatten ++ cur).flatten.length⟩ next s = some s' ∧
      Wrapping graphemeWidth gs maxWidth parts' cur' rest s' ∧
      parts'.flatten ++ cur' = parts.flatten ++ cur ++ graphemes piece := by
  have hgWidth : visibleWidth graphemes graphemeWidth piece = widthOf graphemeWidth (graphemes piece) := rfl
  -- the open chunk in front of which the segment is put
  have hbroken : ∃ parts₁ cur₁, Wrapping graphemeWidth gs maxWidth parts₁ cur₁ (graphemes piece ++ rest)
        (if maxWidth < s.currentWidth + visibleWidth graphemes graphemeWidth piece then
          Tui.breakBefore gs.flatten maxWidth (visibleWidth graphemes graphemeWidth piece)
            (parts.flatten ++ cur).flatten.length s else s) ∧
      parts₁.flatten ++ cur₁ = parts.flatten ++ cur ∧
      (widthOf graphemeWidth cur₁ + visibleWidth graphemes graphemeWidth piece ≤ maxWidth ∨ cur₁ = []) := by
    split
    · exact h.breakBefore hne _
    · rename_i hle
      rw [h.width] at hle
      exact ⟨parts, cur, h, rfl, .inl (by omega)⟩
  rcases hbroken with ⟨parts₁, cur₁, h₁, hsame, hroom⟩
  unfold Tui.wrapSegment
  dsimp only
  by_cases hwide : maxWidth < visibleWidth graphemes graphemeWidth piece
  · rw [if_pos hwide]
    have hnil : cur₁ = [] := hroom.resolve_left (by omega)
    subst hnil
    rcases hwrap piece (List.mem_singleton.mpr rfl) hwide with ⟨inner, hinner, hflat, hfits, heq⟩
    rcases h₁.placeChunks hseg ⟨piece, rfl⟩ hinner hflat hfits with ⟨parts₂, cur₂, h₂, hsame₂⟩
    rw [List.append_nil] at hsame
    rw [hsame] at h₂ hsame₂
    rw [heq, Option.map_some]
    exact ⟨_, parts₂, cur₂, rfl, h₂, hsame₂⟩
  · rw [if_neg hwide]
    have hfits : widthOf graphemeWidth cur₁ + widthOf graphemeWidth (graphemes piece) ≤ maxWidth := by
      rcases hroom with hroom | rfl
      · exact hroom
      · rw [widthOf, List.map_nil, List.sum_nil, Nat.zero_add]
        exact not_lt.mp hwide
    refine ⟨_, parts₁, cur₁ ++ graphemes piece, rfl, h₁.advance hfits ?_, ?_⟩
    · intro n hn
      rw [← List.append_assoc, hsame]
      exact hnext n hn
    · rw [← List.append_assoc, hsame]

theorem exists_mem_segmentsFrom (index : ℕ) {pieces : List JsString} {piece : JsString} (h : piece ∈ pieces) :
    ∃ i, ⟨piece, i⟩ ∈ segmentsFrom index pieces := by
  induction pieces generalizing index with
  | nil => simp at h
  | cons piece' pieces ih =>
    rcases List.mem_cons.mp h with rfl | h
    · exact ⟨index, List.mem_cons_self ..⟩
    · rcases ih (index + piece'.length) h with ⟨i, hi⟩
      exact ⟨i, List.mem_cons_of_mem _ hi⟩

theorem head?_segmentsFrom {index : ℕ} {pieces : List JsString} :
    ∀ n ∈ (segmentsFrom index pieces).head?, n.index = index := by
  cases pieces with
  | nil => simp [segmentsFrom]
  | cons piece pieces =>
    rintro n ⟨⟩
    rfl

/-- The loop goes through all segments. -/
theorem Wrapping.wrapSegments (isCjk : JsString → Bool) {wrap : JsString → Option (List TextChunk)} {pieces : List JsString}
    (h : Wrapping graphemeWidth gs maxWidth parts cur (pieces.flatMap graphemes) s) (hseg : IsSegmenter graphemes)
    (hne : ∀ g ∈ gs, g ≠ []) (hwrap : WrapsPieces graphemes graphemeWidth maxWidth wrap pieces) :
    ∃ s' parts' cur', wrapSegments graphemes graphemeWidth isCjk wrap gs.flatten maxWidth
        (segmentsFrom (parts.flatten ++ cur).flatten.length pieces) s = some s' ∧
      Wrapping graphemeWidth gs maxWidth parts' cur' [] s' := by
  induction pieces generalizing parts cur s with
  | nil => exact ⟨s, parts, cur, rfl, h⟩
  | cons piece pieces ih =>
    rw [List.flatMap_cons] at h
    have hlength : (parts.flatten ++ cur).flatten.length + piece.length =
        (parts.flatten ++ cur ++ graphemes piece).flatten.length := by
      have hflatten : (parts.flatten ++ cur ++ graphemes piece).flatten =
          (parts.flatten ++ cur).flatten ++ (graphemes piece).flatten := List.flatten_append
      rw [hflatten, List.length_append, hseg.flatten]
    have hwrap' : WrapsPieces graphemes graphemeWidth maxWidth wrap [piece] := by
      rintro p hp
      rw [List.mem_singleton.mp hp]
      exact hwrap piece (List.mem_cons_self ..)
    have hnext : ∀ n ∈ (segmentsFrom ((parts.flatten ++ cur).flatten.length + piece.length) pieces).head?,
        n.index = (parts.flatten ++ cur ++ graphemes piece).flatten.length := by
      rw [hlength]
      exact head?_segmentsFrom
    rcases h.wrapSegment isCjk hseg hne hwrap' hnext with ⟨s₁, parts₁, cur₁, heq, h₁, hsame⟩
    rcases ih h₁ fun p hp => hwrap p (List.mem_cons_of_mem _ hp) with ⟨s₂, parts₂, cur₂, heq₂, h₂⟩
    refine ⟨s₂, parts₂, cur₂, ?_, h₂⟩
    rw [segmentsFrom, Tui.wrapSegments, heq, Option.bind_some, hlength, ← hsame]
    exact heq₂

/-! ## Lines that are wrapped -/

/-- A line whose segments are graphemes taken together is cut at graphemes, if its wide segments are. -/
theorem wordWrapLine_spec (hseg : IsSegmenter graphemes) (hline : line ≠ []) (hmax : maxWidth ≠ 0) (fuel : ℕ)
    {preSegmented : Option (List Segment)} {pieces : List JsString}
    (hpre : preSegmented.getD (segmentsFrom 0 (graphemes line)) = segmentsFrom 0 pieces)
    (hpieces : pieces.flatMap graphemes = graphemes line)
    (hwrap : WrapsPieces graphemes graphemeWidth maxWidth
      (fun grapheme => wordWrapLine graphemes graphemeWidth isCjk fuel grapheme maxWidth none) pieces) :
    ∃ inner : List (List JsString), inner ≠ [] ∧ inner.flatten = graphemes line ∧
      (∀ part ∈ inner, widthOf graphemeWidth part ≤ maxWidth) ∧
      wordWrapLine graphemes graphemeWidth isCjk (fuel + 1) line maxWidth preSegmented = some (chunksFrom 0 inner) := by
  rw [wordWrapLine, if_neg (by simp [hline, hmax])]
  split
  · rename_i hfits
    refine ⟨[graphemes line], by simp, by simp, by simpa [visibleWidth] using hfits, ?_⟩
    rw [chunksFrom, hseg.flatten, Nat.zero_add]
    rfl
  · have hflat : (graphemes line).flatten = line := hseg.flatten line
    have hstart : Wrapping graphemeWidth (graphemes line) maxWidth [] [] (pieces.flatMap graphemes) {} :=
      ⟨hpieces.symm, rfl, by simp, rfl, rfl, Nat.zero_le _, by simp⟩
    rcases hstart.wrapSegments isCjk hseg (hseg.ne_nil line) hwrap with ⟨s, parts, cur, heq, h⟩
    have h' : Wrapping graphemeWidth (graphemes line) maxWidth parts (cur ++ []) [] s := by rwa [List.append_nil]
    rcases h'.close with ⟨hchunks, hall, hparts⟩
    have hsplit := h.split
    rw [List.append_nil] at hsplit
    rw [← hsplit, hflat] at hchunks
    simp only [List.flatten_nil, List.append_nil, List.length_nil, hflat] at heq
    refine ⟨parts ++ [cur], by simp, hparts.trans hsplit.symm, hall, ?_⟩
    dsimp only
    rw [hpre, heq, Option.map_some, hchunks]

theorem graphemes_of_mem (hseg : IsSegmenter graphemes) {text g : JsString} (hg : g ∈ graphemes text) :
    graphemes g = [g] := by
  rcases List.append_of_mem hg with ⟨a, b, hab⟩
  have hone := hseg.of_infix text [g] ⟨a, b, by rw [hab]; simp⟩
  simpa using hone

theorem flatMap_graphemes (hseg : IsSegmenter graphemes) (text : JsString) :
    (graphemes text).flatMap graphemes = graphemes text := by
  have hall : ∀ gs : List JsString, (∀ g ∈ gs, graphemes g = [g]) → gs.flatMap graphemes = gs := by
    intro gs hgs
    induction gs with
    | nil => rfl
    | cons g gs ih =>
      rw [List.forall_mem_cons] at hgs
      rw [List.flatMap_cons, hgs.1, ih hgs.2, List.singleton_append]
  exact hall _ fun g hg => graphemes_of_mem hseg hg

/-- A segment whose graphemes all fit is wrapped without another call. -/
theorem wrapsPieces (isCjk : JsString → Bool) (hseg : IsSegmenter graphemes) (hmax : maxWidth ≠ 0) {pieces : List JsString}
    (hfits : ∀ piece ∈ pieces, ∀ g ∈ graphemes piece, graphemeWidth g ≤ maxWidth) (fuel : ℕ) :
    WrapsPieces graphemes graphemeWidth maxWidth
      (fun grapheme => wordWrapLine graphemes graphemeWidth isCjk (fuel + 1) grapheme maxWidth none) pieces := by
  intro piece hpiece hwide
  have hne : piece ≠ [] := by
    rintro rfl
    have hnil : graphemes [] = [] := by
      rw [List.eq_nil_iff_forall_not_mem]
      intro g hg
      have hflat := hseg.flatten []
      rw [List.flatten_eq_nil_iff] at hflat
      exact hseg.ne_nil [] g hg (hflat g hg)
    simp [visibleWidth, widthOf, hnil] at hwide
  apply wordWrapLine_spec hseg hne hmax fuel rfl (flatMap_graphemes hseg piece)
  intro g hg hgwide
  rw [visibleWidth, graphemes_of_mem hseg hg, widthOf, List.map_singleton, List.sum_singleton] at hgwide
  exact absurd (hfits piece hpiece g hg) (not_le.mpr hgwide)

/-! ## Lines that are not -/

theorem wrapSegments_eq_none {wrap : JsString → Option (List TextChunk)} {segments : List Segment} {seg : Segment}
    (hmem : seg ∈ segments) (hwide : maxWidth < visibleWidth graphemes graphemeWidth seg.segment)
    (hnone : wrap seg.segment = none) (s : WrapState) :
    wrapSegments graphemes graphemeWidth isCjk wrap line maxWidth segments s = none := by
  induction segments generalizing s with
  | nil => simp at hmem
  | cons seg' segments ih =>
    rw [wrapSegments]
    rcases List.mem_cons.mp hmem with rfl | hmem
    · rw [wrapSegment]
      simp only [if_pos hwide, hnone, Option.map_none, Option.bind_none]
    · cases wrapSegment graphemes graphemeWidth isCjk wrap line maxWidth seg' segments.head? s with
      | none => rfl
      | some s' => exact ih hmem s'

/-- A text with a grapheme that is wider than the line is wrapped for ever. -/
theorem wordWrapLine_wide (isCjk : JsString → Bool) (hseg : IsSegmenter graphemes) (hmax : maxWidth ≠ 0) {text g : JsString}
    (hg : g ∈ graphemes text) (hwide : maxWidth < graphemeWidth g) (fuel : ℕ) :
    wordWrapLine graphemes graphemeWidth isCjk fuel text maxWidth none = none := by
  induction fuel generalizing text with
  | zero => rfl
  | succ fuel ih =>
    have hself := graphemes_of_mem hseg hg
    have hgwide : maxWidth < visibleWidth graphemes graphemeWidth g := by
      rwa [visibleWidth, hself, widthOf, List.map_singleton, List.sum_singleton]
    have hne : text ≠ [] := by
      rintro rfl
      have hflat := hseg.flatten []
      rw [List.flatten_eq_nil_iff] at hflat
      exact hseg.ne_nil [] g hg (hflat g hg)
    have hover : ¬visibleWidth graphemes graphemeWidth text ≤ maxWidth :=
      not_le.mpr (hwide.trans_le (width_le_widthOf hg))
    rw [wordWrapLine, if_neg (by simp [hne, hmax]), if_neg hover]
    rcases exists_mem_segmentsFrom 0 hg with ⟨index, hmem⟩
    have hnone : wordWrapLine graphemes graphemeWidth isCjk fuel g maxWidth none = none :=
      ih (by rw [hself]; exact List.mem_singleton.mpr rfl)
    dsimp only
    rw [Option.getD_none, wrapSegments_eq_none hmem hgwide hnone, Option.map_none]

end Proofs

/-! ## When the function returns -/

/-- The segments of a line: graphemes, or several of them taken together. -/
def IsSegmentation (graphemes : JsString → List JsString) (line : JsString) (segments : List Segment) : Prop :=
  ∃ pieces, segments = segmentsFrom 0 pieces ∧ pieces.flatMap graphemes = graphemes line

/-- What the chunks of a line should be. -/
structure WrapsWell (graphemes : JsString → List JsString) (graphemeWidth : JsString → ℕ) (line : JsString)
    (maxWidth : ℕ) (chunks : List TextChunk) : Prop where
  contiguous : Contiguous 0 line.length chunks
  text : ∀ c ∈ chunks, c.text = (line.take c.endIndex).drop c.startIndex
  fits : (∀ g ∈ graphemes line, graphemeWidth g ≤ maxWidth) →
    ∀ c ∈ chunks, visibleWidth graphemes graphemeWidth c.text ≤ maxWidth

/-- A line that is not empty is wrapped, and wrapped well, exactly when none of its graphemes is wider than a chunk may
be. -/
theorem wrapsWell_iff (graphemes : JsString → List JsString) (graphemeWidth : JsString → ℕ) (isCjk : JsString → Bool)
    (hseg : IsSegmenter graphemes) (line : JsString) (hline : line ≠ []) (maxWidth : ℕ) (hmax : 1 ≤ maxWidth)
    (preSegmented : Option (List Segment))
    (hpre : ∀ segments ∈ preSegmented, IsSegmentation graphemes line segments) :
    (∃ fuel chunks, wordWrapLine graphemes graphemeWidth isCjk fuel line maxWidth preSegmented = some chunks ∧
      WrapsWell graphemes graphemeWidth line maxWidth chunks) ↔ ∀ g ∈ graphemes line, graphemeWidth g ≤ maxWidth := by
  have hmax' : maxWidth ≠ 0 := Nat.one_le_iff_ne_zero.mp hmax
  have hpieces : ∃ pieces, preSegmented.getD (segmentsFrom 0 (graphemes line)) = segmentsFrom 0 pieces ∧
      pieces.flatMap graphemes = graphemes line := by
    cases preSegmented with
    | none => exact ⟨graphemes line, rfl, flatMap_graphemes hseg line⟩
    | some segments => exact hpre segments rfl
  rcases hpieces with ⟨pieces, hsegments, hflat⟩
  constructor
  · rintro ⟨fuel, chunks, heq, -⟩ g hg
    by_contra hwide
    rw [not_le] at hwide
    rcases fuel with _ | fuel
    · cases heq
    have hover : ¬visibleWidth graphemes graphemeWidth line ≤ maxWidth :=
      not_le.mpr (hwide.trans_le (width_le_widthOf hg))
    -- the segment that holds the grapheme
    rw [← hflat, List.mem_flatMap] at hg
    rcases hg with ⟨piece, hpiece, hg⟩
    rcases exists_mem_segmentsFrom 0 hpiece with ⟨index, hmem⟩
    have hnone := wordWrapLine_wide isCjk hseg hmax' hg hwide fuel
    rw [wordWrapLine, if_neg (by simp [hline, hmax']), if_neg hover] at heq
    dsimp only at heq
    rw [hsegments, wrapSegments_eq_none hmem (hwide.trans_le (width_le_widthOf hg)) hnone] at heq
    cases heq
  · intro hfits
    have hwrap := @wrapsPieces graphemes graphemeWidth maxWidth isCjk hseg hmax' pieces (fun piece hpiece g hg => by
      apply hfits g
      rw [← hflat]
      exact List.mem_flatMap.mpr ⟨piece, hpiece, hg⟩) 0
    rcases wordWrapLine_spec hseg hline hmax' 1 hsegments hflat hwrap with ⟨inner, hne, hinner, hall, heq⟩
    have hlength : inner.flatten.flatten = line := by rw [hinner, hseg.flatten]
    refine ⟨2, _, heq, ?_, ?_, fun _ => ?_⟩
    · have hcontiguous := contiguous_chunksFrom 0 inner
      rwa [Nat.zero_add, hlength] at hcontiguous
    · have htext := text_chunksFrom [] inner []
      rwa [List.nil_append, List.append_nil, hlength] at htext
    · intro c hc
      rcases exists_part_of_mem hc with ⟨part, hmem, hc'⟩
      have hinfix : part <:+: graphemes line := by
        rw [← hinner]
        exact List.infix_of_mem_flatten hmem
      rw [hc', visibleWidth, hseg.of_infix line part hinfix]
      exact hall part hmem

/-- A Han character takes two columns, a letter one. -/
def hanWidth (g : JsString) : ℕ := if g.any fun u => 0x4E00 ≤ u && u ≤ 0x9FFF then 2 else 1

/-- Two letters and a Han character in two columns. -/
theorem wrapsWell_han :
    ∃ fuel chunks, wordWrapLine units hanWidth (fun g => hanWidth g = 2) fuel [97, 98, 0x4F60] 2 none = some chunks ∧
      WrapsWell units hanWidth [97, 98, 0x4F60] 2 chunks := by
  refine (wrapsWell_iff units hanWidth _ isSegmenter_units _ (by decide) 2 (by decide) none (by simp)).mpr ?_
  decide

/-- A Han character in one column is wrapped for ever, whatever the depth of the calls. -/
theorem han_in_one_column (fuel : ℕ) :
    wordWrapLine units hanWidth (fun g => hanWidth g = 2) fuel [0x4F60] 1 none = none :=
  wordWrapLine_wide _ isSegmenter_units one_ne_zero (List.mem_singleton.mpr rfl) (by decide) fuel

/-- Then the function does not return. -/
theorem not_wrapsWell_han : ¬∃ fuel chunks, wordWrapLine units hanWidth (fun g => hanWidth g = 2) fuel [0x4F60] 1 none =
    some chunks ∧ WrapsWell units hanWidth [0x4F60] 1 chunks := by
  rintro ⟨fuel, chunks, heq, -⟩
  rw [han_in_one_column] at heq
  cases heq

end Phi.Tui

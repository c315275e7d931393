import Mathlib

/-!
# Sizes of stack children

Model of `packages/tui/src/components/stack.ts`: what `addChild` makes of the options of a child, and how
`allocateStackSizes` gives the cells of a stack to its children. Numbers are exact. The component of a child and the
function that tells whether it is visible are left out.

A round of `distribute` never hands out more than there is, and hands out something as long as a child can still change
(`handOut_lt`). So the loop ends with nothing left or with every child at its limit (`distribute_spec`).
-/

namespace Phi.Tui

/-! ## Options of a child -/

inductive JsNumber where
  | finite (value : ℚ)
  /-- An infinity or not a number. -/
  | nonFinite

/-- A basis is `"auto"` or a finite number. -/
inductive Basis where
  | auto
  | size (value : ℚ)

structure StackEntryOptions where
  basis : Option Basis := none
  grow : Option JsNumber := none
  shrink : Option JsNumber := none
  minSize : Option JsNumber := none
  maxSize : Option JsNumber := none

/-- A child as `addChild` stores it. -/
structure StackLayoutEntry where
  basis : Option Basis
  grow : Option ℕ
  shrink : Option ℕ
  minSize : Option ℕ
  maxSize : Option ℕ

def maxSafeInteger : ℕ := 2 ^ 53 - 1

def normalizeSize (value : Option JsNumber) (fallback : ℕ) : ℕ :=
  match value with
  | some (.finite q) => ⌊q⌋.toNat
  | _ => fallback

def addChild (options : StackEntryOptions) : StackLayoutEntry where
  basis := options.basis
  grow := options.grow.map fun grow => normalizeSize (some grow) 0
  shrink := options.shrink.map fun shrink => normalizeSize (some shrink) 1
  minSize := options.minSize.map fun minSize => normalizeSize (some minSize) 0
  maxSize := options.maxSize.map fun maxSize => normalizeSize (some maxSize) maxSafeInteger

namespace StackLayoutEntry

def growOf (entry : StackLayoutEntry) : ℕ := entry.grow.getD 0

def shrinkOf (entry : StackLayoutEntry) : ℕ := entry.shrink.getD 1

def minOf (entry : StackLayoutEntry) : ℕ := entry.minSize.getD 0

def maxOf (entry : StackLayoutEntry) : ℕ := entry.maxSize.getD maxSafeInteger

end StackLayoutEntry

/-! ## Distributing -/

/-- A child with its size. -/
abbrev Sized := StackLayoutEntry × ℕ

def clampSize (size : ℚ) (entry : StackLayoutEntry) : ℕ :=
  max entry.minOf (min (max entry.minOf entry.maxOf) ⌊size⌋.toNat)

inductive DistributeMode where
  | grow
  | shrink

def isCandidate : DistributeMode → Sized → Bool
  | .grow, (entry, size) => 0 < entry.growOf && size < entry.maxOf
  | .shrink, (entry, size) => 0 < entry.shrinkOf && entry.minOf < size

def weightOf : DistributeMode → Sized → ℕ
  | .grow, (entry, _) => entry.growOf
  | .shrink, (entry, size) => entry.shrinkOf * max 1 size

/-- By how much a candidate can change. -/
def capacityOf : DistributeMode → Sized → ℕ
  | .grow, (entry, size) => entry.maxOf - size
  | .shrink, (entry, size) => size - entry.minOf

def changeBy : DistributeMode → ℕ → Sized → Sized
  | .grow, delta, (entry, size) => (entry, size + delta)
  | .shrink, delta, (entry, size) => (entry, size - delta)

def totalWeightOf (mode : DistributeMode) (children : List Sized) : ℕ :=
  ((children.filter (isCandidate mode)).map (weightOf mode)).sum

/-- The loop over the candidates of one round: the children, and what remains. -/
def handOut (mode : DistributeMode) (totalWeight : ℕ) : ℕ → List Sized → List Sized × ℕ
  | remaining, [] => ([], remaining)
  | remaining, child :: children =>
    if isCandidate mode child && 0 < remaining then
      let proposed := max 1 (remaining * weightOf mode child / totalWeight)
      let delta := min (min remaining proposed) (capacityOf mode child)
      let rest := handOut mode totalWeight (remaining - delta) children
      (changeBy mode delta child :: rest.1, rest.2)
    else
      let rest := handOut mode totalWeight remaining children
      (child :: rest.1, rest.2)

theorem handOut_le (mode : DistributeMode) (totalWeight remaining : ℕ) (children : List Sized) :
    (handOut mode totalWeight remaining children).2 ≤ remaining := by
  induction children generalizing remaining with
  | nil => exact le_rfl
  | cons child children ih =>
    rw [handOut]
    split
    · exact (ih _).trans (Nat.sub_le _ _)
    · exact ih _

def distribute (mode : DistributeMode) (remaining : ℕ) (children : List Sized) : List Sized :=
  if remaining = 0 then children
  else if (children.filter (isCandidate mode)).length = 0 then children
  else
    let round := handOut mode (totalWeightOf mode children) remaining children
    if round.2 = remaining then round.1 else distribute mode round.2 round.1
termination_by remaining
decreasing_by exact lt_of_le_of_ne (handOut_le ..) ‹_›

/-- The sizes before anything is distributed. -/
def initialSizes (entries : List StackLayoutEntry) (intrinsicSizes : List ℚ) : List ℕ :=
  entries.mapIdx fun index entry =>
    match entry.basis with
    | some (.size basis) => clampSize basis entry
    | _ => clampSize ((intrinsicSizes[index]?).getD 0) entry

/-- What the gaps leave of the available size. -/
def contentSizeOf (count : ℕ) (availableSize : ℚ) (gap : ℕ) : ℕ := (⌊availableSize⌋ - ((count - 1) * gap : ℕ)).toNat

def allocateStackSizes (entries : List StackLayoutEntry) (intrinsicSizes : List ℚ) (availableSize : Option ℚ)
    (gap : ℕ) : List ℕ :=
  let sizes := initialSizes entries intrinsicSizes
  match availableSize with
  | none => sizes
  | some availableSize =>
    let contentSize := contentSizeOf entries.length availableSize gap
    if sizes.sum < contentSize then
      (distribute .grow (contentSize - sizes.sum) (entries.zip sizes)).map Prod.snd
    else if contentSize < sizes.sum then
      (distribute .shrink (sizes.sum - contentSize) (entries.zip sizes)).map Prod.snd
    else sizes

/-! ## One round -/

/-- The size lies between the limits of the child. -/
def InBounds (child : Sized) : Prop := child.1.minOf ≤ child.2 ∧ child.2 ≤ child.1.maxOf

def sumOf (children : List Sized) : ℕ := (children.map Prod.snd).sum

/-- The sizes went up, or down, by so many cells in all. -/
def Moved : DistributeMode → ℕ → List Sized → List Sized → Prop
  | .grow, amount, children, children' => sumOf children' = sumOf children + amount
  | .shrink, amount, children, children' => sumOf children = sumOf children' + amount

theorem sumOf_cons (child : Sized) (children : List Sized) : sumOf (child :: children) = child.2 + sumOf children := by
  rw [sumOf, List.map_cons, List.sum_cons, sumOf]

theorem Moved.refl (mode : DistributeMode) (children : List Sized) : Moved mode 0 children children := by
  cases mode <;> rfl

theorem Moved.trans {mode : DistributeMode} {a b : ℕ} {x y z : List Sized} (h : Moved mode a x y) (h' : Moved mode b y z) :
    Moved mode (a + b) x z := by
  cases mode <;> simp only [Moved] at h h' ⊢ <;> omega

theorem changeBy_fst (mode : DistributeMode) (delta : ℕ) (child : Sized) : (changeBy mode delta child).1 = child.1 := by
  cases mode <;> rfl

theorem InBounds.changeBy {mode : DistributeMode} {delta : ℕ} {child : Sized} (h : InBounds child)
    (hdelta : delta ≤ capacityOf mode child) : InBounds (changeBy mode delta child) := by
  rcases child with ⟨entry, size⟩
  cases mode <;> simp only [InBounds, Tui.changeBy, capacityOf] at h hdelta ⊢ <;> omega

/-- A child and the others change by what they change together. -/
theorem Moved.cons {mode : DistributeMode} {delta amount : ℕ} {child : Sized} {children children' : List Sized}
    (hdelta : delta ≤ capacityOf mode child) (h : Moved mode amount children children') :
    Moved mode (delta + amount) (child :: children) (Tui.changeBy mode delta child :: children') := by
  rcases child with ⟨entry, size⟩
  cases mode <;> simp only [Moved, sumOf_cons, Tui.changeBy, capacityOf] at h hdelta ⊢ <;> omega

theorem changeBy_zero (mode : DistributeMode) (child : Sized) : changeBy mode 0 child = child := by
  cases mode <;> rfl

/-- What a round keeps: the children, their limits, and the cells that are not handed out. -/
theorem handOut_spec (mode : DistributeMode) (totalWeight remaining : ℕ) (children : List Sized) :
    (handOut mode totalWeight remaining children).1.map Prod.fst = children.map Prod.fst ∧
      ((∀ child ∈ children, InBounds child) →
        ∀ child ∈ (handOut mode totalWeight remaining children).1, InBounds child) ∧
      Moved mode (remaining - (handOut mode totalWeight remaining children).2) children
        (handOut mode totalWeight remaining children).1 := by
  induction children generalizing remaining with
  | nil =>
    refine ⟨rfl, fun h => h, ?_⟩
    rw [handOut, Nat.sub_self]
    exact .refl mode []
  | cons child children ih =>
    rw [handOut]
    split
    · set delta := min (min remaining (max 1 (remaining * weightOf mode child / totalWeight))) (capacityOf mode child)
        with hdelta
      have hle : delta ≤ remaining := (min_le_left _ _).trans (min_le_left _ _)
      have hcapacity : delta ≤ capacityOf mode child := min_le_right _ _
      have hrest := handOut_le mode totalWeight (remaining - delta) children
      rcases ih (remaining - delta) with ⟨hfst, hbounds, hmoved⟩
      refine ⟨?_, ?_, ?_⟩
      · rw [List.map_cons, List.map_cons, changeBy_fst, hfst]
      · rw [List.forall_mem_cons, List.forall_mem_cons]
        exact fun h => ⟨h.1.changeBy hcapacity, hbounds h.2⟩
      · have hall := Moved.cons hcapacity hmoved
        rwa [show delta + (remaining - delta - (handOut mode totalWeight (remaining - delta) children).2) =
          remaining - (handOut mode totalWeight (remaining - delta) children).2 by omega] at hall
    · rcases ih remaining with ⟨hfst, hbounds, hmoved⟩
      refine ⟨?_, ?_, ?_⟩
      · rw [List.map_cons, List.map_cons, hfst]
      · rw [List.forall_mem_cons, List.forall_mem_cons]
        exact fun h => ⟨h.1, hbounds h.2⟩
      · have hall := @Moved.cons mode 0 _ child _ _ (Nat.zero_le _) hmoved
        rwa [Nat.zero_add, changeBy_zero] at hall

theorem capacityOf_pos {mode : DistributeMode} {child : Sized} (h : isCandidate mode child = true) : 0 < capacityOf mode child := by
  rcases child with ⟨entry, size⟩
  cases mode <;> simp only [isCandidate, capacityOf, Bool.and_eq_true, decide_eq_true_eq] at h ⊢ <;> omega

/-- A round with a candidate hands out something: the first of them can take a cell. -/
theorem handOut_lt {mode : DistributeMode} {totalWeight remaining : ℕ} {children : List Sized} (hpos : 0 < remaining)
    (h : ∃ child ∈ children, isCandidate mode child = true) :
    (handOut mode totalWeight remaining children).2 < remaining := by
  induction children with
  | nil => simp at h
  | cons child children ih =>
    rw [handOut]
    split
    · rename_i hcandidate
      rw [Bool.and_eq_true] at hcandidate
      have hcapacity := capacityOf_pos hcandidate.1
      refine (handOut_le ..).trans_lt (Nat.sub_lt hpos ?_)
      exact lt_min (lt_min hpos (Nat.lt_of_lt_of_le Nat.zero_lt_one (le_max_left _ _))) hcapacity
    · rename_i hcandidate
      apply ih
      rcases h with ⟨child', hmem, hchild'⟩
      rcases List.mem_cons.mp hmem with rfl | hmem
      · simp [hchild', hpos] at hcandidate
      · exact ⟨child', hmem, hchild'⟩

/-! ## The loop -/

/-- What the loop does: it keeps the children and their limits, and hands out all cells, or as many as the children
take. -/
theorem distribute_spec (mode : DistributeMode) (remaining : ℕ) (children : List Sized) :
    (distribute mode remaining children).map Prod.fst = children.map Prod.fst ∧
      ((∀ child ∈ children, InBounds child) → ∀ child ∈ distribute mode remaining children, InBounds child) ∧
      (Moved mode remaining children (distribute mode remaining children) ∨
        (∃ amount < remaining, Moved mode amount children (distribute mode remaining children)) ∧
          ∀ child ∈ distribute mode remaining children, isCandidate mode child = false) := by
  induction remaining using Nat.strong_induction_on generalizing children with
  | _ remaining ih =>
    rw [distribute]
    split
    · rename_i hzero
      rw [hzero]
      exact ⟨rfl, fun h => h, .inl (.refl mode children)⟩
    · rename_i hzero
      have hpos := Nat.pos_of_ne_zero hzero
      split
      · rename_i hnone
        refine ⟨rfl, fun h => h, .inr ⟨⟨0, hpos, .refl mode children⟩, ?_⟩⟩
        simpa using List.length_eq_zero_iff.mp hnone
      · rename_i hsome
        have hex : ∃ child ∈ children, isCandidate mode child = true := by
          by_contra hnone
          push Not at hnone
          exact hsome (List.length_eq_zero_iff.mpr (List.filter_eq_nil_iff.mpr hnone))
        have hlt : (handOut mode (totalWeightOf mode children) remaining children).2 < remaining := handOut_lt hpos hex
        rw [if_neg hlt.ne]
        rcases handOut_spec mode (totalWeightOf mode children) remaining children with ⟨hfst, hbounds, hmoved⟩
        set round := handOut mode (totalWeightOf mode children) remaining children with hround
        rcases ih round.2 hlt round.1 with ⟨hfst', hbounds', hmoved'⟩
        refine ⟨hfst'.trans hfst, fun h => hbounds' (hbounds h), ?_⟩
        rcases hmoved' with hall | ⟨⟨amount, hamount, hpart⟩, hnone⟩
        · have htotal := hmoved.trans hall
          rw [Nat.sub_add_cancel hlt.le] at htotal
          exact .inl htotal
        · exact .inr ⟨⟨_, by omega, hmoved.trans hpart⟩, hnone⟩

/-! ## The sizes of the children -/

theorem clampSize_bounds (size : ℚ) {entry : StackLayoutEntry} (h : entry.minOf ≤ entry.maxOf) :
    InBounds (entry, clampSize size entry) := by
  simp only [InBounds, clampSize]
  omega

theorem length_initialSizes (entries : List StackLayoutEntry) (intrinsicSizes : List ℚ) :
    (initialSizes entries intrinsicSizes).length = entries.length := List.length_mapIdx

theorem initialSizes_bounds {entries : List StackLayoutEntry} (intrinsicSizes : List ℚ)
    (h : ∀ entry ∈ entries, entry.minOf ≤ entry.maxOf) :
    ∀ child ∈ entries.zip (initialSizes entries intrinsicSizes), InBounds child := by
  rintro ⟨entry, size⟩ hchild
  rcases List.mem_iff_getElem.mp hchild with ⟨i, hi, heq⟩
  rw [List.getElem_zip, Prod.mk.injEq] at heq
  rcases heq with ⟨rfl, rfl⟩
  simp only [initialSizes, List.getElem_mapIdx]
  split
  · exact clampSize_bounds _ (h _ (List.getElem_mem _))
  · exact clampSize_bounds _ (h _ (List.getElem_mem _))

/-- What the sizes of the children of a stack should be, for the cells that the gaps leave. -/
structure DistributesExactly (entries : List StackLayoutEntry) (contentSize : ℕ) (sizes : List ℕ) : Prop where
  length : sizes.length = entries.length
  bounds : ∀ child ∈ entries.zip sizes, child.1.minOf ≤ child.2 ∧ child.2 ≤ child.1.maxOf
  total : sizes.sum = contentSize ∨
    (sizes.sum < contentSize ∧ ∀ child ∈ entries.zip sizes, 0 < child.1.growOf → child.2 = child.1.maxOf) ∨
    (contentSize < sizes.sum ∧ ∀ child ∈ entries.zip sizes, 0 < child.1.shrinkOf → child.2 = child.1.minOf)

theorem sumOf_zip {entries : List StackLayoutEntry} {sizes : List ℕ} (h : sizes.length = entries.length) :
    sumOf (entries.zip sizes) = sizes.sum := by
  rw [sumOf, List.map_snd_zip h.le]

/-- Children that were distributed to are their entries with their sizes. -/
theorem zip_map_snd {entries : List StackLayoutEntry} {children : List Sized} (h : children.map Prod.fst = entries) :
    entries.zip (children.map Prod.snd) = children := by
  rw [← h]
  exact (List.zip_of_prod rfl rfl).symm

/-- Every list of children gets exact sizes, whatever there is to distribute. -/
theorem allocateStackSizes_exact (children : List StackEntryOptions) (intrinsicSizes : List ℚ) (availableSize : ℚ)
    (gap : Option JsNumber) (h : ∀ entry ∈ children.map addChild, entry.minOf ≤ entry.maxOf) :
    DistributesExactly (children.map addChild)
      (contentSizeOf (children.map addChild).length availableSize (normalizeSize gap 0))
      (allocateStackSizes (children.map addChild) intrinsicSizes (some availableSize) (normalizeSize gap 0)) := by
  set entries := children.map addChild with hentries
  set contentSize := contentSizeOf entries.length availableSize (normalizeSize gap 0) with hcontent
  have hlength := length_initialSizes entries intrinsicSizes
  have hbounds := initialSizes_bounds intrinsicSizes h
  have hfst : (entries.zip (initialSizes entries intrinsicSizes)).map Prod.fst = entries :=
    List.map_fst_zip hlength.ge
  have hsum := sumOf_zip hlength
  simp only [allocateStackSizes, ← hcontent]
  split
  · rename_i hlt
    rcases distribute_spec .grow (contentSize - (initialSizes entries intrinsicSizes).sum)
      (entries.zip (initialSizes entries intrinsicSizes)) with ⟨hkept, hin, hmoved⟩
    have hzip := zip_map_snd (hkept.trans hfst)
    constructor
    case length => rw [List.length_map, ← List.length_map (f := Prod.fst), hkept, hfst]
    case bounds =>
      rw [hzip]
      exact hin hbounds
    case total =>
      rw [hzip]
      simp only [Moved, hsum] at hmoved
      rcases hmoved with hall | ⟨⟨amount, hamount, hpart⟩, hnone⟩
      · left
        rw [← sumOf, hall]
        omega
      · right; left
        refine ⟨by rw [← sumOf, hpart]; omega, fun child hchild hgrow => ?_⟩
        have hlimit := hin hbounds child hchild
        have hno := hnone child hchild
        simp only [isCandidate, Bool.and_eq_false_iff, decide_eq_false_iff_not] at hno
        exact le_antisymm hlimit.2 (by omega)
  · split
    · rename_i hge hlt
      rcases distribute_spec .shrink ((initialSizes entries intrinsicSizes).sum - contentSize)
        (entries.zip (initialSizes entries intrinsicSizes)) with ⟨hkept, hin, hmoved⟩
      have hzip := zip_map_snd (hkept.trans hfst)
      constructor
      case length => rw [List.length_map, ← List.length_map (f := Prod.fst), hkept, hfst]
      case bounds =>
        rw [hzip]
        exact hin hbounds
      case total =>
        rw [hzip]
        simp only [Moved, hsum] at hmoved
        rcases hmoved with hall | ⟨⟨amount, hamount, hpart⟩, hnone⟩
        · left
          rw [← sumOf]
          omega
        · right; right
          refine ⟨by rw [← sumOf]; omega, fun child hchild hshrink => ?_⟩
          have hlimit := hin hbounds child hchild
          have hno := hnone child hchild
          simp only [isCandidate, Bool.and_eq_false_iff, decide_eq_false_iff_not] at hno
          exact le_antisymm (by omega) hlimit.1
    · rename_i hge hle
      exact ⟨hlength, hbounds, .inl (by omega)⟩

/-- Three cells between two children, the second of which may have one. -/
theorem allocateStackSizes_exact_two :
    DistributesExactly ([{ grow := some (.finite 1) },
        { grow := some (.finite 3), maxSize := some (.finite 1) }].map addChild) 3 (allocateStackSizes ([{ grow := some (.finite 1) },
        { grow := some (.finite 3), maxSize := some (.finite 1) }].map addChild) [0, 0] (some (7 / 2)) 0) := by
  have hexact := allocateStackSizes_exact [{ grow := some (.finite 1) },
    { grow := some (.finite 3), maxSize := some (.finite 1) }] [0, 0] (7 / 2) none ?_
  · have hcontent : contentSizeOf 2 (7 / 2) 0 = 3 := by
      have hfloor : ⌊(7 / 2 : ℚ)⌋ = 3 := by norm_num
      rw [contentSizeOf, hfloor]
      rfl
    simpa [normalizeSize, hcontent] using hexact
  · intro entry hentry
    simp only [List.map_cons, List.map_nil, List.mem_cons, List.not_mem_nil, or_false] at hentry
    rcases hentry with rfl | rfl
    · decide
    · simp [addChild, normalizeSize, StackLayoutEntry.minOf, StackLayoutEntry.maxOf]

end Phi.Tui

import Phi.Delta.Apply

/-!
# Diffing two JSON values

Model of `overlap`, `jsonEqual`, `diffString`, `diffValue`, `diffObject` and `diffArray` of
`packages/chord/src/delta/index.ts`, and their soundness: the ops they emit turn every value that is the
same JSON value as `before` into one that is the same as `after`.

`before` belongs to the tracker's baseline and `after` to its root, which share no container, so
`before === after` holds of primitives only (`strictEqual`).
-/

namespace Phi.Delta

open Json

/-! ## Overlap -/

/-- Positions of `head` in `tail`, ascending: what repeated `indexOf` visits. -/
def occurrences (head tail : JsString) : List ℕ :=
  (List.range tail.length).filter fun k => (tail.drop k).take head.length = head

/-- The inner loop of `overlap` for one probe length `h`. -/
def probeOverlap (tail b : JsString) (h maxCandidates : ℕ) : Option ℕ :=
  ((occurrences (b.take h) tail).take maxCandidates).findSome? fun k =>
    let n := tail.length - k
    if n ≤ b.length ∧ tail.drop k = b.take n then some n else none

/-- A suffix of `a` that is a prefix of `b`, as long as the bounded search finds one. -/
def overlap (a b : JsString) (scan probe maxCandidates : ℕ) : ℕ :=
  if a.length = 0 ∨ b.length = 0 ∨ scan = 0 then 0
  else
    let tail := if a.length > scan then a.drop (a.length - scan) else a
    let h := min probe b.length
    match probeOverlap tail b h maxCandidates with
    | some n => n
    | none => if h = 1 then 0 else (probeOverlap tail b 1 maxCandidates).getD 0

theorem probeOverlap_sound {tail b : JsString} {h maxCandidates n : ℕ}
    (hn : probeOverlap tail b h maxCandidates = some n) :
    n ≤ tail.length ∧ tail.drop (tail.length - n) = b.take n := by
  obtain ⟨k, hk, hsome⟩ := List.exists_of_findSome?_eq_some hn
  have hlt : k < tail.length := by
    have hmem := List.mem_of_mem_filter (List.mem_of_mem_take hk)
    exact List.mem_range.mp hmem
  simp only [Option.ite_none_right_eq_some, Option.some.injEq] at hsome
  obtain ⟨⟨-, heq⟩, rfl⟩ := hsome
  have hback : tail.length - (tail.length - k) = k := by omega
  exact ⟨by omega, by rw [hback]; exact heq⟩

/-- The returned length is an overlap. -/
theorem overlap_sound (a b : JsString) (scan probe maxCandidates : ℕ) :
    a.drop (a.length - overlap a b scan probe maxCandidates)
      = b.take (overlap a b scan probe maxCandidates) := by
  have hzero : a.drop (a.length - 0) = b.take 0 := by simp
  -- what is found in the scanned tail is an overlap of the whole string
  have htail : ∀ {h n}, probeOverlap (if a.length > scan then a.drop (a.length - scan) else a) b h
      maxCandidates = some n → a.drop (a.length - n) = b.take n := by
    intro h n hn
    obtain ⟨hle, heq⟩ := probeOverlap_sound hn
    split at hle
    · next hs =>
      rw [if_pos hs, List.drop_drop, List.length_drop] at heq
      rw [List.length_drop] at hle
      rw [← heq]
      congr 1
      omega
    · next hs => rwa [if_neg hs] at heq
  simp only [overlap]
  split
  · exact hzero
  split
  · next n hn => exact htail hn
  split
  · exact hzero
  · cases hp : probeOverlap (if a.length > scan then a.drop (a.length - scan) else a) b 1
      maxCandidates with
    | none => exact hzero
    | some n => exact htail hp

/-! ## Equality -/

/-- `===` on values of two trees that share no container. -/
def strictEqual : Json → Json → Bool
  | .null, .null => true
  | .bool b, .bool b' => b == b'
  | .number q, .number q' => q == q'
  | .string s, .string s' => s == s'
  | _, _ => false

mutual

def jsonEqual : Json → Json → Bool
  | .array xs, right =>
    match right with
    | .array ys => xs.length == ys.length && jsonEqualItems xs ys
    | _ => false
  | .object es, right =>
    match right with
    | .object fs => es.length == fs.length && jsonEqualEntries es fs
    | _ => false
  | left, right => strictEqual left right

def jsonEqualItems : List Json → List Json → Bool
  | [], _ => true
  | x :: xs, ys =>
    match ys with
    | [] => true
    | y :: ys => jsonEqual x y && jsonEqualItems xs ys

def jsonEqualEntries : List (JsString × Json) → List (JsString × Json) → Bool
  | [], _ => true
  | e :: es, fs =>
    (match Table.get fs e.1 with
      | some w => jsonEqual e.2 w
      | none => false) && jsonEqualEntries es fs

end

theorem eq_of_strictEqual {v w : Json} (h : strictEqual v w = true) : v = w := by
  cases v <;> cases w <;> simp_all [strictEqual]

/-! ## Emission -/

def emitSet (path : Path) (value : Json) : List Op :=
  if path = [] then [.r value] else [.s path value]

def emitDelete (path : Path) : Except DeltaError (List Op) :=
  if path = [] then .error (.typeError "the tracked root cannot be deleted") else .ok [.d path]

def diffString (scan : ℕ) (before after : JsString) (path : Path) : List Op :=
  if before = after then []
  else if path = [] then emitSet path (.string after)
  else if after.length > before.length ∧ after.take before.length = before then
    [.a path (after.drop before.length)]
  else
    let shared := overlap before after scan 64 8
    if shared = 0 then [.s path (.string after)]
    else
      .t path (before.length - shared) ::
        if after.length > shared then [.a path (after.drop shared)] else []

/-- The length of the longest common prefix, elements compared as JSON. -/
def commonLength : List Json → List Json → ℕ
  | x :: xs, y :: ys => if jsonEqual x y then commonLength xs ys + 1 else 0
  | _, _ => 0

/-- The branch of `diffArray` for arrays that differ in one contiguous range only. -/
def diffRange? (before after : List Json) (path : Path) : Option (List Op) :=
  let common := commonLength before after
  let suffix := commonLength (before.drop common).reverse (after.drop common).reverse
  if common + suffix = min before.length after.length then
    let remove := before.length - common - suffix
    let items := (after.drop common).take (after.length - suffix - common)
    if common = 0 ∧ remove = before.length then some (emitSet path (.array after))
    else some [.p path common remove items]
  else none

/-- The last branch of `diffArray`: the change of length behind the indices both arrays have. -/
def diffTail (before after : List Json) (path : Path) : List Op :=
  if after.length > before.length then [.p path before.length 0 (after.drop before.length)]
  else if before.length > after.length then
    if after.length = 0 then emitSet path (.array after)
    else [.p path after.length (before.length - after.length) []]
  else []

mutual

/-- `diffValue` where neither side is missing. -/
def diffPresent (scan : ℕ) (before : Json) : Json → Path → Except DeltaError (List Op)
  | .array ys, path =>
    match before with
    | .array xs =>
      if xs.length = ys.length then diffItems scan xs ys 0 path
      else
        match diffRange? xs ys path with
        | some ops => .ok ops
        | none => do
          let retained ← diffItems scan xs ys 0 path
          return retained ++ diffTail xs ys path
    | _ => .ok (emitSet path (.array ys))
  | .object fs, path =>
    match before with
    | .object es =>
      if (Table.keys es ++ Table.keys fs).any RESERVED_SEGMENTS.contains then
        .ok (emitSet path (.object fs))
      else do
        let sets ← diffMembers scan es fs path
        let deletes ← ((Table.keys es).filter fun k => !Table.has fs k).mapM
          fun k => emitDelete (path ++ [.key k])
        return sets ++ deletes.flatten
    | _ => .ok (emitSet path (.object fs))
  | .string t, path =>
    match before with
    | .string s => .ok (diffString scan s t path)
    | _ => .ok (emitSet path (.string t))
  | after, path => .ok (if strictEqual before after then [] else emitSet path after)

/-- The members of `after`, against those of `before` under the same keys. -/
def diffMembers (scan : ℕ) (before : List (JsString × Json)) :
    List (JsString × Json) → Path → Except DeltaError (List Op)
  | [], _ => .ok []
  | f :: fs, path => do
    let ops ← match Table.get before f.1 with
      | none => .ok (emitSet (path ++ [.key f.1]) f.2)
      | some b => diffPresent scan b f.2 (path ++ [.key f.1])
    let rest ← diffMembers scan before fs path
    return ops ++ rest

/-- The elements at indices both arrays have, from `index` on. -/
def diffItems (scan : ℕ) (before : List Json) :
    List Json → ℕ → Path → Except DeltaError (List Op)
  | [], _, _ => .ok []
  | y :: ys, index, path =>
    match before with
    | [] => .ok []
    | x :: xs => do
      let ops ← diffPresent scan x y (path ++ [.index index])
      let rest ← diffItems scan xs ys (index + 1) path
      return ops ++ rest

end

/-- `diffValue`; `none` is `MISSING`. -/
def diffValue (scan : ℕ) (before after : Option Json) (path : Path) :
    Except DeltaError (List Op) :=
  match before, after with
  | none, none => .ok []
  | none, some after => .ok (emitSet path after)
  | some _, none => emitDelete path
  | some before, some after => diffPresent scan before after path

/-! ## Soundness of equality -/

theorem jsonEqualItems_forall {xs ys : List Json} (hlen : xs.length = ys.length)
    (ih : ∀ x ∈ xs, ∀ y, y ∈ ys → jsonEqual x y = true → Same x y)
    (h : jsonEqualItems xs ys = true) : List.Forall₂ Same xs ys := by
  induction xs generalizing ys with
  | nil =>
    rw [List.length_eq_zero_iff.mp hlen.symm]
    exact .nil
  | cons x xs ihxs =>
    cases ys with
    | nil => simp at hlen
    | cons y ys =>
      simp only [jsonEqualItems, Bool.and_eq_true] at h
      refine .cons (ih x (by simp) y (by simp) h.1) (ihxs (by simpa using hlen) ?_ h.2)
      exact fun x' hx y' hy => ih x' (by simp [hx]) y' (by simp [hy])

theorem jsonEqualEntries_get {es fs : List (JsString × Json)} (h : jsonEqualEntries es fs = true) :
    ∀ e ∈ es, ∃ w, Table.get fs e.1 = some w ∧ jsonEqual e.2 w = true := by
  induction es with
  | nil => simp
  | cons e es ih =>
    simp only [jsonEqualEntries, Bool.and_eq_true] at h
    intro e' he'
    rcases List.mem_cons.mp he' with rfl | he'
    · cases hw : Table.get fs e'.1 with
      | none => simp [hw] at h
      | some w => exact ⟨w, rfl, by simpa [hw] using h.1⟩
    · exact ih h.2 e' he'

/-- Two objects with as many members, every member of one also a member of the other. -/
theorem slotSame_of_entries {es fs : List (JsString × Json)} (hn : Table.Nodup es)
    (hlen : es.length = fs.length)
    (h : ∀ e ∈ es, ∃ w, Table.get fs e.1 = some w ∧ Same e.2 w) (k : JsString) :
    SlotSame (Table.get es k) (Table.get fs k) := by
  have hsub : Table.keys es ⊆ Table.keys fs := by
    intro k hk
    obtain ⟨e, he, rfl⟩ := List.mem_map.mp hk
    obtain ⟨w, hw, -⟩ := h e he
    exact Table.mem_keys_of_get hw
  have hperm : (Table.keys es).Perm (Table.keys fs) :=
    (List.subperm_of_subset hn hsub).perm_of_length_le (by simp [Table.keys, hlen])
  cases hk : Table.get es k with
  | none =>
    have hnot : k ∉ Table.keys fs := fun hmem =>
      Table.get_eq_none_iff.mp hk (hperm.mem_iff.mpr hmem)
    rw [Table.get_eq_none_iff.mpr hnot]
    trivial
  | some v =>
    obtain ⟨w, hw, hs⟩ := h _ (Table.mem_of_get hk)
    rw [hw]
    exact hs

/-- `jsonEqual` accepts only the same JSON value. -/
theorem same_of_jsonEqual {v w : Json} (hv : v.WellFormed) (hw : w.WellFormed)
    (h : jsonEqual v w = true) : Same v w := by
  induction hv generalizing w with
  | null | bool | number | string => rw [eq_of_strictEqual h]
  | @array xs hxs ih =>
    cases w <;> simp only [jsonEqual, Bool.false_eq_true] at h
    next ys =>
    obtain ⟨hlen, hitems⟩ := Bool.and_eq_true_iff.mp h
    refine same_array.mpr (jsonEqualItems_forall (by simpa using hlen) ?_ hitems)
    exact fun x hx y hy heq => ih x hx (hw.items y hy) heq
  | @object es hn hes ih =>
    cases w <;> simp only [jsonEqual, Bool.false_eq_true] at h
    next fs =>
    obtain ⟨hlen, hentries⟩ := Bool.and_eq_true_iff.mp h
    refine same_object.mpr (slotSame_of_entries hn (by simpa using hlen) ?_)
    intro e he
    obtain ⟨w, hget, heq⟩ := jsonEqualEntries_get hentries e he
    exact ⟨w, hget, ih e he (hw.entries _ (Table.mem_of_get hget)) heq⟩

/-! ## Soundness of ops -/

/-- What a slot holds is well formed. -/
def SlotWellFormed (x : Option Json) : Prop := ∀ v, x = some v → v.WellFormed

/-- The ops are valid and turn whatever is the same JSON value as `before` into one that is the same
as `after`. -/
structure Converts (path : Path) (ops : List Op) (before after : Option Json) : Prop where
  valid : ∀ op ∈ ops, op.Valid
  runs : ∀ x, SlotSame x before → SlotWellFormed x →
    ∃ y, RunsAt path ops x y ∧ SlotSame y after ∧ SlotWellFormed y

theorem Converts.nil {path : Path} {before after : Option Json} (h : SlotSame before after) :
    Converts path [] before after where
  valid := by simp
  runs x hx hwf := ⟨x, RunsAt.nil path x, hx.trans h, hwf⟩

theorem Converts.trans {path : Path} {ops ops' : List Op} {before after : Option Json} {mid : Json}
    (h : Converts path ops before (some mid)) (h' : Converts path ops' (some mid) after) :
    Converts path (ops ++ ops') before after where
  valid op hop := (List.mem_append.mp hop).elim (h.valid op) (h'.valid op)
  runs x hx hwf := by
    obtain ⟨y, hy, hsame, hwfy⟩ := h.runs x hx hwf
    obtain ⟨v, rfl, -⟩ := hsame.some_right
    obtain ⟨z, hz, hsame', hwfz⟩ := h'.runs _ hsame hwfy
    exact ⟨z, hy.trans hz, hsame', hwfz⟩

/-- Ops that leave exactly `after`, whatever was there. -/
theorem Converts.of_runsAt {path : Path} {ops : List Op} {before : Option Json} {after : Json}
    (hvalid : ∀ op ∈ ops, op.Valid) (hwf : after.WellFormed)
    (h : ∀ x, SlotSame x before → RunsAt path ops x (some after)) :
    Converts path ops before (some after) where
  valid := hvalid
  runs x hx _ := ⟨some after, h x hx, SlotSame.refl _, fun v hv => by cases hv; exact hwf⟩

theorem converts_emitSet {path : Path} (hsafe : SafePath path) (before : Option Json) {after : Json}
    (hwf : after.WellFormed) : Converts path (emitSet path after) before (some after) := by
  rcases List.eq_nil_or_concat path with rfl | ⟨p, seg, rfl⟩
  · exact .of_runsAt (by simp [emitSet, Op.Valid, assertValidOp]) hwf fun x _ => runsAt_r x after
  · rw [List.concat_eq_append] at hsafe ⊢
    have hne : ¬p ++ [seg] = [] := by simp
    rw [emitSet, if_neg hne]
    refine .of_runsAt ?_ hwf fun x _ => runsAt_s hsafe x after
    simp only [List.mem_singleton, forall_eq]
    exact Op.Targets.valid (.inl ⟨after, rfl⟩) hsafe

theorem converts_emitDelete {path : Path} {seg : Seg} (hsafe : SafePath (path ++ [seg]))
    (before : Option Json) :
    ∃ ops, emitDelete (path ++ [seg]) = .ok ops ∧ Converts (path ++ [seg]) ops before none := by
  refine ⟨_, if_neg (by simp), ?_, ?_⟩
  · simp only [List.mem_singleton, forall_eq]
    exact Op.Targets.valid (.inr (.inl rfl)) hsafe
  · exact fun x _ _ => ⟨none, runsAt_d hsafe x, trivial, fun v hv => by cases hv⟩

/-- Two strings: an append, a truncation and an append, or a set. -/
theorem converts_diffString (scan : ℕ) {path : Path} (hsafe : SafePath path)
    (before after : JsString) :
    Converts path (diffString scan before after path) (some (.string before))
      (some (.string after)) := by
  have hexact : ∀ {x}, SlotSame x (some (.string before)) → x = some (.string before) := by
    intro x hx
    obtain ⟨v, rfl, hv⟩ := hx.some_right
    rw [eq_of_kind hv.kind rfl]
  have hset := converts_emitSet hsafe (some (.string before)) (WellFormed.string after)
  rw [diffString]
  split
  · next h => rw [h]; exact .nil (SlotSame.refl _)
  split
  · exact hset
  next hpath =>
  obtain ⟨p, seg, rfl⟩ : ∃ p seg, path = p ++ [seg] := by
    rcases List.eq_nil_or_concat path with h | ⟨p, seg, h⟩
    · exact absurd h hpath
    · exact ⟨p, seg, by rw [h, List.concat_eq_append]⟩
  have hva : ∀ text, (Op.a (p ++ [seg]) text).Valid := fun text =>
    Op.Targets.valid (.inr (.inr (.inl ⟨text, rfl⟩))) hsafe
  have hvt : ∀ count, (Op.t (p ++ [seg]) count).Valid := fun count =>
    Op.Targets.valid (.inr (.inr (.inr ⟨count, rfl⟩))) hsafe
  split
  · next hgrow =>
    refine .of_runsAt (by simp [hva]) (.string after) fun x hx => ?_
    have hafter : before ++ after.drop before.length = after := by
      nth_rewrite 1 [← hgrow.2]
      exact List.take_append_drop before.length after
    have hrun := runsAt_a hsafe before (after.drop before.length)
    rw [hafter] at hrun
    rw [hexact hx]
    exact hrun
  · simp only
    split
    · rw [emitSet, if_neg hpath] at hset
      exact hset
    · have hover := overlap_sound before after scan 64 8
      have htrunc := runsAt_t hsafe before (before.length - overlap before after scan 64 8)
      rw [hover] at htrunc
      split
      · next hmore =>
        refine .of_runsAt (by simp [hva, hvt]) (.string after) fun x hx => ?_
        have happ := runsAt_a hsafe (after.take (overlap before after scan 64 8))
          (after.drop (overlap before after scan 64 8))
        rw [List.take_append_drop] at happ
        rw [hexact hx]
        exact htrunc.trans happ
      · next hless =>
        refine .of_runsAt (by simp [hvt]) (.string after) fun x hx => ?_
        rw [List.take_of_length_le (by omega)] at htrunc
        rw [hexact hx]
        exact htrunc

/-! ## Slot by slot -/

/-- Ops for some slots of a container, each turning the slot of `before` into that of `after`. -/
structure Edits (path : Path) (before after : Json) (edits : Table Seg (List Op)) : Prop where
  nodup : edits.Nodup
  converts : ∀ e ∈ edits, Converts (path ++ [e.1]) e.2 (before.child e.1) (after.child e.1)
  accepts : ∀ e ∈ edits, before.Accepts e.1 (after.child e.1)

theorem accepts_of_kind {c d : Json} {seg : Seg} {x : Option Json} (hk : c.kind = d.kind)
    (h : d.Accepts seg x) : c.Accepts seg x := by
  obtain ⟨hs, hx⟩ := h
  refine ⟨?_, fun hnone => hk.trans (hx hnone)⟩
  cases c <;> cases d <;> cases seg <;> simp_all [HasSlot, kind]

theorem Edits.tail {path : Path} {before after : Json} {e : Seg × List Op}
    {edits : Table Seg (List Op)} (h : Edits path before after (e :: edits)) :
    Edits path before after edits where
  nodup := (List.nodup_cons.mp h.nodup).2
  converts e' he' := h.converts e' (List.mem_cons_of_mem _ he')
  accepts e' he' := h.accepts e' (List.mem_cons_of_mem _ he')

/-- Run one after the other, the edits bring each of their slots to `after` and leave the others. -/
theorem Edits.run {path : Path} {before after : Json} {edits : Table Seg (List Op)}
    (h : Edits path before after edits) {u : Json} (hk : u.kind = before.kind) (hwf : u.WellFormed)
    (hu : ∀ e ∈ edits, SlotSame (u.child e.1) (before.child e.1)) :
    ∃ u', RunsAt path (edits.flatMap Prod.snd) (some u) (some u') ∧ u'.kind = before.kind ∧
      u'.WellFormed ∧
      ∀ s, SlotSame (u'.child s) (if s ∈ edits.keys then after.child s else u.child s) := by
  induction edits generalizing u with
  | nil => exact ⟨u, RunsAt.nil path _, hk, hwf, fun s => by simpa using SlotSame.refl _⟩
  | cons e edits ih =>
    obtain ⟨hnot, -⟩ := List.nodup_cons.mp h.nodup
    have hmem : e ∈ e :: edits := List.mem_cons_self ..
    -- the first edit
    obtain ⟨y, hrun, hsame, hwfy⟩ :=
      (h.converts e hmem).runs _ (hu e hmem) fun v hv => hwf.child hv
    have hacc : u.Accepts e.1 y := by
      refine accepts_of_kind hk ⟨(h.accepts e hmem).1, fun hy => (h.accepts e hmem).2 ?_⟩
      rw [hy] at hsame
      exact hsame.none_left
    have hchild := child_putChild hacc
    -- the others, from where it leaves the container
    obtain ⟨u', hrun', hk', hwf', hs'⟩ := ih h.tail (u := u.putChild e.1 y)
      (by rw [kind_putChild, hk]) (hwf.putChild e.1 hwfy) (by
        intro e' he'
        have hne : e.1 ≠ e'.1 := fun heq => hnot (heq ▸ Table.mem_keys_of_mem he')
        rw [hchild, if_neg hne]
        exact hu e' (List.mem_cons_of_mem _ he'))
    refine ⟨u', (hrun.lift hacc).trans hrun', hk', hwf', fun s => ?_⟩
    refine (hs' s).trans ?_
    by_cases hin : s ∈ Table.keys edits
    · simp [hin, SlotSame.refl]
    · rw [if_neg hin, hchild]
      by_cases hes : e.1 = s
      · subst hes
        simpa using hsame
      · rw [if_neg hes, if_neg (by simp [hin, Ne.symm hes])]
        exact SlotSame.refl _

/-- Edits for every slot in which two containers of one kind differ. -/
theorem Edits.toConverts {path : Path} {before after : Json} {edits : Table Seg (List Op)}
    (h : Edits path before after edits) (hk : before.kind = after.kind)
    (hrest : ∀ s, s ∉ edits.keys → SlotSame (before.child s) (after.child s)) :
    Converts path (edits.flatMap Prod.snd) (some before) (some after) where
  valid op hop := by
    obtain ⟨e, he, hop⟩ := List.mem_flatMap.mp hop
    exact (h.converts e he).valid op hop
  runs x hx hwf := by
    obtain ⟨u, rfl, hu⟩ := hx.some_right
    obtain ⟨u', hrun, hk', hwf', hs⟩ :=
      h.run hu.kind (hwf u rfl) fun e _ => hu.child e.1
    refine ⟨some u', hrun, same_iff.mpr ⟨hk'.trans hk, fun s => ?_⟩, fun v hv => by cases hv; exact hwf'⟩
    refine (hs s).trans ?_
    split
    · exact SlotSame.refl _
    · next hin => exact (hu.child s).trans (hrest s hin)

/-! ## Arrays -/

theorem commonLength_spec (xs ys : List Json) (hx : ∀ x ∈ xs, x.WellFormed)
    (hy : ∀ y ∈ ys, y.WellFormed) :
    commonLength xs ys ≤ xs.length ∧ commonLength xs ys ≤ ys.length ∧
      List.Forall₂ Same (xs.take (commonLength xs ys)) (ys.take (commonLength xs ys)) := by
  induction xs generalizing ys with
  | nil => cases ys <;> simp [commonLength]
  | cons x xs ih =>
    cases ys with
    | nil => simp [commonLength]
    | cons y ys =>
      simp only [List.forall_mem_cons] at hx hy
      simp only [commonLength]
      split
      · next heq =>
        obtain ⟨h1, h2, h3⟩ := ih ys hx.2 hy.2
        refine ⟨by simpa using h1, by simpa using h2, ?_⟩
        simpa using ⟨same_of_jsonEqual hx.1 hy.1 heq, h3⟩
      · simp

theorem forall₂_same_trans {xs ys zs : List Json} (h : List.Forall₂ Same xs ys)
    (h' : List.Forall₂ Same ys zs) : List.Forall₂ Same xs zs := by
  rw [← same_array] at h h' ⊢
  exact h.trans h'

theorem forall₂_same_refl (xs : List Json) : List.Forall₂ Same xs xs :=
  same_array.mp (Same.refl _)

/-- The two counted ends of `diffRange?`: the arrays agree before `common` and in the last `suffix`
elements. -/
theorem commonEnds_spec {xs ys : List Json} (hx : ∀ x ∈ xs, x.WellFormed)
    (hy : ∀ y ∈ ys, y.WellFormed) {common suffix : ℕ} (hc : common = commonLength xs ys)
    (hs : suffix = commonLength (xs.drop common).reverse (ys.drop common).reverse) :
    common + suffix ≤ xs.length ∧ common + suffix ≤ ys.length ∧
      List.Forall₂ Same (xs.take common) (ys.take common) ∧
      List.Forall₂ Same (xs.drop (xs.length - suffix)) (ys.drop (ys.length - suffix)) := by
  obtain ⟨h1, h2, h3⟩ := commonLength_spec xs ys hx hy
  rw [← hc] at h1 h2 h3
  obtain ⟨g1, g2, g3⟩ := commonLength_spec (xs.drop common).reverse (ys.drop common).reverse
    (fun x hmem => hx x (List.mem_of_mem_drop (List.mem_reverse.mp hmem)))
    (fun y hmem => hy y (List.mem_of_mem_drop (List.mem_reverse.mp hmem)))
  rw [← hs] at g1 g2 g3
  simp only [List.length_reverse, List.length_drop] at g1 g2
  rw [List.take_reverse, List.take_reverse, List.forall₂_reverse_iff, List.drop_drop,
    List.drop_drop, List.length_drop, List.length_drop] at g3
  refine ⟨by omega, by omega, h3, ?_⟩
  rwa [show common + (xs.length - common - suffix) = xs.length - suffix by omega,
    show common + (ys.length - common - suffix) = ys.length - suffix by omega] at g3

/-- A splice that keeps what stands before and behind its range. -/
theorem converts_splice {path : Path} (hsafe : SafePath path) {xs ys items : List Json}
    {index remove : ℕ} (hy : ∀ y ∈ ys, y.WellFormed) (hle : index + remove ≤ xs.length)
    (hitems : ∃ front back, ys = front ++ items ++ back ∧
      List.Forall₂ Same (xs.take index) front ∧
      List.Forall₂ Same (xs.drop (index + remove)) back) :
    Converts path [.p path index remove items] (some (.array xs)) (some (.array ys)) where
  valid := by
    simp only [List.mem_singleton, forall_eq]
    exact valid_p hsafe index remove items
  runs x hx hwf := by
    obtain ⟨u, rfl, hu⟩ := hx.some_right
    obtain ⟨us, rfl, hus⟩ := hu.array_right
    obtain ⟨front, back, rfl, hfront, hback⟩ := hitems
    have hlen := hus.length_eq
    refine ⟨_, runsAt_p hsafe (by omega) remove items, ?_, ?_⟩
    · refine same_array.mpr (List.rel_append (List.rel_append ?_ (forall₂_same_refl items)) ?_)
      · exact forall₂_same_trans (List.forall₂_take index hus) hfront
      · exact forall₂_same_trans (List.forall₂_drop _ hus) hback
    · intro v hv
      cases hv
      refine WellFormed.array fun y hmem => ?_
      simp only [splice, List.mem_append] at hmem
      rcases hmem with (hmem | hmem) | hmem
      · exact (hwf _ rfl).items y (List.mem_of_mem_take hmem)
      · exact hy y (by simp [hmem])
      · exact (hwf _ rfl).items y (List.mem_of_mem_drop hmem)

theorem converts_diffRange? {path : Path} (hsafe : SafePath path) {xs ys : List Json}
    (hx : ∀ x ∈ xs, x.WellFormed) (hy : ∀ y ∈ ys, y.WellFormed) {ops : List Op}
    (h : diffRange? xs ys path = some ops) :
    Converts path ops (some (.array xs)) (some (.array ys)) := by
  simp only [diffRange?] at h
  obtain ⟨hl, hl', hfront, hback⟩ := commonEnds_spec hx hy rfl rfl
  generalize commonLength xs ys = common at h hl hl' hfront hback
  generalize commonLength (xs.drop common).reverse (ys.drop common).reverse = suffix
    at h hl hl' hback
  split at h
  · split at h
    · rw [← Option.some.inj h]
      exact converts_emitSet hsafe _ (.array hy)
    · rw [← Option.some.inj h]
      refine converts_splice hsafe hy (by omega) ⟨ys.take common, ys.drop (ys.length - suffix),
        ?_, hfront, ?_⟩
      · rw [List.append_assoc]
        nth_rewrite 1 [← List.take_append_drop common ys]
        congr 1
        nth_rewrite 1 [← List.take_append_drop (ys.length - suffix - common) (ys.drop common)]
        rw [List.drop_drop, show common + (ys.length - suffix - common) = ys.length - suffix by omega]
      · rwa [show common + (xs.length - common - suffix) = xs.length - suffix by omega]
  · cases h

/-- The array `diffTail` starts from: the indices both arrays have are already those of `after`. -/
theorem converts_diffTail {path : Path} (hsafe : SafePath path) {xs ys : List Json}
    (hy : ∀ y ∈ ys, y.WellFormed) :
    Converts path (diffTail xs ys path)
      (some (.array (ys.take xs.length ++ xs.drop ys.length))) (some (.array ys)) := by
  have hlen : (ys.take xs.length ++ xs.drop ys.length).length = xs.length := by
    simp only [List.length_append, List.length_take, List.length_drop]; omega
  simp only [diffTail]
  split
  · next hgrow =>
    have hdrop : xs.drop ys.length = [] := List.drop_of_length_le (by omega)
    refine converts_splice hsafe hy (by omega) ⟨ys.take xs.length, [], ?_, ?_, ?_⟩
    · simp
    · rw [hdrop, List.append_nil, List.take_take, Nat.min_self]
      exact forall₂_same_refl _
    · rw [List.drop_of_length_le (by omega)]
      exact .nil
  split
  · next hshrink =>
    have htake : ys.take xs.length = ys := List.take_of_length_le (by omega)
    split
    · exact converts_emitSet hsafe _ (.array hy)
    · refine converts_splice hsafe hy (by omega) ⟨ys, [], by simp, ?_, ?_⟩
      · rw [htake, List.take_left]
        exact forall₂_same_refl _
      · rw [List.drop_of_length_le (by omega)]
        exact .nil
  · rw [List.take_of_length_le (by omega), List.drop_of_length_le (by omega), List.append_nil]
    exact .nil (SlotSame.refl _)

/-! ## Soundness of diffing -/

/-- Edits for the elements at indices both arrays have. -/
theorem edits_of_items {path : Path} {xs ys : List Json} {edits : Table Seg (List Op)}
    (hkeys : edits.keys = (List.range (min xs.length ys.length)).map Seg.index)
    (h : ∀ e ∈ edits, ∃ i x y, e.1 = Seg.index i ∧ xs[i]? = some x ∧ ys[i]? = some y ∧
      Converts (path ++ [e.1]) e.2 (some x) (some y)) :
    Converts path (edits.flatMap Prod.snd) (some (.array xs))
      (some (.array (ys.take xs.length ++ xs.drop ys.length))) := by
  have hlen : (ys.take xs.length ++ xs.drop ys.length).length = xs.length := by
    simp only [List.length_append, List.length_take, List.length_drop]; omega
  have hget : ∀ i, i < min xs.length ys.length →
      (ys.take xs.length ++ xs.drop ys.length)[i]? = ys[i]? := by
    intro i hi
    rw [List.getElem?_append_left (by rw [List.length_take]; omega),
      List.getElem?_take_of_lt (by omega)]
  refine Edits.toConverts ⟨?_, ?_, ?_⟩ (by simp only [kind, hlen]) ?_
  · rw [Table.Nodup, hkeys]
    exact List.Nodup.map (fun i j h => Seg.index.inj h) List.nodup_range
  · intro e he
    obtain ⟨i, x, y, hi, hx, hy, hconv⟩ := h e he
    have hlt := (List.getElem?_eq_some_iff.mp hx).1
    have hlt' := (List.getElem?_eq_some_iff.mp hy).1
    have hafter : child (.array (ys.take xs.length ++ xs.drop ys.length)) (.index i) = some y := by
      simp only [child, hget i (by omega), hy]
    rw [hi] at hconv ⊢
    rwa [hafter, show child (.array xs) (.index i) = some x from hx]
  · intro e he
    obtain ⟨i, x, y, hi, hx, hy, -⟩ := h e he
    have hlt := (List.getElem?_eq_some_iff.mp hx).1
    have hlt' := (List.getElem?_eq_some_iff.mp hy).1
    rw [hi]
    refine ⟨hlt, fun hnone => ?_⟩
    simp only [child, hget i (by omega), hy] at hnone
    cases hnone
  · intro s hs
    cases s with
    | key k => exact SlotSame.refl _
    | index i =>
      have hi : ¬i < min xs.length ys.length := by
        intro hi
        refine hs ?_
        rw [hkeys]
        exact List.mem_map_of_mem (List.mem_range.mpr hi)
      simp only [child]
      by_cases hix : i < xs.length
      · rw [List.getElem?_append_right (by rw [List.length_take]; omega), List.getElem?_drop,
          List.length_take, show ys.length + (i - min xs.length ys.length) = i by omega]
        exact SlotSame.refl _
      · rw [List.getElem?_eq_none (by omega), List.getElem?_eq_none (by omega)]
        trivial

/-- Edits for the members of `after`, then a deletion for every other member of `before`. -/
theorem converts_members {path : Path} (hsafe : SafePath path) {es fs : List (JsString × Json)}
    (hes : Table.Nodup es) (hfs : Table.Nodup fs)
    (hreserved : (Table.keys es ++ Table.keys fs).any RESERVED_SEGMENTS.contains = false)
    {edits : Table Seg (List Op)} (hkeys : edits.keys = (Table.keys fs).map Seg.key)
    (h : ∀ e ∈ edits, ∃ k v, e.1 = Seg.key k ∧ (k, v) ∈ fs ∧
      Converts (path ++ [e.1]) e.2 (Table.get es k) (some v)) :
    ∃ deletes, ((Table.keys es).filter fun k => !Table.has fs k).mapM
        (fun k => emitDelete (path ++ [Seg.key k])) = .ok deletes ∧
      Converts path (edits.flatMap Prod.snd ++ deletes.flatten) (some (.object es))
        (some (.object fs)) := by
  have hkeysafe : ∀ k ∈ Table.keys es, SafePath (path ++ [Seg.key k]) := by
    intro k hk
    refine hsafe.concat ?_
    have hnot := List.any_eq_false.mp hreserved k (List.mem_append_left _ hk)
    simpa [Seg.isSafe] using hnot
  let gone := (Table.keys es).filter fun k => !Table.has fs k
  let deletions : Table Seg (List Op) := gone.map fun k => (Seg.key k, [Op.d (path ++ [Seg.key k])])
  have hgone : ∀ k, k ∈ gone ↔ k ∈ Table.keys es ∧ k ∉ Table.keys fs := by
    intro k
    simp [gone]
  have hmapM : gone.mapM (fun k => emitDelete (path ++ [Seg.key k]))
      = .ok (gone.map fun k => [Op.d (path ++ [Seg.key k])]) := by
    have hpure : (fun k => emitDelete (path ++ [Seg.key k]))
        = fun k => (pure [Op.d (path ++ [Seg.key k])] : Except DeltaError (List Op)) := by
      funext k
      exact if_neg (by simp)
    rw [hpure, List.mapM_pure]
    rfl
  refine ⟨_, hmapM, ?_⟩
  have hflat : edits.flatMap Prod.snd ++ (gone.map fun k => [Op.d (path ++ [Seg.key k])]).flatten
      = (edits ++ deletions).flatMap Prod.snd := by
    rw [List.flatMap_append, List.flatMap_map, List.flatMap_def, List.flatMap_def]
  have hdel : Table.keys deletions = gone.map Seg.key := by
    simp [deletions, Table.keys, Function.comp_def]
  rw [hflat]
  refine Edits.toConverts ⟨?_, ?_, ?_⟩ rfl ?_
  · rw [Table.Nodup, Table.keys_append, hkeys, hdel, ← List.map_append]
    refine List.Nodup.map (fun i j h => Seg.key.inj h) (List.nodup_append.mpr ⟨hfs, ?_, ?_⟩)
    · exact List.Nodup.filter _ hes
    · rintro a ha b hb rfl
      exact ((hgone a).mp hb).2 ha
  · intro e he
    rcases List.mem_append.mp he with he | he
    · obtain ⟨k, v, hk, hmem, hconv⟩ := h e he
      rw [hk] at hconv ⊢
      rwa [show child (.object fs) (.key k) = some v from Table.get_of_mem hfs hmem]
    · obtain ⟨k, hk, rfl⟩ := List.mem_map.mp he
      obtain ⟨hin, hout⟩ := (hgone k).mp hk
      obtain ⟨ops, hops, hconv⟩ := converts_emitDelete (hkeysafe k hin) (Table.get es k)
      have hop : ops = [Op.d (path ++ [Seg.key k])] :=
        (Except.ok.inj ((if_neg (by simp)).symm.trans hops)).symm
      rw [show child (.object fs) (.key k) = none from Table.get_eq_none_iff.mpr hout]
      rwa [hop] at hconv
  · intro e he
    refine ⟨?_, fun _ => rfl⟩
    rcases List.mem_append.mp he with he | he
    · obtain ⟨k, v, hk, -⟩ := h e he
      rw [hk]
      trivial
    · obtain ⟨k, hk, rfl⟩ := List.mem_map.mp he
      trivial
  · intro s hs
    rw [Table.keys_append, hkeys, hdel, ← List.map_append] at hs
    cases s with
    | index i => exact SlotSame.refl _
    | key k =>
      have hk : k ∉ Table.keys fs ++ gone := fun hmem => hs (List.mem_map_of_mem hmem)
      rw [List.mem_append, not_or, hgone, not_and, not_not] at hk
      have hk' : k ∉ Table.keys es := fun hmem => hk.1 (hk.2 hmem)
      simp only [child, Table.get_eq_none_iff.mpr hk.1, Table.get_eq_none_iff.mpr hk']
      trivial

mutual

/-- **Diff soundness.** The ops turn `before` into `after`. -/
theorem diffPresent_converts (scan : ℕ) {before after : Json} {path : Path}
    (hb : before.WellFormed) (ha : after.WellFormed) (hsafe : SafePath path) :
    ∃ ops, diffPresent scan before after path = .ok ops ∧
      Converts path ops (some before) (some after) := by
  have hset := converts_emitSet hsafe (some before) ha
  rw [diffPresent.eq_def]
  match after with
  | .array ys =>
    match before with
    | .array xs =>
      obtain ⟨edits, hdiff, hkeys, hedits⟩ := diffItems_edits scan hb.items ha.items 0 hsafe
      simp only [Nat.zero_add] at hkeys hedits
      have hconv := edits_of_items hkeys hedits
      simp only [hdiff, ok_bind]
      split
      · next hlen =>
        refine ⟨_, rfl, ?_⟩
        rwa [List.take_of_length_le (by omega), List.drop_of_length_le (by omega),
          List.append_nil] at hconv
      · split
        · next ops hops => exact ⟨ops, rfl, converts_diffRange? hsafe hb.items ha.items hops⟩
        · exact ⟨_, rfl, hconv.trans (converts_diffTail hsafe ha.items)⟩
    | .null | .bool _ | .number _ | .string _ | .object _ => exact ⟨_, rfl, hset⟩
  | .object fs =>
    match before with
    | .object es =>
      simp only
      split
      · exact ⟨_, rfl, hset⟩
      · next hany =>
        have hreserved := Bool.eq_false_of_not_eq_true hany
        have hfree : ∀ k ∈ Table.keys fs, Seg.isSafe (.key k) = true := by
          intro k hk
          have hnot := List.any_eq_false.mp hreserved k (List.mem_append_right _ hk)
          simpa [Seg.isSafe] using hnot
        obtain ⟨edits, hdiff, hkeys, hedits⟩ :=
          diffMembers_edits scan hb.entries ha.entries hfree hsafe
        obtain ⟨deletes, hdeletes, hconv⟩ := converts_members hsafe hb.nodup ha.nodup
          hreserved hkeys hedits
        refine ⟨_, ?_, hconv⟩
        rw [hdiff, ok_bind, hdeletes]
        rfl
    | .null | .bool _ | .number _ | .string _ | .array _ => exact ⟨_, rfl, hset⟩
  | .string t =>
    match before with
    | .string s => exact ⟨_, rfl, converts_diffString scan hsafe s t⟩
    | .null | .bool _ | .number _ | .array _ | .object _ => exact ⟨_, rfl, hset⟩
  | .null | .bool _ | .number _ =>
    refine ⟨_, rfl, ?_⟩
    split
    · next heq =>
      rw [eq_of_strictEqual heq]
      exact .nil (SlotSame.refl _)
    · exact hset

theorem diffMembers_edits (scan : ℕ) {es fs : List (JsString × Json)} {path : Path}
    (hes : ∀ e ∈ es, e.2.WellFormed) (hfs : ∀ f ∈ fs, f.2.WellFormed)
    (hkeys : ∀ k ∈ Table.keys fs, Seg.isSafe (.key k) = true) (hsafe : SafePath path) :
    ∃ edits : Table Seg (List Op), diffMembers scan es fs path = .ok (edits.flatMap Prod.snd) ∧
      edits.keys = (Table.keys fs).map Seg.key ∧
      ∀ e ∈ edits, ∃ k v, e.1 = Seg.key k ∧ (k, v) ∈ fs ∧
        Converts (path ++ [e.1]) e.2 (Table.get es k) (some v) := by
  match fs with
  | [] => exact ⟨[], rfl, rfl, by simp⟩
  | f :: fs =>
    simp only [Table.keys_cons, List.forall_mem_cons] at hkeys hfs
    have hf := hsafe.concat hkeys.1
    obtain ⟨edits, hdiff, hks, hedits⟩ := diffMembers_edits scan hes hfs.2 hkeys.2 hsafe
    obtain ⟨ops, hops, hconv⟩ : ∃ ops, (match Table.get es f.1 with
        | none => Except.ok (emitSet (path ++ [Seg.key f.1]) f.2)
        | some b => diffPresent scan b f.2 (path ++ [Seg.key f.1])) = Except.ok ops ∧
        Converts (path ++ [Seg.key f.1]) ops (Table.get es f.1) (some f.2) := by
      cases hget : Table.get es f.1 with
      | none => exact ⟨_, rfl, converts_emitSet hf none hfs.1⟩
      | some b => exact diffPresent_converts scan (hes _ (Table.mem_of_get hget)) hfs.1 hf
    refine ⟨(.key f.1, ops) :: edits, ?_, by simp [hks], ?_⟩
    · rw [diffMembers]
      cases hget : Table.get es f.1 <;> simp only [hget] at hops ⊢ <;> rw [hops, ok_bind, hdiff] <;> rfl
    · intro e he
      rcases List.mem_cons.mp he with rfl | he
      · exact ⟨f.1, f.2, rfl, by simp, hconv⟩
      · obtain ⟨k, v, hk, hmem, hconv'⟩ := hedits e he
        exact ⟨k, v, hk, List.mem_cons_of_mem _ hmem, hconv'⟩

theorem diffItems_edits (scan : ℕ) {xs ys : List Json} {path : Path}
    (hxs : ∀ x ∈ xs, x.WellFormed) (hys : ∀ y ∈ ys, y.WellFormed) (index : ℕ)
    (hsafe : SafePath path) :
    ∃ edits : Table Seg (List Op), diffItems scan xs ys index path = .ok (edits.flatMap Prod.snd) ∧
      edits.keys = (List.range (min xs.length ys.length)).map (fun i => Seg.index (index + i)) ∧
      ∀ e ∈ edits, ∃ i x y, e.1 = Seg.index (index + i) ∧ xs[i]? = some x ∧ ys[i]? = some y ∧
        Converts (path ++ [e.1]) e.2 (some x) (some y) := by
  match ys with
  | [] => exact ⟨[], rfl, by simp, by simp⟩
  | y :: ys =>
    match xs with
    | [] => exact ⟨[], rfl, by simp, by simp⟩
    | x :: xs =>
      simp only [List.forall_mem_cons] at hxs hys
      obtain ⟨ops, hops, hconv⟩ := diffPresent_converts scan hxs.1 hys.1
        (hsafe.concat (show Seg.isSafe (.index index) = true from rfl))
      obtain ⟨edits, hdiff, hks, hedits⟩ := diffItems_edits scan hxs.2 hys.2 (index + 1) hsafe
      refine ⟨(.index index, ops) :: edits, ?_, ?_, ?_⟩
      · rw [diffItems, hops, ok_bind, hdiff]
        rfl
      · simp only [Table.keys_cons, hks, List.length_cons, Nat.succ_min_succ,
          List.range_succ_eq_map, List.map_cons, List.map_map, Nat.add_zero]
        congr 1
        refine List.map_congr_left fun i _ => ?_
        simp [Nat.add_assoc, Nat.add_comm 1]
      · intro e he
        rcases List.mem_cons.mp he with rfl | he
        · exact ⟨0, x, y, rfl, rfl, rfl, hconv⟩
        · obtain ⟨i, x', y', hi, hx', hy', hconv'⟩ := hedits e he
          refine ⟨i + 1, x', y', ?_, hx', hy', hconv'⟩
          rw [hi, Nat.add_assoc, Nat.add_comm 1]

end

/-- Diffing two slots that are not the root's. -/
theorem diffValue_converts (scan : ℕ) {before after : Option Json} {path : Path} {seg : Seg}
    (hb : SlotWellFormed before) (ha : SlotWellFormed after) (hsafe : SafePath (path ++ [seg])) :
    ∃ ops, diffValue scan before after (path ++ [seg]) = .ok ops ∧
      Converts (path ++ [seg]) ops before after := by
  cases before with
  | none =>
    cases after with
    | none => exact ⟨[], rfl, .nil trivial⟩
    | some a => exact ⟨_, rfl, converts_emitSet hsafe none (ha a rfl)⟩
  | some b =>
    cases after with
    | none => exact converts_emitDelete hsafe (some b)
    | some a => exact diffPresent_converts scan (hb b rfl) (ha a rfl) hsafe

end Phi.Delta

import Phi.Delta.Converge

/-!
# Diffs of equal values

At the root, a diff turns any JSON value into any other (`apply_diffValue`). Between equal values it is empty, unless an
object has a member under a reserved name: `diffObject` replaces such an object as a whole, and does not ask first
whether it changed. So a flush after mutations that cancel out is empty exactly when no object that the dirty tree
compares by value has such a member.
-/

namespace Phi.Delta

open Json

/-- **Diff soundness.** Applied to a value, the ops of its diff to another one succeed and leave that one. -/
theorem apply_diffValue (scan : ℕ) (before after : Json) (hbefore : before.WellFormed) (hafter : after.WellFormed) :
    ∃ ops result, diffValue scan (some before) (some after) [] = .ok ops ∧
      apply (some before) ops = .ok (some result) ∧ Same result after := by
  have hsafe : SafePath [] := by simp [SafePath]
  obtain ⟨ops, hdiff, hconverts⟩ := diffPresent_converts scan hbefore hafter hsafe
  obtain ⟨result, happly, hsame, -⟩ := hconverts.apply_root (Same.refl before) hbefore
  exact ⟨ops, result, hdiff, happly, hsame⟩

/-- A text and a list. -/
def sampleBefore : Json :=
  .object [(JsString.ofAscii "log", .string (JsString.ofAscii "abc")),
    (JsString.ofAscii "xs", .array [.null, .number 1])]

/-- The text moved on, the list lost its head, and a member under a reserved name was added. -/
def sampleAfter : Json :=
  .object [(JsString.ofAscii "log", .string (JsString.ofAscii "bcd")), (JsString.ofAscii "xs", .array [.number 1]),
    (JsString.ofAscii "constructor", .null)]

theorem sampleBefore_wellFormed : sampleBefore.WellFormed := by
  have hkeys : [JsString.ofAscii "log", JsString.ofAscii "xs"].Nodup := by decide
  refine .object hkeys ?_
  simp only [List.forall_mem_cons, List.not_mem_nil, false_imp_iff, implies_true, and_true]
  exact ⟨.string _, .array (by simp [WellFormed.null, WellFormed.number])⟩

theorem sampleAfter_wellFormed : sampleAfter.WellFormed := by
  have hkeys : [JsString.ofAscii "log", JsString.ofAscii "xs", JsString.ofAscii "constructor"].Nodup := by decide
  refine .object hkeys ?_
  simp only [List.forall_mem_cons, List.not_mem_nil, false_imp_iff, implies_true, and_true]
  exact ⟨.string _, .array (by simp [WellFormed.number]), .null⟩

theorem apply_diffValue_sample :
    ∃ ops result, diffValue 65536 (some sampleBefore) (some sampleAfter) [] = .ok ops ∧
      apply (some sampleBefore) ops = .ok (some result) ∧ Same result sampleAfter :=
  apply_diffValue 65536 sampleBefore sampleAfter sampleBefore_wellFormed sampleAfter_wellFormed

/-! ## Places that ops can address -/

mutual

/-- No object of the value has a member under a reserved name. -/
def isAddressable : Json → Bool
  | .array xs => itemsAddressable xs
  | .object es => !(Table.keys es).any RESERVED_SEGMENTS.contains && membersAddressable es
  | _ => true

def itemsAddressable : List Json → Bool
  | [] => true
  | x :: xs => isAddressable x && itemsAddressable xs

def membersAddressable : List (JsString × Json) → Bool
  | [] => true
  | e :: es => isAddressable e.2 && membersAddressable es

end

/-- Keys of the same object, in another order perhaps. -/
theorem mem_keys_of_same {es fs : List (JsString × Json)} (h : ∀ k, SlotSame (Table.get es k) (Table.get fs k))
    {k : JsString} : k ∈ Table.keys es ↔ k ∈ Table.keys fs := by
  have hk := h k
  by_cases hmem : k ∈ Table.keys es
  · obtain ⟨v, hv⟩ := Table.exists_get_of_mem_keys hmem
    rw [hv] at hk
    obtain ⟨w, hw, -⟩ := hk.some_left
    exact iff_of_true hmem (Table.mem_keys_of_get hw)
  · rw [Table.get_eq_none_iff.mpr hmem] at hk
    exact iff_of_false hmem (Table.get_eq_none_iff.mp hk.none_left)

theorem emitSet_ne_nil (path : Path) (value : Json) : emitSet path value ≠ [] := by
  unfold emitSet
  split_ifs
  · exact List.cons_ne_nil _ _
  · exact List.cons_ne_nil _ _

/-- Two lots of ops, one after the other, are none when both are none. -/
theorem bind_append_eq_nil {ε α : Type} {first second : Except ε (List α)} :
    (first >>= fun xs => second >>= fun ys => (pure (xs ++ ys) : Except ε (List α))) = .ok [] ↔
      first = .ok [] ∧ second = .ok [] := by
  rw [bind_eq_ok]
  constructor
  · rintro ⟨xs, hfirst, hrest⟩
    obtain ⟨ys, hsecond, heq⟩ := bind_eq_ok.mp hrest
    obtain ⟨rfl, rfl⟩ := List.append_eq_nil_iff.mp (Except.ok.inj heq)
    exact ⟨hfirst, hsecond⟩
  · rintro ⟨rfl, rfl⟩
    exact ⟨[], rfl, rfl⟩

theorem itemsAddressable_iff {xs : List Json} : itemsAddressable xs = true ↔ ∀ x ∈ xs, isAddressable x = true := by
  induction xs with
  | nil => simp [itemsAddressable]
  | cons x xs ih => rw [itemsAddressable, Bool.and_eq_true, ih, List.forall_mem_cons]

theorem membersAddressable_iff {es : List (JsString × Json)} :
    membersAddressable es = true ↔ ∀ e ∈ es, isAddressable e.2 = true := by
  induction es with
  | nil => simp [membersAddressable]
  | cons e es ih => rw [membersAddressable, Bool.and_eq_true, ih, List.forall_mem_cons]

/-! ## Diffs of equal values -/

mutual

/-- The diff of equal values is empty when every place in them can be addressed. -/
theorem diffPresent_eq_nil (scan : ℕ) {before after : Json} (h : Same before after) (ha : after.WellFormed)
    (path : Path) : diffPresent scan before after path = .ok [] ↔ isAddressable after = true := by
  match after with
  | .array ys =>
    obtain ⟨xs, rfl, hitems⟩ := h.array_right
    rw [diffPresent, isAddressable]
    simp only [hitems.length_eq, if_true]
    exact diffItems_eq_nil scan hitems ha.items 0 path
  | .object fs =>
    obtain ⟨es, rfl, hmembers⟩ := h.object_right
    have hkeys : ∀ k, k ∈ Table.keys es ↔ k ∈ Table.keys fs := fun k => mem_keys_of_same hmembers
    have hreserved : (Table.keys es ++ Table.keys fs).any RESERVED_SEGMENTS.contains
        = (Table.keys fs).any RESERVED_SEGMENTS.contains := by
      rw [Bool.eq_iff_iff, List.any_append, Bool.or_eq_true, List.any_eq_true, List.any_eq_true]
      simp only [hkeys, or_self]
    have hkept : (Table.keys es).filter (fun k => !Table.has fs k) = [] := by
      rw [List.filter_eq_nil_iff]
      intro k hk
      simpa using (hkeys k).mp hk
    rw [diffPresent, isAddressable]
    simp only [hreserved, hkept]
    cases hany : (Table.keys fs).any RESERVED_SEGMENTS.contains with
    | true => simp [emitSet_ne_nil]
    | false =>
      have hsame : ∀ f ∈ fs, ∃ b, Table.get es f.1 = some b ∧ Same b f.2 := by
        intro f hf
        have hslot := hmembers f.1
        rw [Table.get_of_mem ha.nodup hf] at hslot
        exact hslot.some_right
      have hsets := diffMembers_eq_nil scan hsame ha.entries path
      simp only [Bool.false_eq_true, if_false, Bool.not_false, Bool.true_and, ← hsets]
      constructor
      · intro hdiff
        obtain ⟨sets, hdiff, hrest⟩ := bind_eq_ok.mp hdiff
        obtain ⟨rfl, -⟩ := List.append_eq_nil_iff.mp (Except.ok.inj hrest)
        exact hdiff
      · intro hdiff
        rw [hdiff]
        rfl
  | .string t =>
    obtain rfl : before = .string t := eq_of_kind h.kind rfl
    simp [diffPresent, diffString, isAddressable]
  | .null =>
    obtain rfl : before = .null := eq_of_kind h.kind rfl
    simp [diffPresent, strictEqual, isAddressable]
  | .bool b =>
    obtain rfl : before = .bool b := eq_of_kind h.kind rfl
    simp [diffPresent, strictEqual, isAddressable]
  | .number q =>
    obtain rfl : before = .number q := eq_of_kind h.kind rfl
    simp [diffPresent, strictEqual, isAddressable]

theorem diffMembers_eq_nil (scan : ℕ) {es fs : List (JsString × Json)}
    (h : ∀ f ∈ fs, ∃ b, Table.get es f.1 = some b ∧ Same b f.2) (hf : ∀ f ∈ fs, f.2.WellFormed) (path : Path) :
    diffMembers scan es fs path = .ok [] ↔ membersAddressable fs = true := by
  match fs with
  | [] => simp [diffMembers, membersAddressable]
  | f :: fs =>
    rw [List.forall_mem_cons] at h hf
    obtain ⟨b, hget, hsame⟩ := h.1
    have hfirst := diffPresent_eq_nil scan hsame hf.1 (path ++ [.key f.1])
    have hrest := diffMembers_eq_nil scan h.2 hf.2 path
    rw [diffMembers, membersAddressable, Bool.and_eq_true, ← hfirst, ← hrest]
    simp only [hget]
    exact bind_append_eq_nil

theorem diffItems_eq_nil (scan : ℕ) {xs ys : List Json} (h : List.Forall₂ Same xs ys)
    (hy : ∀ y ∈ ys, y.WellFormed) (index : ℕ) (path : Path) :
    diffItems scan xs ys index path = .ok [] ↔ itemsAddressable ys = true := by
  match ys with
  | [] => simp [diffItems, itemsAddressable]
  | y :: ys =>
    cases h with
    | @cons x _ xs _ hsame hitems =>
      rw [List.forall_mem_cons] at hy
      have hfirst := diffPresent_eq_nil scan hsame hy.1 (path ++ [.index index])
      have hrest := diffItems_eq_nil scan hitems hy.2 (index + 1) path
      rw [diffItems, itemsAddressable, Bool.and_eq_true, ← hfirst, ← hrest]
      exact bind_append_eq_nil

end

theorem jsonEqualEntries_of_forall {es fs : List (JsString × Json)}
    (h : ∀ e ∈ es, ∃ w, Table.get fs e.1 = some w ∧ jsonEqual e.2 w = true) : jsonEqualEntries es fs = true := by
  induction es with
  | nil => rfl
  | cons e es ih =>
    rw [List.forall_mem_cons] at h
    obtain ⟨⟨w, hget, heq⟩, hrest⟩ := h
    simp only [jsonEqualEntries, hget, heq, ih hrest, Bool.and_self]

theorem jsonEqualItems_of_forall₂ {xs ys : List Json} (h : List.Forall₂ (fun x y => jsonEqual x y = true) xs ys) :
    jsonEqualItems xs ys = true := by
  induction h with
  | nil => rfl
  | cons hxy _ ih => simp only [jsonEqualItems, hxy, ih, Bool.and_self]

/-- `jsonEqual` accepts equal values. -/
theorem jsonEqual_of_same {v w : Json} (hv : v.WellFormed) (hw : w.WellFormed) (h : Same v w) :
    jsonEqual v w = true := by
  induction hv generalizing w with
  | null | bool | number | string =>
    obtain rfl := eq_of_kind h.symm.kind rfl
    simp [jsonEqual, strictEqual]
  | @array xs hxs ih =>
    obtain ⟨ys, rfl, hitems⟩ := h.symm.array_right
    have hsame := same_array.mp h
    rw [jsonEqual, hsame.length_eq, beq_self_eq_true, Bool.true_and]
    refine jsonEqualItems_of_forall₂ ?_
    rw [List.forall₂_iff_get] at hsame ⊢
    refine ⟨hsame.1, fun i hi hi' => ?_⟩
    exact ih _ (List.get_mem _ _) (hw.items _ (List.get_mem _ _)) (hsame.2 i hi hi')
  | @object es hn hes ih =>
    obtain ⟨fs, rfl, -⟩ := h.symm.object_right
    have hmembers := same_object.mp h
    have hperm : (Table.keys es).Perm (Table.keys fs) :=
      (List.perm_ext_iff_of_nodup hn hw.nodup).mpr fun k => mem_keys_of_same hmembers
    have hlen : es.length = fs.length := by simpa [Table.keys] using hperm.length_eq
    rw [jsonEqual, hlen, beq_self_eq_true, Bool.true_and]
    refine jsonEqualEntries_of_forall fun e he => ?_
    have hslot := hmembers e.1
    rw [Table.get_of_mem hn he] at hslot
    obtain ⟨w, hget, hsame⟩ := hslot.some_left
    exact ⟨w, hget, ih e he (hw.entries _ (Table.mem_of_get hget)) hsame⟩

/-! ## Walks of the dirty tree -/

mutual

/-- The objects that `walkDirty` compares by value, in a value that did not change, can all be addressed. -/
def comparesAddressable (v : Json) : DirtyNode → Bool
  | .mk valueDirty arrayDirty children =>
    if valueDirty then isAddressable v
    else
      match arrayDirty with
      | some .replace => true
      | some .diff => isAddressable v
      | some (.append start) =>
        match v with
        | .array xs =>
          if xs.length ≠ start then isAddressable v else childrenCompareAddressable v (some start) children
        | _ => isAddressable v
      | none => childrenCompareAddressable v none children

def childrenCompareAddressable (v : Json) (start : Option ℕ) : List (Seg × DirtyNode) → Bool
  | [] => true
  | c :: children =>
    (isSkipped start c.1 || childComparesAddressable v c) && childrenCompareAddressable v start children

def childComparesAddressable (v : Json) : Seg × DirtyNode → Bool
  | (seg, child) =>
    match ownValue v seg with
    | some current =>
      if child.valueDirty = false ∧ current.isObj then comparesAddressable current child else isAddressable current
    | none => true

end

theorem slotSame_ownValue {before after : Json} (h : Same before after) (seg : Seg) :
    SlotSame (ownValue before seg) (ownValue after seg) := by
  have hkind := h.kind
  cases before <;> cases after <;> simp only [Json.kind, reduceCtorEq, Kind.array.injEq] at hkind
  case array.array xs ys =>
    cases seg with
    | index i => exact h.child (.index i)
    | key k =>
      simp only [ownValue, hkind]
      split_ifs
      · exact SlotSame.refl _
      · cases JsObject.arrayIndex? k with
        | none => trivial
        | some i => exact h.child (.index i)
  case object.object es fs =>
    cases seg with
    | index i => exact h.child (.key (numberText i))
    | key k => exact h.child (.key k)
  all_goals exact h.child seg

theorem wellFormed_ownValue {v c : Json} {seg : Seg} (hv : v.WellFormed) (h : ownValue v seg = some c) :
    c.WellFormed := by
  unfold ownValue at h
  split at h
  · next xs k =>
    split_ifs at h
    · cases h
      exact .number _
    · obtain ⟨i, -, hi⟩ := Option.bind_eq_some_iff.mp h
      exact hv.items c (List.mem_of_getElem? hi)
  · exact hv.child h

theorem isObj_of_kind {v w : Json} (h : v.kind = w.kind) : v.isObj = w.isObj := by
  cases v <;> cases w <;> first | rfl | cases h

mutual

/-- The walk over a value that did not change emits nothing when the compared objects can be addressed. -/
theorem walkDirty_eq_nil (scan : ℕ) {before after : Json} (h : Same before after) (hb : before.WellFormed)
    (ha : after.WellFormed) (n : DirtyNode) (path : Path) :
    walkDirty scan before after n path = .ok [] ↔ comparesAddressable after n = true := by
  match n with
  | .mk valueDirty arrayDirty children =>
    have hdiff : diffValue scan (some before) (some after) path = .ok [] ↔ isAddressable after = true :=
      diffPresent_eq_nil scan h ha path
    have hwalk := fun start => walkChildren_eq_nil scan h hb ha start children path
    rw [walkDirty.eq_def, comparesAddressable.eq_def]
    simp only
    by_cases hv : valueDirty = true
    · rw [if_pos hv, if_pos hv]
      exact hdiff
    rw [if_neg hv, if_neg hv]
    match arrayDirty with
    | none => exact hwalk none
    | some .diff => exact hdiff
    | some .replace => simp [jsonEqual_of_same hb ha h]
    | some (.append start) =>
      match after with
      | .array ys =>
        obtain ⟨xs, rfl, hitems⟩ := h.array_right
        have hlen := hitems.length_eq
        simp only [hlen]
        by_cases hstart : ys.length = start
        · simp only [ne_eq, hstart, not_true_eq_false, lt_self_iff_false, or_self, if_false, ← hwalk (some start)]
          exact bind_append_eq_nil.trans (and_iff_left rfl)
        · simp only [ne_eq, hstart, not_false_eq_true, true_or, if_true]
          exact hdiff
      | .null | .bool _ | .number _ | .string _ | .object _ =>
        cases before <;> exact hdiff

theorem walkChildren_eq_nil (scan : ℕ) {before after : Json} (h : Same before after) (hb : before.WellFormed)
    (ha : after.WellFormed) (start : Option ℕ) (children : List (Seg × DirtyNode)) (path : Path) :
    walkChildren scan before after start children path = .ok [] ↔
      childrenCompareAddressable after start children = true := by
  match children with
  | [] => simp [walkChildren, childrenCompareAddressable]
  | c :: children =>
    have hfirst := walkChild_eq_nil scan h hb ha c path
    have hrest := walkChildren_eq_nil scan h hb ha start children path
    rw [walkChildren, childrenCompareAddressable, Bool.and_eq_true, ← hrest, Bool.or_eq_true, ← hfirst]
    by_cases hskip : isSkipped start c.1 = true
    · rw [if_pos hskip]
      exact bind_append_eq_nil.trans (and_congr_left fun _ => by simp [hskip])
    · rw [if_neg hskip]
      exact bind_append_eq_nil.trans (and_congr_left fun _ => by simp [hskip])

theorem walkChild_eq_nil (scan : ℕ) {before after : Json} (h : Same before after) (hb : before.WellFormed)
    (ha : after.WellFormed) (c : Seg × DirtyNode) (path : Path) :
    walkChild scan before after c path = .ok [] ↔ childComparesAddressable after c = true := by
  match c with
  | (seg, child) =>
    have hslot := slotSame_ownValue h seg
    rw [walkChild, childComparesAddressable]
    cases hafter : ownValue after seg with
    | none =>
      rw [hafter] at hslot
      rw [hslot.none_right]
      simp [diffValue]
    | some current =>
      rw [hafter] at hslot
      obtain ⟨previous, hbefore, hsame⟩ := hslot.some_right
      have hcurrent := wellFormed_ownValue ha hafter
      have hobj : previous.isObj = current.isObj := isObj_of_kind hsame.kind
      rw [hbefore]
      simp only [hobj, and_self]
      split_ifs
      · exact walkDirty_eq_nil scan hsame (wellFormed_ownValue hb hbefore) hcurrent child _
      · exact diffPresent_eq_nil scan hsame hcurrent _

end

/-! ## Flushes -/

/-- What a flush emits when the replica has the tracked value already. -/
theorem Tracks.flush_eq_nil {t : Tracker} {published : Json} (h : Tracks t (some published))
    (hforce : t.forceBase = false) (hsame : Same published t.root) :
    (∃ t', t.flush = .ok ([], t')) ↔ comparesAddressable t.root t.pending = true := by
  obtain ⟨b, x, hb, hbwf, hx, -, hxb, -⟩ := h.baseline hforce
  obtain rfl := Option.some.inj hx
  have hwalk := walkDirty_eq_nil t.scan (hxb.symm.trans hsame) hbwf h.root t.pending []
  rw [← hwalk, Tracker.flush, if_neg (by simp [hforce])]
  simp only [hb]
  by_cases hidle : t.hasPending = false
  · rw [if_pos hidle, h.idle hidle]
    exact iff_of_true ⟨t, rfl⟩ rfl
  rw [if_neg hidle]
  constructor
  · rintro ⟨t', hflush⟩
    obtain ⟨out, hout, hrest⟩ := bind_eq_ok.mp hflush
    obtain ⟨b', -, hreturn⟩ := bind_eq_ok.mp hrest
    obtain ⟨rfl, -⟩ := Prod.mk.inj (Except.ok.inj hreturn)
    exact hout
  · intro hout
    have hadvance : ∃ b', t.advanceBaseline b [] = .ok b' := by
      unfold Tracker.advanceBaseline
      split_ifs with hsync hlength
      · exact ⟨_, rfl⟩
      · exact absurd hlength (by simp)
      · exact ⟨_, rfl⟩
    obtain ⟨b', hb'⟩ := hadvance
    refine ⟨{ t.clearPending with baseline := b' }, ?_⟩
    rw [hout, ok_bind, hb']
    rfl

/-- Mutations return no batch, and leave it to the next flush whether it is a base batch. -/
theorem foldlM_mutate {s s' : Tracker × List (List Op)} {mutations : List (Path × Mutation)}
    (h : (mutations.map fun m => Event.mutate m.1 m.2).foldlM step s = .ok s') :
    s'.2 = s.2 ∧ s'.1.forceBase = s.1.forceBase := by
  induction mutations generalizing s with
  | nil =>
    cases h
    exact ⟨rfl, rfl⟩
  | cons m mutations ih =>
    rw [List.map_cons, List.foldlM_cons] at h
    obtain ⟨s₁, hstep, hrest⟩ := bind_eq_ok.mp h
    obtain ⟨hbatches, hforce⟩ := ih hrest
    rw [step] at hstep
    cases hm : s.1.mutate m.1 m.2 with
    | error e =>
      rw [hm] at hstep
      cases hstep
      exact ⟨hbatches, hforce⟩
    | ok t =>
      rw [hm] at hstep
      cases hstep
      exact ⟨hbatches, hforce.trans (forceBase_mutate hm)⟩

/-- A flush leaves nothing to be sent as a base batch. -/
theorem forceBase_flush {s s' : Tracker × List (List Op)} (h : RunInv s) (hs : step s .flush = .ok s') :
    s'.1.forceBase = false := by
  obtain ⟨x, -, htracks⟩ := h.replica
  obtain ⟨ops, t, v, hflush, -, -, -, -, -, hforce⟩ := htracks.flush
  rw [step, hflush, ok_bind] at hs
  cases hs
  exact hforce

/-- Mutations since a flush whose net effect leaves the tracked value as it was published: the next flush returns the
empty batch exactly when the objects it compares by value can be addressed. -/
theorem flush_of_unchanged (root : Json) (scan : ℕ) (earlier : List Event) (mutations : List (Path × Mutation))
    (hroot : root.WellFormed) (hearlier : ∀ e ∈ earlier, e.WellFormed) (hmutations : ∀ m ∈ mutations, m.2.WellFormed)
    (t : Tracker) (batches : List (List Op)) (published : Json)
    (hrun : run root scan (earlier ++ [.flush] ++ mutations.map fun m => .mutate m.1 m.2) = .ok (t, batches))
    (hpublished : replay batches = .ok (some published)) (hsame : Same published t.root) :
    (∃ t', t.flush = .ok ([], t')) ↔ comparesAddressable t.root t.pending = true := by
  have hinit : RunInv (track root scan, []) :=
    ⟨⟨none, rfl, tracks_track hroot scan none⟩, by simp, by simp, fun _ => rfl⟩
  have hevents : ∀ e ∈ mutations.map fun m => Event.mutate m.1 m.2, e.WellFormed := by
    intro e he
    obtain ⟨m, hm, rfl⟩ := List.mem_map.mp he
    exact hmutations m hm
  obtain ⟨s, hs, hinv⟩ := runInv_foldlM hinit hearlier
  obtain ⟨s₁, hflush, hinv₁⟩ := hinv.step (e := .flush) trivial
  obtain ⟨s₂, hs₂, hinv₂⟩ := runInv_foldlM hinv₁ hevents
  have heq : s₂ = (t, batches) := by
    rw [run, List.foldlM_append, List.foldlM_append, hs, ok_bind, List.foldlM_cons, hflush] at hrun
    exact Except.ok.inj (hs₂.symm.trans hrun)
  have hforce := (foldlM_mutate hs₂).2.trans (forceBase_flush hinv hflush)
  rw [heq] at hinv₂ hforce
  obtain ⟨x, hx, htracks⟩ := hinv₂.replica
  obtain rfl : x = some published := Except.ok.inj (hx.symm.trans hpublished)
  exact htracks.flush_eq_nil hforce hsame

/-- An object with a member under a reserved name. -/
def sampleReserved : Json := .object [(JsString.ofAscii "a", .object [(JsString.ofAscii "constructor", .number 1)])]

/-- The object in it is assigned again, with the same member. -/
def sampleReassigned : List (Path × Mutation) :=
  [([], .assign (JsString.ofAscii "a") (.object [(JsString.ofAscii "constructor", .number 1)]))]

/-- Nothing changed, and the flush sets the object. -/
theorem flush_of_reassigned :
    ∃ t batches published t', run sampleReserved 65536
        ([] ++ [.flush] ++ sampleReassigned.map fun m => .mutate m.1 m.2) = .ok (t, batches) ∧
      replay batches = .ok (some published) ∧ Same published t.root ∧
      t.flush = .ok ([.s [.key (JsString.ofAscii "a")] (.object [(JsString.ofAscii "constructor", .number 1)])], t') :=
  ⟨_, _, _, _, rfl, rfl, Same.refl _, rfl⟩

/-- A number that was set to another one and back again. -/
def sampleDetour : List (Path × Mutation) :=
  [([], .assign (JsString.ofAscii "n") (.number 2)), ([], .assign (JsString.ofAscii "n") (.number 1))]

theorem flush_of_unchanged_detour :
    ∃ t batches published, run sampleRoot 65536
        ([] ++ [.flush] ++ sampleDetour.map fun m => .mutate m.1 m.2) = .ok (t, batches) ∧
      replay batches = .ok (some published) ∧ Same published t.root ∧
      ((∃ t', t.flush = .ok ([], t')) ↔ comparesAddressable t.root t.pending = true) := by
  have hdetour : ∀ m ∈ sampleDetour, m.2.WellFormed := by
    simp only [sampleDetour, List.forall_mem_cons, List.not_mem_nil, false_imp_iff, implies_true, and_true]
    exact ⟨.number 2, .number 1⟩
  refine ⟨_, _, sampleRoot, rfl, rfl, Same.refl _, ?_⟩
  exact flush_of_unchanged sampleRoot 65536 [] sampleDetour sampleRoot_wellFormed (by simp) hdetour _ _ sampleRoot rfl
    rfl (Same.refl _)

end Phi.Delta

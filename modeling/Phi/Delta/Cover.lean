import Phi.Delta.Track

/-!
# What the dirty tree knows

`Cover b r n`: every difference between a baseline `b` and a root `r` lies where the dirty tree `n` will
look for it. A closed node (compared as a whole) covers anything. An open node promises that both
values are containers of one kind, that the slots without a child agree, and that each child either is
compared as a value or covers its slot in turn. An append mark restricts that promise to the indices
below its start, which is where the baseline's array ends.

`Cover.mutate` is the step lemma: a mutation through a proxy, with the mark it records, keeps the tree a
cover.
-/

namespace Phi.Delta

open Json

/-! ## The relation -/

/-- Slots no child looks at agree. -/
def RestSame (b r : Json) (start : Option ℕ) (children : List (Seg × DirtyNode)) : Prop :=
  ∀ seg, isSkipped start seg = false → seg ∉ Table.keys children →
    SlotSame (b.child seg) (r.child seg)

mutual

def Cover (b r : Json) : DirtyNode → Prop
  | .mk valueDirty arrayDirty children =>
    valueDirty = true ∨
      match arrayDirty with
      | some .diff | some .replace => True
      | some (.append start) =>
        ∃ xs ys, b = .array xs ∧ r = .array ys ∧ xs.length = start ∧ start ≤ ys.length ∧
          RestSame b r (some start) children ∧ CoverChildren b r (some start) children
      | none => b.kind = r.kind ∧ RestSame b r none children ∧ CoverChildren b r none children

def CoverChildren (b r : Json) (start : Option ℕ) : List (Seg × DirtyNode) → Prop
  | [] => True
  | c :: children =>
    (isSkipped start c.1 = true ∨ CoverChild b r c) ∧ CoverChildren b r start children

def CoverChild (b r : Json) : Seg × DirtyNode → Prop
  | (seg, child) =>
    b.HasSlot seg ∧ (child.valueDirty = true ∨
      ∃ x y, b.child seg = some x ∧ r.child seg = some y ∧ Cover x y child)

end

theorem coverChildren_iff {b r : Json} {start : Option ℕ} {children : List (Seg × DirtyNode)} :
    CoverChildren b r start children ↔
      ∀ c ∈ children, isSkipped start c.1 = true ∨ CoverChild b r c := by
  induction children with
  | nil => simp [CoverChildren]
  | cons c children ih => simp [CoverChildren, ih]

theorem coverChild_iff {b r : Json} {c : Seg × DirtyNode} :
    CoverChild b r c ↔ b.HasSlot c.1 ∧ (c.2.valueDirty = true ∨
      ∃ x y, b.child c.1 = some x ∧ r.child c.1 = some y ∧ Cover x y c.2) := by
  obtain ⟨seg, child⟩ := c
  rw [CoverChild]

/-- A closed node covers anything. -/
theorem cover_of_isClosed {n : DirtyNode} (h : n.isClosed = true) (b r : Json) : Cover b r n := by
  obtain ⟨v, a, cs⟩ := n
  rw [Cover.eq_def]
  by_cases hv : v = true
  · exact Or.inl hv
  · refine Or.inr ?_
    rcases a with _ | (start | _ | _)
    · simp [DirtyNode.isClosed, DirtyNode.valueDirty, DirtyNode.array, hv] at h
    · simp [DirtyNode.isClosed, DirtyNode.valueDirty, DirtyNode.array, hv] at h
    · trivial
    · trivial

theorem cover_of_same {b r : Json} (h : Same b r) : Cover b r .empty :=
  Or.inr ⟨h.kind, fun seg _ _ => h.child seg, trivial⟩

/-- An open node: its mark is none or an append. -/
theorem DirtyNode.eq_of_not_isClosed {n : DirtyNode} (h : n.isClosed = false) :
    n = .mk false none n.children ∨ ∃ start, n = .mk false (some (.append start)) n.children := by
  obtain ⟨v, a, cs⟩ := n
  rcases a with _ | (start | _ | _) <;> simp_all [isClosed, valueDirty, array, children]

/-! ## Slots under a replaced child -/

theorem hasSlot_of_child {c x : Json} {seg : Seg} (h : c.child seg = some x) : c.HasSlot seg := by
  cases c <;> cases seg <;> simp only [child, reduceCtorEq] at h
  · exact (List.getElem?_eq_some_iff.mp h).1
  · trivial

theorem hasSlot_of_kind {c d : Json} {seg : Seg} (hk : c.kind = d.kind) (h : d.HasSlot seg) :
    c.HasSlot seg := by
  cases c <;> cases d <;> cases seg <;> simp_all [HasSlot, kind]

/-- A path that leads somewhere is focused there. -/
theorem focus_of_slotAt {x : Option Json} {path : Path} {c : Json} (h : slotAt x path = some c)
    (v : Json) : Focus x path (some v) := by
  induction path generalizing x with
  | nil => trivial
  | cons seg path ih =>
    cases x with
    | none =>
      have hnone : ∀ p, slotAt none p = none := by
        intro p
        induction p with
        | nil => rfl
        | cons _ _ ihp => exact ihp
      rw [slotAt, Option.bind_none, hnone] at h
      cases h
    | some d =>
      have hd : slotAt (d.child seg) path = some c := h
      refine ⟨d, rfl, ?_, by simp, ih hd⟩
      cases hx : d.child seg with
      | some x => exact hasSlot_of_child hx
      | none =>
        rw [hx] at hd
        have hfoc := ih hd
        cases path with
        | nil => cases hd
        | cons _ _ => obtain ⟨_, hnone, -⟩ := hfoc; cases hnone

/-- The slots in scope are slots of both values. -/
def SameSlots (b r : Json) (start : Option ℕ) : Prop :=
  ∀ seg, isSkipped start seg = false → (b.HasSlot seg ↔ r.HasSlot seg)

/-- What an update one segment down does to the relation: only the slot `seg` of the root changed, and
only the child `seg` of the node. -/
theorem cover_of_putChild {b r : Json} {v : Bool} {a : Option ArrayDirty}
    {cs cs' : List (Seg × DirtyNode)} {seg : Seg} {y : Option Json}
    (hclosed : (DirtyNode.mk v a cs).isClosed = false) (h : Cover b r (.mk v a cs))
    (hacc : r.Accepts seg y)
    (hkeys : ∀ s, s ≠ seg → (s ∈ Table.keys cs' ↔ s ∈ Table.keys cs))
    (hseg : seg ∈ Table.keys cs')
    (hother : ∀ c ∈ cs', c.1 ≠ seg → c ∈ cs)
    (hchild : ∀ c ∈ cs', c.1 = seg → ∀ start, isSkipped start seg = false →
      SameSlots b r start →
      RestSame b r start cs → CoverChildren b r start cs →
      CoverChild b (r.putChild seg y) c) :
    Cover b (r.putChild seg y) (.mk v a cs') := by
  have hput := child_putChild hacc
  have hrest : ∀ start, RestSame b r start cs → RestSame b (r.putChild seg y) start cs' := by
    intro start hrest s hs hnot
    have hne : seg ≠ s := fun heq => hnot (heq ▸ hseg)
    rw [hput, if_neg hne]
    exact hrest s hs fun hmem => hnot ((hkeys s (Ne.symm hne)).mpr hmem)
  have hchildren : ∀ start, SameSlots b r start →
      RestSame b r start cs → CoverChildren b r start cs →
      CoverChildren b (r.putChild seg y) start cs' := by
    intro start hslot hrs hcov
    rw [coverChildren_iff]
    intro c hc
    by_cases hskip : isSkipped start c.1 = true
    · exact Or.inl hskip
    · refine Or.inr ?_
      by_cases heq : c.1 = seg
      · exact hchild c hc heq start (by simpa [heq] using hskip) hslot hrs hcov
      · have hcov' := (coverChildren_iff.mp hcov c (hother c hc heq)).resolve_left hskip
        rw [coverChild_iff] at hcov' ⊢
        rwa [hput, if_neg (Ne.symm heq)]
  rcases DirtyNode.eq_of_not_isClosed hclosed with heq | ⟨start, heq⟩
  · obtain ⟨rfl, rfl, -⟩ := DirtyNode.mk.inj heq
    rw [Cover] at h ⊢
    obtain ⟨hk, hrs, hcov⟩ := h.resolve_left (by simp)
    have hslot : SameSlots b r none :=
      fun s _ => ⟨hasSlot_of_kind hk.symm, hasSlot_of_kind hk⟩
    exact Or.inr ⟨by rw [kind_putChild]; exact hk, hrest none hrs, hchildren none hslot hrs hcov⟩
  · obtain ⟨rfl, rfl, -⟩ := DirtyNode.mk.inj heq
    rw [Cover] at h ⊢
    obtain ⟨xs, ys, rfl, rfl, hlen, hle, hrs, hcov⟩ := h.resolve_left (by simp)
    have hslot : SameSlots (.array xs) (.array ys) (some start) := by
      intro s hs
      cases s with
      | key k => simp [isSkipped] at hs
      | index i =>
        simp only [isSkipped, ge_iff_le, decide_eq_false_iff_not, not_le] at hs
        simp only [HasSlot]
        omega
    obtain ⟨ys', hys', hlen'⟩ : ∃ ys', (Json.array ys).putChild seg y = .array ys' ∧
        ys'.length = ys.length := by
      have hkind := kind_putChild (.array ys) seg y
      obtain ⟨ys', hys', hl⟩ := kind_eq_array.mp hkind
      exact ⟨ys', hys', hl⟩
    refine Or.inr ⟨xs, ys', rfl, hys', hlen, by omega, ?_⟩
    exact ⟨hrest _ hrs, hchildren _ hslot hrs hcov⟩

/-! ## Marks along a path -/

/-- Every node has one child for a segment, and no segment is reserved. -/
inductive DirtyNode.WellFormed : DirtyNode → Prop
  | mk {v : Bool} {a : Option ArrayDirty} {cs : List (Seg × DirtyNode)} :
      Table.Nodup cs → (∀ c ∈ cs, Seg.isSafe c.1 = true) → (∀ c ∈ cs, WellFormed c.2) →
      WellFormed (.mk v a cs)

theorem DirtyNode.WellFormed.nodup {n : DirtyNode} (h : n.WellFormed) : Table.Nodup n.children := by
  cases h with | mk h _ _ => exact h

theorem DirtyNode.WellFormed.safe {n : DirtyNode} (h : n.WellFormed) :
    ∀ c ∈ n.children, Seg.isSafe c.1 = true := by
  cases h with | mk _ h _ => exact h

theorem DirtyNode.WellFormed.child {n : DirtyNode} (h : n.WellFormed) :
    ∀ c ∈ n.children, c.2.WellFormed := by
  cases h with | mk _ _ h => exact h

theorem DirtyNode.wellFormed_empty : DirtyNode.empty.WellFormed :=
  .mk (by simp [Table.Nodup]) (by simp) (by simp)

theorem DirtyNode.WellFormed.update {f : DirtyNode → DirtyNode}
    (hf : ∀ m : DirtyNode, m.WellFormed → (f m).WellFormed) {path : Path} (hsafe : SafePath path)
    {n : DirtyNode} (h : n.WellFormed) : (n.update f path).WellFormed := by
  induction path generalizing n with
  | nil => exact hf n h
  | cons seg path ih =>
    rw [DirtyNode.update]
    split
    · exact h
    · have hchild : ((Table.get n.children seg).getD .empty).WellFormed := by
        cases hget : Table.get n.children seg with
        | none => exact wellFormed_empty
        | some m => exact h.child _ (Table.mem_of_get hget)
      have hnew := ih (fun s hs => hsafe s (List.mem_cons_of_mem _ hs)) hchild
      refine .mk ?_ ?_ ?_
      · have hset := Table.Nodup.erase h.nodup seg
        rw [Table.Nodup, Table.keys_append]
        refine List.nodup_append.mpr ⟨hset, by simp, ?_⟩
        rintro a ha b hb rfl
        simp only [Table.keys_cons, Table.keys_nil, List.mem_singleton] at hb
        exact (Table.mem_keys_erase.mp ha).1 hb
      · intro c hc
        rcases List.mem_append.mp hc with hc | hc
        · exact h.safe c (List.mem_of_mem_filter hc)
        · rw [List.mem_singleton.mp hc]
          exact hsafe seg (List.mem_cons_self ..)
      · intro c hc
        rcases List.mem_append.mp hc with hc | hc
        · exact h.child c (List.mem_of_mem_filter hc)
        · rw [List.mem_singleton.mp hc]
          exact hnew

theorem DirtyNode.update_concat (f : DirtyNode → DirtyNode) (path : Path) (seg : Seg)
    (n : DirtyNode) : n.update f (path ++ [seg]) = n.update (·.update f [seg]) path := by
  induction path generalizing n with
  | nil => rfl
  | cons t path ih =>
    rw [List.cons_append, update, update]
    split
    · rfl
    · simp only [ih]

/-- Marking keeps a node that is compared as a value. -/
theorem DirtyNode.valueDirty_update {f : DirtyNode → DirtyNode} {path : Path} {n : DirtyNode}
    (hf : ∀ m : DirtyNode, m.valueDirty = true → (f m).valueDirty = true)
    (h : n.valueDirty = true) : (n.update f path).valueDirty = true := by
  cases path with
  | nil => exact hf n h
  | cons seg path => simp [update, isClosed, h]

/-- The root with its container at a path replaced. -/
def replaceAt (r : Json) (path : Path) (target : Json) : Json :=
  (putAt (some r) path (some target)).getD r

theorem replaceAt_cons {r c : Json} {seg : Seg} (h : r.child seg = some c) (path : Path)
    (target : Json) :
    replaceAt r (seg :: path) target = r.putChild seg (some (replaceAt c path target)) := by
  have hsome : putAt (some c) path (some target) = some (replaceAt c path target) := by
    cases path with
    | nil => rfl
    | cons _ _ => rfl
  simp only [replaceAt, putAt, h, Option.getD_some]
  rw [hsome]
  rfl

/-- The first child on the way of a path that leads somewhere. -/
theorem exists_child_of_slotAt {r target : Json} {seg : Seg} {path : Path}
    (h : slotAt (some r) (seg :: path) = some target) :
    ∃ c, r.child seg = some c ∧ slotAt (some c) path = some target := by
  obtain ⟨_, hr, -, -, -⟩ := focus_of_slotAt h target
  obtain rfl := Option.some.inj hr
  have hc : slotAt (r.child seg) path = some target := h
  cases hx : r.child seg with
  | some c => exact ⟨c, rfl, by rwa [hx] at hc⟩
  | none =>
    rw [hx] at hc
    have hfoc := focus_of_slotAt hc target
    cases path with
    | nil => cases hc
    | cons _ _ => obtain ⟨_, hnone, -⟩ := hfoc; cases hnone

/-- A change of one container, marked at its node by `f`, keeps the cover if it does so locally. -/
theorem Cover.update {f : DirtyNode → DirtyNode} {target target' : Json}
    (hf : ∀ m : DirtyNode, m.valueDirty = true → (f m).valueDirty = true)
    (hlocal : ∀ b' m, Cover b' target m → Cover b' target' (f m)) {b r : Json} {n : DirtyNode}
    {path : Path} (h : Cover b r n) (ht : slotAt (some r) path = some target) :
    Cover b (replaceAt r path target') (n.update f path) := by
  induction path generalizing b r n with
  | nil =>
    obtain rfl : r = target := Option.some.inj ht
    exact hlocal b n h
  | cons seg path ih =>
    obtain ⟨c, hc, htc⟩ := exists_child_of_slotAt ht
    rw [replaceAt_cons hc]
    by_cases hclosed : n.isClosed = true
    · rw [DirtyNode.update, if_pos hclosed]
      exact cover_of_isClosed hclosed _ _
    rw [DirtyNode.update, if_neg hclosed]
    obtain ⟨v, a, cs⟩ := n
    simp only [DirtyNode.valueDirty, DirtyNode.array, DirtyNode.children]
    refine cover_of_putChild (by simpa using hclosed) h ⟨hasSlot_of_child hc, by simp⟩ ?_ ?_ ?_ ?_
    · intro s hs
      simp [Table.mem_keys_erase, hs]
    · simp
    · intro d hd hne
      rcases List.mem_append.mp hd with hd | hd
      · exact List.mem_of_mem_filter hd
      · exact absurd (by rw [List.mem_singleton.mp hd]) hne
    · intro d hd hds start hskip hslot hrest hcov
      -- the one child under `seg` is the updated one
      have hdeq : d = (seg, ((Table.get cs seg).getD .empty).update f path) := by
        rcases List.mem_append.mp hd with hd | hd
        · simp [Table.erase, hds] at hd
        · exact List.mem_singleton.mp hd
      have hput : (r.putChild seg (some (replaceAt c path target'))).child seg
          = some (replaceAt c path target') := by
        rw [child_putChild ⟨hasSlot_of_child hc, by simp⟩, if_pos rfl]
      rw [coverChild_iff, hdeq]
      refine ⟨(hslot seg hskip).mpr (hasSlot_of_child hc), ?_⟩
      simp only [hput]
      cases hget : Table.get cs seg with
      | none =>
        have hsame := hrest seg hskip (Table.get_eq_none_iff.mp hget)
        rw [hc] at hsame
        obtain ⟨x, hx, hxc⟩ := hsame.some_right
        exact Or.inr ⟨x, _, hx, rfl, ih (cover_of_same hxc) htc⟩
      | some m =>
        have hcm := (coverChildren_iff.mp hcov _ (Table.mem_of_get hget)).resolve_left
          (by simp [hskip])
        obtain ⟨-, hdirty | ⟨x, y, hx, hy, hxy⟩⟩ := coverChild_iff.mp hcm
        · exact Or.inl (DirtyNode.valueDirty_update hf hdirty)
        · obtain rfl : c = y := Option.some.inj (hc.symm.trans hy)
          exact Or.inr ⟨x, _, hx, rfl, ih hxy htc⟩

/-- A change of one container that its node already allows for needs no mark. -/
theorem Cover.unmarked {m : DirtyNode} {target target' : Json}
    (hlocal : ∀ b', Cover b' target m → Cover b' target' m) {b r : Json} {n : DirtyNode}
    {path : Path} (h : Cover b r n) (hn : n.WellFormed)
    (ht : slotAt (some r) path = some target) (hfind : n.find path = some m) :
    Cover b (replaceAt r path target') n := by
  induction path generalizing b r n with
  | nil =>
    obtain rfl : r = target := Option.some.inj ht
    obtain rfl : n = m := Option.some.inj hfind
    exact hlocal b h
  | cons seg path ih =>
    obtain ⟨c, hc, htc⟩ := exists_child_of_slotAt ht
    rw [replaceAt_cons hc]
    by_cases hclosed : n.isClosed = true
    · exact cover_of_isClosed hclosed _ _
    obtain ⟨v, a, cs⟩ := n
    simp only [DirtyNode.find, DirtyNode.children] at hfind
    obtain ⟨k, hk, hfind⟩ := Option.bind_eq_some_iff.mp hfind
    refine cover_of_putChild (by simpa using hclosed) h ⟨hasSlot_of_child hc, by simp⟩
      (fun s _ => Iff.rfl) (Table.mem_keys_of_get hk) (fun d hd _ => hd) ?_
    intro d hd hds start hskip hslot hrest hcov
    have hput : (r.putChild seg (some (replaceAt c path target'))).child seg
        = some (replaceAt c path target') := by
      rw [child_putChild ⟨hasSlot_of_child hc, by simp⟩, if_pos rfl]
    have hcm := (coverChildren_iff.mp hcov d hd).resolve_left (by simp [hds, hskip])
    rw [coverChild_iff] at hcm ⊢
    refine ⟨hcm.1, hcm.2.imp_right ?_⟩
    rintro ⟨x, y, hx, hy, hxy⟩
    have hdk : d.2 = k := by
      have hget := Table.get_of_mem hn.nodup hd
      rw [hds] at hget
      exact Option.some.inj (hget.symm.trans hk)
    rw [hds] at hx hy ⊢
    obtain rfl : c = y := Option.some.inj (hc.symm.trans hy)
    exact ⟨x, _, hx, hput, ih hxy (hn.child d hd) htc (hdk ▸ hfind)⟩

/-! ## What a mutation does -/

/-- The new container and the mark of a mutation, `start` being where a recorded append begins. -/
inductive Effect (start : Option ℕ) (target : Json) : Mark → Json → Prop
  /-- Nothing changed. -/
  | same : Effect start target .none target
  /-- Only elements from `start` on changed. -/
  | tail {s : ℕ} {ys ys' : List Json} : start = some s → target = .array ys → s ≤ ys.length →
      s ≤ ys'.length → ys'.take s = ys.take s → Effect start target .none (.array ys')
  | slot {seg : Seg} {x : Option Json} : Seg.isSafe seg = true → target.Accepts seg x →
      Effect start target (.value seg) (target.putChild seg x)
  | append {ys : List Json} (zs : List Json) : target = .array ys →
      Effect start target (.append ys.length) (.array (ys ++ zs))
  | diff (ys : List Json) : target.isArray = true → Effect start target .diff (.array ys)
  | replace (ys : List Json) : target.isArray = true → Effect start target .replace (.array ys)

theorem guardSeg_ok {seg seg' : Seg} (h : guardSeg seg = .ok seg') :
    seg' = seg ∧ Seg.isSafe seg = true := by
  obtain ⟨hsafe, h⟩ := ite_error_eq_ok.mp h
  exact ⟨(Except.ok.inj h).symm, by simpa using hsafe⟩

theorem norm_object (es : List (JsString × Json)) (key : JsString) :
    norm (.object es) key = .key key := by
  cases h : JsObject.numeral? key <;> simp [norm]

theorem assignMember_effect {es : List (JsString × Json)} {key : JsString} {value : Option Json}
    {start : Option ℕ} {mark : Mark} {target' : Json}
    (h : assignMember es key value = .ok (mark, target')) :
    Effect start (.object es) mark target' := by
  obtain ⟨seg, hseg, h⟩ := bind_eq_ok.mp h
  obtain ⟨rfl, hsafe⟩ := guardSeg_ok hseg
  rw [norm_object] at hsafe h
  have hacc : ∀ x, (Json.object es).Accepts (.key key) x := fun x => ⟨trivial, fun _ => rfl⟩
  cases value with
  | none =>
    obtain ⟨rfl, rfl⟩ := Prod.mk.inj (Except.ok.inj h)
    exact .slot (x := none) hsafe (hacc _)
  | some v =>
    simp only at h
    split at h
    · obtain ⟨rfl, rfl⟩ := Prod.mk.inj (Except.ok.inj h)
      exact .same
    · obtain ⟨rfl, rfl⟩ := Prod.mk.inj (Except.ok.inj h)
      exact .slot (x := some v) hsafe (hacc _)

theorem assignItem_effect {xs : List Json} {start : Option ℕ} {key : JsString}
    {value : Option Json} {mark : Mark} {target' : Json}
    (h : assignItem xs start key value = .ok (mark, target')) :
    Effect start (.array xs) mark target' := by
  obtain ⟨seg, hseg, h⟩ := bind_eq_ok.mp h
  obtain ⟨heq, hsafe⟩ := guardSeg_ok hseg
  rw [← heq] at hsafe
  cases seg with
  | key k => cases h
  | index i =>
    obtain ⟨hi, h⟩ := ite_error_eq_ok.mp h
    cases value with
    | none => cases h
    | some v =>
      simp only at h
      split at h
      · obtain ⟨rfl, rfl⟩ := Prod.mk.inj (Except.ok.inj h)
        exact .same
      split at h
      · obtain ⟨rfl, rfl⟩ := Prod.mk.inj (Except.ok.inj h)
        exact .append [v] rfl
      · next hne =>
        obtain ⟨rfl, rfl⟩ := Prod.mk.inj (Except.ok.inj h)
        have hslot : Effect start (.array xs) (.value (.index i)) (.array (xs.set i v)) :=
          .slot (x := some v) hsafe ⟨show i < xs.length by omega, by simp⟩
        cases start with
        | none => exact hslot
        | some s =>
          simp only
          split
          · exact hslot
          · next hs =>
            refine .tail rfl rfl (by omega) (by simp; omega) ?_
            rw [List.take_set_of_le (by omega)]

theorem assignLength_effect {xs : List Json} {start : Option ℕ} {next : Option ℚ} {mark : Mark}
    {target' : Json} (h : assignLength xs start next = .ok (mark, target')) :
    Effect start (.array xs) mark target' := by
  cases next with
  | none => cases h
  | some q =>
    obtain ⟨-, h⟩ := ite_error_eq_ok.mp h
    simp only at h
    generalize q.num.toNat = next at h
    split at h
    · next hlt =>
      obtain ⟨rfl, rfl⟩ := Prod.mk.inj (Except.ok.inj h)
      split
      · exact .replace _ rfl
      · cases start with
        | none => exact .diff _ rfl
        | some s =>
          simp only
          split
          · exact .diff _ rfl
          · refine .tail rfl rfl (by omega) (by simp; omega) ?_
            rw [List.take_take, Nat.min_eq_left (by omega)]
    split at h
    · obtain ⟨rfl, rfl⟩ := Prod.mk.inj (Except.ok.inj h)
      exact .append _ rfl
    · obtain ⟨rfl, rfl⟩ := Prod.mk.inj (Except.ok.inj h)
      exact .same

theorem spliceRange_le (length : ℕ) (args : SpliceArgs) :
    (spliceRange length args).1 + (spliceRange length args).2 ≤ length := by
  have hclamp : ∀ k, clampIndex length k ≤ length := by
    intro k
    simp only [clampIndex]
    split
    · omega
    · exact Nat.min_le_right _ _
  cases args with
  | none => simp [spliceRange]
  | start k => have := hclamp k; simp only [spliceRange]; omega
  | full k d items => have := hclamp k; simp only [spliceRange]; omega

theorem mutateArray_splice_effect (xs : List Json) (start : Option ℕ) (args : SpliceArgs)
    {mark : Mark} {target' : Json} (h : mutateArray xs start (.splice args) = .ok (mark, target')) :
    Effect start (.array xs) mark target' := by
  have hle := spliceRange_le xs.length args
  simp only [mutateArray] at h
  generalize spliceRange xs.length args = range at hle h
  obtain ⟨index, remove⟩ := range
  simp only at h hle
  generalize args.items = items at h
  obtain ⟨rfl, rfl⟩ := Prod.mk.inj (Except.ok.inj h)
  rw [spliceItems_eq xs (by omega)]
  split
  · next hnone =>
    obtain ⟨rfl, rfl⟩ := hnone
    simpa [splice] using Effect.same
  split
  · exact .replace _ rfl
  split
  · next hs =>
    obtain ⟨s, hstart, hs⟩ : ∃ s, start = some s ∧ s ≤ index := by
      cases start with
      | none => simp at hs
      | some s => exact ⟨s, rfl, by simpa using hs⟩
    refine .tail hstart rfl (by omega) ?_ ?_
    · simp only [splice, List.length_append, List.length_take, List.length_drop]; omega
    · rw [splice, List.append_assoc, List.take_append_of_le_length (by simp; omega), List.take_take,
        Nat.min_eq_left (by omega)]
  split
  · next hend =>
    obtain ⟨rfl, rfl⟩ := hend
    simpa [splice] using Effect.append items rfl
  · exact .diff _ rfl

/-- The effect of every mutation of a container. -/
theorem mutateTarget_effect {target : Json} {start : Option ℕ} {m : Mutation} {mark : Mark}
    {target' : Json} (h : mutateTarget target start m = .ok (mark, target')) :
    Effect start target mark target' := by
  cases target with
  | null | bool | number | string => cases h
  | object es =>
    cases m <;> simp only [mutateTarget, mutateObject, reduceCtorEq] at h
    · exact assignMember_effect h
    · exact assignMember_effect h
    · obtain ⟨rfl, rfl⟩ := Prod.mk.inj (Except.ok.inj h)
      exact .same
    · exact assignMember_effect h
  | array xs =>
    cases m with
    | assign key value =>
      have hitem : assignItem xs start key (some value) = .ok (mark, target') := h
      exact assignItem_effect hitem
    | assignUndefined key =>
      have hitem : assignItem xs start key none = .ok (mark, target') := h
      exact assignItem_effect hitem
    | assignLength next => exact assignLength_effect h
    | reassign key =>
      obtain ⟨rfl, rfl⟩ := Prod.mk.inj (Except.ok.inj h)
      exact .same
    | delete key =>
      obtain ⟨seg, -, h⟩ := bind_eq_ok.mp h
      cases seg <;> cases h
    | push items =>
      obtain ⟨rfl, rfl⟩ := Prod.mk.inj (Except.ok.inj h)
      rw [spliceItems_eq xs le_rfl]
      split
      · next hnil => simpa [splice, hnil] using Effect.same
      · simpa [splice] using Effect.append items rfl
    | unshift items =>
      obtain ⟨rfl, rfl⟩ := Prod.mk.inj (Except.ok.inj h)
      rw [spliceItems_eq xs (Nat.zero_le _)]
      split
      · next hnil => simpa [splice, hnil] using Effect.same
      · exact .diff _ rfl
    | pop =>
      obtain ⟨rfl, rfl⟩ := Prod.mk.inj (Except.ok.inj h)
      split
      · next hnil =>
        rw [List.length_eq_zero_iff.mp hnil]
        exact .same
      · cases start with
        | none => exact .diff _ rfl
        | some s =>
          simp only
          split
          · exact .diff _ rfl
          · refine .tail rfl rfl (by omega) (by simp; omega) ?_
            rw [List.dropLast_eq_take, List.take_take, Nat.min_eq_left (by omega)]
    | shift =>
      obtain ⟨rfl, rfl⟩ := Prod.mk.inj (Except.ok.inj h)
      split
      · next hnil =>
        rw [List.length_eq_zero_iff.mp hnil]
        exact .same
      · exact .diff _ rfl
    | splice args => exact mutateArray_splice_effect xs start args h
    | sort order =>
      simp only [mutateTarget, mutateArray] at h
      split at h
      · obtain ⟨rfl, rfl⟩ := Prod.mk.inj (Except.ok.inj h)
        exact .diff _ rfl
      · cases h
    | reverse | fill | copyWithin =>
      obtain ⟨rfl, rfl⟩ := Prod.mk.inj (Except.ok.inj h)
      exact .diff _ rfl

/-! ## The step lemma -/

/-- Two arrays with the same elements below `start` are covered alike under an append from there. -/
theorem cover_append_congr {v : Bool} {cs : List (Seg × DirtyNode)} {s : ℕ} {ys ys' : List Json}
    (hle : s ≤ ys'.length) (htake : ys'.take s = ys.take s) {b : Json}
    (h : Cover b (.array ys) (.mk v (some (.append s)) cs)) :
    Cover b (.array ys') (.mk v (some (.append s)) cs) := by
  have hchild : ∀ seg, isSkipped (some s) seg = false →
      (Json.array ys').child seg = (Json.array ys).child seg := by
    intro seg hseg
    cases seg with
    | key k => rfl
    | index i =>
      simp only [isSkipped, ge_iff_le, decide_eq_false_iff_not, not_le] at hseg
      simp only [child]
      rw [← List.getElem?_take_of_lt hseg, htake, List.getElem?_take_of_lt hseg]
  rw [Cover] at h ⊢
  refine h.imp_right ?_
  rintro ⟨xs, zs, rfl, hzs, hlen, -, hrest, hcov⟩
  refine ⟨xs, ys', rfl, rfl, hlen, hle, ?_, ?_⟩
  · intro seg hseg hnot
    rw [hchild seg hseg]
    exact hrest seg hseg hnot
  · rw [coverChildren_iff] at hcov ⊢
    intro c hc
    by_cases hskip : isSkipped (some s) c.1 = true
    · exact Or.inl hskip
    · have hcm := (hcov c hc).resolve_left hskip
      rw [coverChild_iff] at hcm ⊢
      rw [hchild c.1 (by simpa using hskip)]
      exact Or.inr hcm

/-- Elements pushed onto an array, recorded as an append. -/
theorem cover_markArrayAppend {ys : List Json} (zs : List Json) {b : Json} {m : DirtyNode}
    (h : Cover b (.array ys) m) :
    Cover b (.array (ys ++ zs)) (m.markArrayAppend ys.length) := by
  by_cases hclosed : m.isClosed = true
  · rw [DirtyNode.markArrayAppend, if_pos hclosed]
    exact cover_of_isClosed hclosed _ _
  rw [DirtyNode.markArrayAppend, if_neg hclosed]
  rcases DirtyNode.eq_of_not_isClosed (by simpa using hclosed) with heq | ⟨start, heq⟩
  · -- the array had its baseline length until now
    rw [heq] at h ⊢
    simp only [DirtyNode.array, DirtyNode.children, DirtyNode.valueDirty, if_true]
    rw [Cover] at h
    obtain ⟨hk, hrest, hcov⟩ := h.resolve_left (by simp)
    obtain ⟨xs, rfl, hlen⟩ := kind_eq_array.mp hk
    refine cover_append_congr (by simp) (List.take_append_of_le_length le_rfl) ?_
    rw [Cover]
    refine Or.inr ⟨xs, ys, rfl, rfl, hlen, le_rfl, fun seg _ => hrest seg rfl, ?_⟩
    rw [coverChildren_iff] at hcov ⊢
    exact fun c hc => Or.inr ((hcov c hc).resolve_left (by simp [isSkipped]))
  · rw [heq] at h ⊢
    simp only [DirtyNode.array, reduceCtorEq, if_false]
    rw [Cover] at h
    obtain ⟨xs, ys', -, hys, -, hle, -⟩ := id (h.resolve_left (by simp))
    obtain rfl : ys = ys' := by simpa using hys
    refine cover_append_congr (by simp; omega) (List.take_append_of_le_length hle) ?_
    rw [Cover]
    exact h

/-- One slot replaced, recorded as a value. -/
theorem cover_markValue {b target : Json} {seg : Seg} {x : Option Json}
    (hacc : target.Accepts seg x) {m : DirtyNode} (h : Cover b target m) :
    Cover b (target.putChild seg x) (m.update DirtyNode.markValue [seg]) := by
  rw [DirtyNode.update]
  split
  · next hclosed => exact cover_of_isClosed hclosed _ _
  · next hclosed =>
    obtain ⟨v, a, cs⟩ := m
    simp only [DirtyNode.valueDirty, DirtyNode.array, DirtyNode.children, DirtyNode.update]
    refine cover_of_putChild (by simpa using hclosed) h hacc ?_ ?_ ?_ ?_
    · intro s hs
      simp [Table.mem_keys_erase, hs]
    · simp
    · intro d hd hne
      rcases List.mem_append.mp hd with hd | hd
      · exact List.mem_of_mem_filter hd
      · exact absurd (by rw [List.mem_singleton.mp hd]) hne
    · intro d hd hds start hskip hslot _ _
      rcases List.mem_append.mp hd with hd | hd
      · simp [Table.erase, hds] at hd
      · rw [coverChild_iff, List.mem_singleton.mp hd]
        exact ⟨(hslot seg hskip).mpr hacc.1, Or.inl rfl⟩

theorem isClosed_markArrayDiff (m : DirtyNode) : m.markArrayDiff.isClosed = true := by
  rw [DirtyNode.markArrayDiff]
  split
  · next h =>
    simp only [Bool.or_eq_true] at h
    rcases h with h | h <;> simp [DirtyNode.isClosed, h]
  · simp [DirtyNode.isClosed, DirtyNode.array]

theorem isClosed_markArrayReplace (m : DirtyNode) : m.markArrayReplace.isClosed = true := by
  rw [DirtyNode.markArrayReplace]
  split
  · next h => simp [DirtyNode.isClosed, h]
  · simp [DirtyNode.isClosed, DirtyNode.array]

/-- A node compared as a value keeps that mark. -/
theorem valueDirty_marks {m : DirtyNode} (h : m.valueDirty = true) (start : ℕ) :
    (m.markArrayAppend start).valueDirty = true ∧ m.markArrayDiff.valueDirty = true ∧
      m.markArrayReplace.valueDirty = true := by
  simp [DirtyNode.markArrayAppend, DirtyNode.markArrayDiff, DirtyNode.markArrayReplace,
    DirtyNode.isClosed, h]

/-- **A mutation keeps the cover.** -/
theorem Effect.cover {b r target target' : Json} {n : DirtyNode} {path : Path} {mark : Mark}
    (he : Effect (n.appendStart path) target mark target') (h : Cover b r n) (hn : n.WellFormed)
    (ht : slotAt (some r) path = some target) :
    Cover b (replaceAt r path target') (mark.record path n) := by
  cases he with
  | same =>
    have hself := putAt_slotAt (focus_of_slotAt ht target)
    rw [ht] at hself
    rw [replaceAt, hself]
    exact h
  | @tail s ys ys' hstart htarget hle hle' htake =>
    subst htarget
    simp only [DirtyNode.appendStart] at hstart
    split at hstart
    · next start hfind =>
      obtain rfl := Option.some.inj hstart
      obtain ⟨⟨v, a, cs⟩, hm, ha⟩ := Option.bind_eq_some_iff.mp hfind
      obtain rfl : a = some (.append start) := ha
      exact h.unmarked (fun b' => cover_append_congr hle' htake) hn ht hm
    · cases hstart
  | @slot seg x hsafe hacc =>
    rw [Mark.record, DirtyNode.update_concat]
    exact h.update (fun m hm => DirtyNode.valueDirty_update (fun _ _ => rfl) hm)
      (fun b' m => cover_markValue hacc) ht
  | @append ys zs htarget =>
    subst htarget
    exact h.update (fun m hm => (valueDirty_marks hm _).1)
      (fun b' m => cover_markArrayAppend zs) ht
  | diff ys harr =>
    exact h.update (fun m hm => (valueDirty_marks hm 0).2.1)
      (fun b' m _ => cover_of_isClosed (isClosed_markArrayDiff m) _ _) ht
  | replace ys harr =>
    exact h.update (fun m hm => (valueDirty_marks hm 0).2.2)
      (fun b' m _ => cover_of_isClosed (isClosed_markArrayReplace m) _ _) ht

end Phi.Delta

import Phi.Delta.Cover

/-!
# Convergence of a tracked value and its replicas

`converges`: a consumer that applies every batch a tracker returns holds, after every flush, the same
JSON value as the tracked root. The batches never make `apply` throw and every op in them is valid.

The invariant between flushes is that the replica is the same value as the tracker's baseline and that
the dirty tree covers the differences between baseline and root. A flush walks the tree: where it
covers, its ops turn the baseline, or whatever is the same value, into the root (`walkDirty_converts`).
The baseline then follows by one of two ways, replaying these ops or copying from the root along the
tree, and both end at the root's value (`syncInto_same`).
-/

namespace Phi.Delta

open Json

/-! ## Walking a cover -/

/-- The segment is of the container's sort. -/
def Fits : Json → Seg → Prop
  | .array _, .index _ => True
  | .object _, .key _ => True
  | _, _ => False

theorem fits_of_hasSlot {c : Json} {seg : Seg} (h : c.HasSlot seg) : Fits c seg := by
  cases c <;> cases seg <;> simp_all [HasSlot, Fits]

theorem fits_of_kind {c d : Json} {seg : Seg} (hk : c.kind = d.kind) (h : Fits c seg) :
    Fits d seg := by
  cases c <;> cases d <;> cases seg <;> simp_all [kind, Fits]

theorem ownValue_eq_child {c : Json} {seg : Seg} (h : Fits c seg) : ownValue c seg = c.child seg := by
  cases c <;> cases seg <;> simp_all [Fits, ownValue, propertySeg]

/-- Edits that bring every slot in scope from `before` to `after`. -/
structure ScopedEdits (path : Path) (before after : Json) (start : Option ℕ)
    (children : List (Seg × DirtyNode)) (edits : Table Seg (List Op)) : Prop where
  nodup : edits.Nodup
  keys : ∀ seg, seg ∈ edits.keys ↔ seg ∈ Table.keys children ∧ isSkipped start seg = false
  slot : ∀ e ∈ edits, before.HasSlot e.1
  converts : ∀ e ∈ edits, Converts (path ++ [e.1]) e.2 (before.child e.1) (after.child e.1)

/-- A slot in place that is empty belongs to an object. -/
theorem kind_of_child_none {c : Json} {seg : Seg} (h : c.HasSlot seg) (hnone : c.child seg = none) :
    c.kind = .object := by
  cases c <;> cases seg <;> simp only [HasSlot] at h
  · simp only [child, List.getElem?_eq_none_iff] at hnone
    omega
  · rfl

/-- The indices below the start of an append. -/
theorem converts_of_append {path : Path} {start : ℕ} {xs ys : List Json}
    {children : List (Seg × DirtyNode)} {edits : Table Seg (List Op)} (hlen : xs.length = start)
    (hle : start ≤ ys.length) (hrest : RestSame (.array xs) (.array ys) (some start) children)
    (h : ScopedEdits path (.array xs) (.array ys) (some start) children edits) :
    Converts path (edits.flatMap Prod.snd) (some (.array xs)) (some (.array (ys.take start))) := by
  have hchild : ∀ i, i < start →
      (Json.array (ys.take start)).child (.index i) = (Json.array ys).child (.index i) :=
    fun i hi => List.getElem?_take_of_lt hi
  have hlt : ∀ e ∈ edits, ∃ i, e.1 = Seg.index i ∧ i < start := by
    intro e he
    have hskip := ((h.keys e.1).mp (Table.mem_keys_of_mem he)).2
    cases hseg : e.1 with
    | key k => simp [hseg, isSkipped] at hskip
    | index i =>
      simp only [hseg, isSkipped, ge_iff_le, decide_eq_false_iff_not, not_le] at hskip
      exact ⟨i, rfl, hskip⟩
  refine Edits.toConverts ⟨h.nodup, ?_, ?_⟩ (by simp [kind, hlen, hle]) ?_
  · intro e he
    obtain ⟨i, hi, hlti⟩ := hlt e he
    have hconv := h.converts e he
    rw [hi] at hconv ⊢
    rwa [hchild i hlti]
  · intro e he
    obtain ⟨i, hi, hlti⟩ := hlt e he
    rw [hi, hchild i hlti]
    refine ⟨show i < xs.length by omega, fun hnone => ?_⟩
    simp only [child, List.getElem?_eq_none_iff] at hnone
    omega
  · intro s hs
    cases s with
    | key k => exact SlotSame.refl _
    | index i =>
      by_cases hi : i < start
      · rw [hchild i hi]
        have hskip : isSkipped (some start) (.index i) = false := by simpa [isSkipped] using hi
        exact hrest _ hskip fun hmem => hs ((h.keys _).mpr ⟨hmem, hskip⟩)
      · simp only [child]
        rw [List.getElem?_eq_none (by omega), List.getElem?_eq_none (by simp; omega)]
        trivial

mutual

/-- **The ops of a covering walk bring the baseline to the root.** -/
theorem walkDirty_converts (scan : ℕ) {before after : Json} {n : DirtyNode} {path : Path}
    (h : Cover before after n) (hn : n.WellFormed) (hb : before.WellFormed) (ha : after.WellFormed)
    (hsafe : SafePath path) :
    ∃ ops, walkDirty scan before after n path = .ok ops ∧
      Converts path ops (some before) (some after) := by
  match n with
  | .mk valueDirty arrayDirty children =>
    have hdiff := diffPresent_converts scan hb ha hsafe
    have hdiffValue : diffValue scan (some before) (some after) path
        = diffPresent scan before after path := rfl
    rw [walkDirty.eq_def]
    rw [Cover.eq_def] at h
    simp only [hdiffValue]
    by_cases hv : valueDirty = true
    · rw [if_pos hv]
      exact hdiff
    rw [if_neg hv]
    replace h := h.resolve_left hv
    match arrayDirty with
    | some .diff => exact hdiff
    | some .replace =>
      refine ⟨_, rfl, ?_⟩
      split
      · next heq => exact .nil (same_of_jsonEqual hb ha heq)
      · exact converts_emitSet hsafe _ ha
    | some (.append start) =>
      obtain ⟨xs, ys, rfl, rfl, hlen, hle, hrest, hcov⟩ := h
      obtain ⟨edits, hwalk, hedits⟩ := walkChildren_edits scan (some start) hcov hn.nodup hn.safe
        hn.child hb ha (fun seg hseg => by
          cases seg <;> simp_all [HasSlot, Fits]) hsafe
      simp only [hwalk, ok_bind]
      rw [if_neg (by omega)]
      refine ⟨_, rfl, ?_⟩
      -- first the indices below the start, then the appended elements
      have hmid : Converts path (edits.flatMap Prod.snd) (some (.array xs))
          (some (.array (ys.take start))) := converts_of_append hlen hle hrest hedits
      refine hmid.trans ?_
      split
      · refine converts_splice hsafe ha.items (by simp; omega) ⟨ys.take start, [], ?_, ?_, ?_⟩
        · simp
        · rw [List.take_take, Nat.min_self]
          exact forall₂_same_refl _
        · rw [List.drop_of_length_le (by simp)]
          exact .nil
      · rw [List.take_of_length_le (by omega)]
        exact .nil (SlotSame.refl _)
    | none =>
      obtain ⟨hk, hrest, hcov⟩ := h
      obtain ⟨edits, hwalk, hedits⟩ := walkChildren_edits scan none hcov hn.nodup hn.safe hn.child hb
        ha (fun seg hseg => fits_of_kind hk (fits_of_hasSlot hseg)) hsafe
      refine ⟨_, hwalk, Edits.toConverts ⟨hedits.nodup, hedits.converts, ?_⟩ hk ?_⟩
      · intro e he
        have hs := hedits.slot e he
        refine ⟨hs, fun hnone => ?_⟩
        rw [hk]
        exact kind_of_child_none (hasSlot_of_kind hk.symm hs) hnone
      · intro s hs
        refine hrest s rfl fun hmem => hs ?_
        exact (hedits.keys s).mpr ⟨hmem, rfl⟩

theorem walkChildren_edits (scan : ℕ) {before after : Json} (start : Option ℕ)
    {children : List (Seg × DirtyNode)} {path : Path} (h : CoverChildren before after start children)
    (hnodup : Table.Nodup children) (hsegs : ∀ c ∈ children, Seg.isSafe c.1 = true)
    (hchildren : ∀ c ∈ children, c.2.WellFormed) (hb : before.WellFormed) (ha : after.WellFormed)
    (hfits : ∀ seg, before.HasSlot seg → Fits after seg) (hsafe : SafePath path) :
    ∃ edits : Table Seg (List Op),
      walkChildren scan before after start children path = .ok (edits.flatMap Prod.snd) ∧
        ScopedEdits path before after start children edits := by
  match children with
  | [] => exact ⟨[], rfl, by simp [Table.Nodup], by simp, by simp, by simp⟩
  | c :: children =>
    obtain ⟨hc, hcov⟩ := h
    obtain ⟨hnot, hnodup'⟩ := List.nodup_cons.mp hnodup
    simp only [List.forall_mem_cons] at hsegs hchildren
    obtain ⟨edits, hwalk, hedits⟩ :=
      walkChildren_edits scan start hcov hnodup' hsegs.2 hchildren.2 hb ha hfits hsafe
    rw [walkChildren]
    by_cases hskip : isSkipped start c.1 = true
    · refine ⟨edits, by simp [hskip, hwalk], hedits.nodup, fun seg => ?_, hedits.slot,
        hedits.converts⟩
      rw [hedits.keys, Table.keys_cons, List.mem_cons]
      constructor
      · exact fun ⟨hmem, hs⟩ => ⟨Or.inr hmem, hs⟩
      · rintro ⟨rfl | hmem, hs⟩
        · simp [hskip] at hs
        · exact ⟨hmem, hs⟩
    · have hchild := hc.resolve_left hskip
      obtain ⟨hslot, -⟩ := coverChild_iff.mp hchild
      obtain ⟨ops, hops, hconv⟩ :=
        walkChild_converts scan hchild hchildren.1 hb ha (hfits _ hslot) (hsafe.concat hsegs.1)
      refine ⟨(c.1, ops) :: edits, ?_, ?_, fun seg => ?_, ?_, ?_⟩
      · rw [if_neg hskip, hops, ok_bind, hwalk]
        rfl
      · refine List.nodup_cons.mpr ⟨fun hmem => hnot ?_, hedits.nodup⟩
        exact ((hedits.keys c.1).mp hmem).1
      · rw [Table.keys_cons, Table.keys_cons, List.mem_cons, List.mem_cons, hedits.keys]
        constructor
        · rintro (rfl | ⟨hmem, hs⟩)
          · exact ⟨Or.inl rfl, by simpa using hskip⟩
          · exact ⟨Or.inr hmem, hs⟩
        · rintro ⟨rfl | hmem, hs⟩
          · exact Or.inl rfl
          · exact Or.inr ⟨hmem, hs⟩
      · simp only [List.forall_mem_cons]
        exact ⟨hslot, hedits.slot⟩
      · simp only [List.forall_mem_cons]
        exact ⟨hconv, hedits.converts⟩

theorem walkChild_converts (scan : ℕ) {before after : Json} {c : Seg × DirtyNode} {path : Path}
    (h : CoverChild before after c) (hc : c.2.WellFormed) (hb : before.WellFormed)
    (ha : after.WellFormed) (hfits : Fits after c.1) (hsafe : SafePath (path ++ [c.1])) :
    ∃ ops, walkChild scan before after c path = .ok ops ∧
      Converts (path ++ [c.1]) ops (before.child c.1) (after.child c.1) := by
  match c with
  | (seg, child) =>
    obtain ⟨hslot, hcov⟩ := h
    have hwfb : SlotWellFormed (before.child seg) := fun v hv => hb.child hv
    have hwfa : SlotWellFormed (after.child seg) := fun v hv => ha.child hv
    have hdiff := diffValue_converts scan hwfb hwfa hsafe
    rw [walkChild, ownValue_eq_child (fits_of_hasSlot hslot), ownValue_eq_child hfits]
    split
    · next previous current hprev hcur =>
      simp only at hprev hcur
      rw [hprev, hcur] at hdiff ⊢
      split
      · next hobj =>
        obtain hdirty | ⟨x, y, hx, hy, hxy⟩ := hcov
        · simp [hdirty] at hobj
        · obtain rfl : previous = x := Option.some.inj (hprev.symm.trans hx)
          obtain rfl : current = y := Option.some.inj (hcur.symm.trans hy)
          exact walkDirty_converts scan hxy hc (hb.child hprev) (ha.child hcur) hsafe
      · exact hdiff
    · exact hdiff

end

/-! ## Copying along a cover -/

/-- What `syncChild` does to the parent: the slot of the child becomes the root's. -/
structure Synced (r p p' : Json) (seg : Seg) : Prop where
  kind : p'.kind = p.kind
  wellFormed : p'.WellFormed
  slot : SlotSame (p'.child seg) (r.child seg)
  other : ∀ s, seg ≠ s → p'.child s = p.child s

theorem Synced.of_putChild {r p : Json} {seg : Seg} {x : Option Json} (hacc : p.Accepts seg x)
    (hp : p.WellFormed) (hx : SlotWellFormed x) (hsame : SlotSame x (r.child seg)) :
    Synced r p (p.putChild seg x) seg where
  kind := kind_putChild ..
  wellFormed := hp.putChild seg hx
  slot := by rwa [child_putChild hacc, if_pos rfl]
  other s hs := by rw [child_putChild hacc, if_neg hs]

mutual

/-- **Copying along a cover without array diffs brings the baseline to the root.** -/
theorem syncInto_same {b r : Json} {n : DirtyNode} (h : Cover b r n) (hn : n.WellFormed)
    (hclean : n.valueDirty = false) (hsync : canSync n = true) (hb : b.WellFormed)
    (hr : r.WellFormed) : Same (syncInto b r n) r ∧ (syncInto b r n).WellFormed := by
  match n with
  | .mk valueDirty arrayDirty children =>
    rw [Cover.eq_def] at h
    replace h := h.resolve_left (by simpa [DirtyNode.valueDirty] using hclean)
    rw [canSync.eq_def, Bool.and_eq_true] at hsync
    rw [syncInto.eq_def]
    match arrayDirty with
    | some .diff | some .replace => simp at hsync
    | some (.append start) =>
      obtain ⟨xs, ys, rfl, rfl, hlen, hle, hrest, hcov⟩ := h
      obtain ⟨hk, hwf, hs⟩ := syncChildren_same (some start) hcov hsync.2 hn.nodup hn.child
        (fun seg hseg => by cases seg <;> simp_all [HasSlot, Fits]) (fun seg hseg hnone => by
          cases seg with
          | key k => exact hseg.elim
          | index i =>
            simp only [HasSlot, child, List.getElem?_eq_none_iff] at hseg hnone
            omega) hr rfl hb (fun _ _ => rfl)
      obtain ⟨zs, hzs, hzlen⟩ := kind_eq_array.mp hk
      simp only [hzs]
      rw [hzs] at hwf hs
      refine ⟨same_iff.mpr ⟨by simp [kind]; omega, fun s => ?_⟩, WellFormed.array fun y hy => ?_⟩
      · cases s with
        | key k => exact SlotSame.refl _
        | index i =>
          simp only [child]
          by_cases hi : i < start
          · have hskip : isSkipped (some start) (.index i) = false := by simpa [isSkipped] using hi
            rw [List.getElem?_append_left (by omega)]
            refine (hs (.index i)).trans ?_
            split
            · exact SlotSame.refl _
            · next hin =>
              exact hrest _ hskip fun hmem => hin ⟨hmem, hskip⟩
          · rw [List.getElem?_append_right (by omega), List.getElem?_drop,
              show start + (i - zs.length) = i by omega]
            exact SlotSame.refl _
      · rcases List.mem_append.mp hy with hy | hy
        · exact hwf.items y hy
        · exact hr.items y (List.mem_of_mem_drop hy)
    | none =>
      obtain ⟨hkind, hrest, hcov⟩ := h
      obtain ⟨hk, hwf, hs⟩ := syncChildren_same none hcov hsync.2 hn.nodup hn.child
        (fun seg hseg => fits_of_kind hkind (fits_of_hasSlot hseg))
        (fun seg hseg hnone => hkind.trans
          (kind_of_child_none (hasSlot_of_kind hkind.symm hseg) hnone)) hr rfl hb (fun _ _ => rfl)
      refine ⟨same_iff.mpr ⟨hk.trans hkind, fun s => (hs s).trans ?_⟩, hwf⟩
      split
      · exact SlotSame.refl _
      · next hin => exact hrest s rfl fun hmem => hin ⟨hmem, rfl⟩

theorem syncChildren_same {b r p : Json} (start : Option ℕ) {children : List (Seg × DirtyNode)}
    (h : CoverChildren b r start children) (hsync : canSyncChildren children = true)
    (hnodup : Table.Nodup children) (hchildren : ∀ c ∈ children, c.2.WellFormed)
    (hfits : ∀ seg, b.HasSlot seg → Fits r seg)
    (hempty : ∀ seg, b.HasSlot seg → r.child seg = none → b.kind = .object) (hr : r.WellFormed)
    (hk : p.kind = b.kind) (hp : p.WellFormed) (hpb : ∀ seg ∈ Table.keys children, p.child seg = b.child seg) :
    (syncChildren r start children p).kind = b.kind ∧
      (syncChildren r start children p).WellFormed ∧
      ∀ s, SlotSame ((syncChildren r start children p).child s)
        (if s ∈ Table.keys children ∧ isSkipped start s = false then r.child s else p.child s) := by
  match children with
  | [] => exact ⟨hk, hp, fun s => by simpa [syncChildren] using SlotSame.refl _⟩
  | c :: children =>
    obtain ⟨hc, hcov⟩ := h
    obtain ⟨hnot, hnodup'⟩ := List.nodup_cons.mp hnodup
    simp only [List.forall_mem_cons] at hchildren
    rw [canSyncChildren, Bool.and_eq_true] at hsync
    simp only [Table.keys_cons, List.forall_mem_cons] at hpb
    rw [syncChildren]
    by_cases hskip : isSkipped start c.1 = true
    · rw [if_pos hskip]
      obtain ⟨hk', hwf', hs'⟩ := syncChildren_same start hcov hsync.2 hnodup' hchildren.2 hfits
        hempty hr hk hp hpb.2
      refine ⟨hk', hwf', fun s => (hs' s).trans ?_⟩
      by_cases hcs : c.1 = s
      · subst hcs
        simpa [hskip] using SlotSame.refl _
      · simpa [Ne.symm hcs] using SlotSame.refl _
    · rw [if_neg hskip]
      have hone := syncChild_synced (hc.resolve_left hskip) hsync.1 hchildren.1 hfits hempty hr hk hp
        hpb.1
      have hpb' : ∀ seg ∈ Table.keys children, (syncChild r c p).child seg = b.child seg := by
        intro seg hseg
        have hne : c.1 ≠ seg := fun heq => hnot (by rw [heq]; exact hseg)
        rw [hone.other seg hne, hpb.2 seg hseg]
      obtain ⟨hk', hwf', hs'⟩ := syncChildren_same start hcov hsync.2 hnodup' hchildren.2 hfits
        hempty hr (hone.kind.trans hk) hone.wellFormed hpb'
      refine ⟨hk', hwf', fun s => (hs' s).trans ?_⟩
      by_cases hcs : c.1 = s
      · subst hcs
        rw [if_neg (fun hmem => hnot hmem.1), if_pos ⟨List.mem_cons_self .., by simpa using hskip⟩]
        exact hone.slot
      · rw [hone.other s hcs]
        simpa [Ne.symm hcs] using SlotSame.refl _

theorem syncChild_synced {b r p : Json} {c : Seg × DirtyNode} (h : CoverChild b r c)
    (hsync : canSyncChild c = true) (hc : c.2.WellFormed)
    (hfits : ∀ seg, b.HasSlot seg → Fits r seg)
    (hempty : ∀ seg, b.HasSlot seg → r.child seg = none → b.kind = .object) (hr : r.WellFormed)
    (hk : p.kind = b.kind) (hp : p.WellFormed) (hpb : p.child c.1 = b.child c.1) :
    Synced r p (syncChild r c p) c.1 := by
  match c with
  | (seg, child) =>
    obtain ⟨hslot, hcov⟩ := h
    have hpslot : p.HasSlot seg := hasSlot_of_kind hk hslot
    have hset : ∀ v, v.WellFormed → SlotSame (some v) (r.child seg) →
        Synced r p (write p seg v) seg := by
      intro v hv hsame
      rw [write_eq_putChild hpslot]
      exact .of_putChild ⟨hpslot, by simp⟩ hp (fun w hw => by cases hw; exact hv) hsame
    rw [syncChild.eq_def]
    simp only [ownValue_eq_child (hfits seg hslot), ownValue_eq_child (fits_of_hasSlot hpslot)]
    cases hcur : r.child seg with
    | none =>
      obtain ⟨es, rfl⟩ := kind_eq_object.mp (hk.trans (hempty seg hslot hcur))
      have hput : Synced r (.object es) ((Json.object es).putChild seg none) seg :=
        .of_putChild ⟨hpslot, fun _ => rfl⟩ hp (fun w hw => by cases hw) (by rw [hcur]; trivial)
      cases seg with
      | index i => exact hpslot.elim
      | key k => exact hput
    | some current =>
      have hcurrent := hset current (hr.child hcur) (by rw [hcur]; exact SlotSame.refl _)
      cases hprev : p.child seg with
      | none => exact hcurrent
      | some previous =>
        simp only
        split
        · next hobj =>
          obtain hdirty | ⟨x, y, hx, hy, hxy⟩ := hcov
          · simp [hdirty] at hobj
          · obtain rfl : previous = x := Option.some.inj (hprev.symm.trans (hpb.trans hx))
            obtain rfl : current = y := Option.some.inj (hcur.symm.trans hy)
            obtain ⟨hsame, hwf⟩ := syncInto_same hxy hc hobj.1 hsync (hp.child hprev)
              (hr.child hcur)
            exact hset _ hwf (by rw [hcur]; exact hsame)
        · exact hcurrent

end

/-! ## Values a program hands over -/

/-- The values in the arguments are well formed. -/
def Mutation.WellFormed : Mutation → Prop
  | .assign _ value => value.WellFormed
  | .push items => ∀ x ∈ items, x.WellFormed
  | .unshift items => ∀ x ∈ items, x.WellFormed
  | .splice args => ∀ x ∈ args.items, x.WellFormed
  | .fill value _ _ => value.WellFormed
  | _ => True

def Event.WellFormed : Event → Prop
  | .mutate _ m => m.WellFormed
  | .setState next => next.WellFormed
  | _ => True

theorem wellFormed_splice {xs items : List Json} (hxs : ∀ x ∈ xs, x.WellFormed)
    (hitems : ∀ x ∈ items, x.WellFormed) (index remove : ℕ) :
    ∀ x ∈ splice xs index remove items, x.WellFormed := by
  intro x hx
  simp only [splice, List.mem_append] at hx
  rcases hx with (hx | hx) | hx
  · exact hxs x (List.mem_of_mem_take hx)
  · exact hitems x hx
  · exact hxs x (List.mem_of_mem_drop hx)

theorem assignMember_wellFormed {es : List (JsString × Json)} {key : JsString}
    {value : Option Json} {mark : Mark} {target' : Json} (hes : (Json.object es).WellFormed)
    (hvalue : SlotWellFormed value) (h : assignMember es key value = .ok (mark, target')) :
    target'.WellFormed := by
  obtain ⟨seg, -, h⟩ := bind_eq_ok.mp h
  cases value with
  | none =>
    obtain ⟨-, rfl⟩ := Prod.mk.inj (Except.ok.inj h)
    exact hes.putChild (.key key) (x := none) (by simp)
  | some v =>
    simp only at h
    split at h
    · obtain ⟨-, rfl⟩ := Prod.mk.inj (Except.ok.inj h)
      exact hes
    · obtain ⟨-, rfl⟩ := Prod.mk.inj (Except.ok.inj h)
      exact hes.putChild (.key key) (x := some v) hvalue

theorem assignItem_wellFormed {xs : List Json} {start : Option ℕ} {key : JsString}
    {value : Option Json} {mark : Mark} {target' : Json} (hxs : (Json.array xs).WellFormed)
    (hvalue : SlotWellFormed value) (h : assignItem xs start key value = .ok (mark, target')) :
    target'.WellFormed := by
  obtain ⟨seg, -, h⟩ := bind_eq_ok.mp h
  cases seg with
  | key k => cases h
  | index i =>
    obtain ⟨-, h⟩ := ite_error_eq_ok.mp h
    cases value with
    | none => cases h
    | some v =>
      simp only at h
      split at h
      · obtain ⟨-, rfl⟩ := Prod.mk.inj (Except.ok.inj h)
        exact hxs
      split at h
      · obtain ⟨-, rfl⟩ := Prod.mk.inj (Except.ok.inj h)
        refine WellFormed.array fun x hx => ?_
        rcases List.mem_append.mp hx with hx | hx
        · exact hxs.items x hx
        · rw [List.mem_singleton.mp hx]
          exact hvalue v rfl
      · obtain ⟨-, rfl⟩ := Prod.mk.inj (Except.ok.inj h)
        exact hxs.putChild (.index i) (x := some v) hvalue

/-- Mutations leave well-formed containers. -/
theorem mutateTarget_wellFormed {target : Json} {start : Option ℕ} {m : Mutation} {mark : Mark}
    {target' : Json} (ht : target.WellFormed) (hm : m.WellFormed)
    (h : mutateTarget target start m = .ok (mark, target')) : target'.WellFormed := by
  cases target with
  | null | bool | number | string => cases h
  | object es =>
    cases m <;> simp only [mutateTarget, mutateObject, reduceCtorEq] at h
    · exact assignMember_wellFormed ht (fun v hv => by cases hv; exact hm) h
    · exact assignMember_wellFormed ht (by simp [SlotWellFormed]) h
    · obtain ⟨-, rfl⟩ := Prod.mk.inj (Except.ok.inj h)
      exact ht
    · exact assignMember_wellFormed ht (by simp [SlotWellFormed]) h
  | array xs =>
    have hxs := ht.items
    cases m with
    | assign key value =>
      have hitem : assignItem xs start key (some value) = .ok (mark, target') := h
      exact assignItem_wellFormed ht (fun v hv => by cases hv; exact hm) hitem
    | assignUndefined key =>
      have hitem : assignItem xs start key none = .ok (mark, target') := h
      exact assignItem_wellFormed ht (by simp [SlotWellFormed]) hitem
    | assignLength next =>
      cases next with
      | none => cases h
      | some q =>
        obtain ⟨-, h⟩ := ite_error_eq_ok.mp h
        simp only at h
        split at h
        · obtain ⟨-, rfl⟩ := Prod.mk.inj (Except.ok.inj h)
          exact .array fun x hx => hxs x (List.mem_of_mem_take hx)
        split at h
        · obtain ⟨-, rfl⟩ := Prod.mk.inj (Except.ok.inj h)
          refine .array fun x hx => ?_
          rcases List.mem_append.mp hx with hx | hx
          · exact hxs x hx
          · rw [List.eq_of_mem_replicate hx]
            exact .null
        · obtain ⟨-, rfl⟩ := Prod.mk.inj (Except.ok.inj h)
          exact ht
    | reassign key =>
      obtain ⟨-, rfl⟩ := Prod.mk.inj (Except.ok.inj h)
      exact ht
    | delete key =>
      obtain ⟨seg, -, h⟩ := bind_eq_ok.mp h
      cases seg <;> cases h
    | push items =>
      obtain ⟨-, rfl⟩ := Prod.mk.inj (Except.ok.inj h)
      rw [spliceItems_eq xs le_rfl]
      exact .array (wellFormed_splice hxs hm _ _)
    | unshift items =>
      obtain ⟨-, rfl⟩ := Prod.mk.inj (Except.ok.inj h)
      rw [spliceItems_eq xs (Nat.zero_le _)]
      exact .array (wellFormed_splice hxs hm _ _)
    | splice args =>
      have hle := spliceRange_le xs.length args
      simp only [mutateTarget, mutateArray] at h
      generalize spliceRange xs.length args = range at hle h
      obtain ⟨-, rfl⟩ := Prod.mk.inj (Except.ok.inj h)
      rw [spliceItems_eq xs (by omega)]
      exact .array (wellFormed_splice hxs hm _ _)
    | pop =>
      obtain ⟨-, rfl⟩ := Prod.mk.inj (Except.ok.inj h)
      exact .array fun x hx => hxs x (List.mem_of_mem_dropLast hx)
    | shift =>
      obtain ⟨-, rfl⟩ := Prod.mk.inj (Except.ok.inj h)
      exact .array fun x hx => hxs x (List.mem_of_mem_tail hx)
    | sort order =>
      simp only [mutateTarget, mutateArray] at h
      split at h
      · obtain ⟨-, rfl⟩ := Prod.mk.inj (Except.ok.inj h)
        refine .array fun x hx => ?_
        obtain ⟨i, -, hi⟩ := List.mem_filterMap.mp hx
        exact hxs x (List.mem_of_getElem? hi)
      · cases h
    | reverse =>
      obtain ⟨-, rfl⟩ := Prod.mk.inj (Except.ok.inj h)
      exact .array fun x hx => hxs x (List.mem_reverse.mp hx)
    | fill value s e =>
      obtain ⟨-, rfl⟩ := Prod.mk.inj (Except.ok.inj h)
      refine .array fun x hx => ?_
      obtain ⟨i, hi, rfl⟩ := List.mem_mapIdx.mp hx
      split
      · exact hm
      · exact hxs _ (List.getElem_mem hi)
    | copyWithin t s e =>
      obtain ⟨-, rfl⟩ := Prod.mk.inj (Except.ok.inj h)
      refine .array fun x hx => ?_
      obtain ⟨i, hi, rfl⟩ := List.mem_mapIdx.mp hx
      split
      · rw [List.getD_eq_getElem?_getD]
        cases hget : xs[clampIndex xs.length s + (i - clampIndex xs.length t)]? with
        | none => exact hxs _ (List.getElem_mem hi)
        | some y => exact hxs y (List.mem_of_getElem? hget)
      · exact hxs _ (List.getElem_mem hi)

theorem wellFormed_of_slotAt {r target : Json} {path : Path} (hr : r.WellFormed)
    (h : slotAt (some r) path = some target) : target.WellFormed := by
  induction path generalizing r with
  | nil =>
    obtain rfl : r = target := Option.some.inj h
    exact hr
  | cons seg path ih =>
    obtain ⟨c, hc, hslot⟩ := exists_child_of_slotAt h
    exact ih (hr.child hc) hslot

theorem wellFormed_replaceAt {r target : Json} {path : Path} (hr : r.WellFormed)
    (ht : target.WellFormed) {c : Json} (h : slotAt (some r) path = some c) :
    (replaceAt r path target).WellFormed := by
  induction path generalizing r with
  | nil => exact ht
  | cons seg path ih =>
    obtain ⟨d, hd, hslot⟩ := exists_child_of_slotAt h
    rw [replaceAt_cons hd]
    exact hr.putChild seg fun v hv => by cases hv; exact ih (hr.child hd) hslot

/-! ## The invariant of a run -/

/-- What a consumer has after applying the batches one by one. -/
def replay (batches : List (List Op)) : Except DeltaError (Option Json) := batches.foldlM apply none

/-- Baseline and replica are the same value, and the dirty tree covers what the root has since. -/
structure Tracks (t : Tracker) (replica : Option Json) : Prop where
  root : t.root.WellFormed
  pending : t.pending.WellFormed
  clean : t.pending.valueDirty = false
  baseline : t.forceBase = false → ∃ b x, t.baseline = some b ∧ b.WellFormed ∧
    replica = some x ∧ x.WellFormed ∧ Same x b ∧ Cover b t.root t.pending
  idle : t.hasPending = false → t.pending = .empty

theorem tracks_track {root : Json} (h : root.WellFormed) (scan : ℕ) (replica : Option Json) :
    Tracks (track root scan) replica where
  root := h
  pending := DirtyNode.wellFormed_empty
  clean := rfl
  baseline := by simp [track]
  idle _ := rfl

theorem Tracks.rebase {t : Tracker} {replica : Option Json} (h : Tracks t replica) :
    Tracks t.rebase replica where
  root := h.root
  pending := DirtyNode.wellFormed_empty
  clean := rfl
  baseline := by simp [Tracker.rebase]
  idle _ := rfl

theorem tracks_setState {next : Json} (h : next.WellFormed) (t : Tracker)
    (replica : Option Json) : Tracks (t.setState next) replica where
  root := h
  pending := DirtyNode.wellFormed_empty
  clean := rfl
  baseline := by simp [Tracker.setState]
  idle _ := rfl

theorem DirtyNode.valueDirty_update_cons {f : DirtyNode → DirtyNode} {path : Path} {seg : Seg}
    (n : DirtyNode) : (n.update f (seg :: path)).valueDirty = n.valueDirty := by
  rw [update]
  split <;> rfl

/-- Marks keep the dirty tree well formed, and never compare the root as a value. -/
theorem wellFormed_record {path : Path} (hsafe : SafePath path) {n : DirtyNode}
    (hn : n.WellFormed) (hclean : n.valueDirty = false) {mark : Mark} {start : Option ℕ}
    {target target' : Json} (he : Effect start target mark target') :
    (mark.record path n).WellFormed ∧ (mark.record path n).valueDirty = false := by
  have hmarks : ∀ f : DirtyNode → DirtyNode, (∀ m : DirtyNode, m.WellFormed → (f m).WellFormed) →
      (∀ m : DirtyNode, m.valueDirty = false → (f m).valueDirty = false) →
      (n.update f path).WellFormed ∧ (n.update f path).valueDirty = false := by
    intro f hf hf'
    refine ⟨hn.update hf hsafe, ?_⟩
    cases path with
    | nil => exact hf' n hclean
    | cons seg path => rw [DirtyNode.valueDirty_update_cons, hclean]
  cases he with
  | same => exact ⟨hn, hclean⟩
  | tail => exact ⟨hn, hclean⟩
  | @slot seg x hseg hacc =>
    refine ⟨hn.update (fun _ _ => .mk (by simp [Table.Nodup]) (by simp) (by simp))
      (hsafe.concat hseg), ?_⟩
    cases path with
    | nil => exact (DirtyNode.valueDirty_update_cons n).trans hclean
    | cons t path => exact (DirtyNode.valueDirty_update_cons n).trans hclean
  | append zs htarget =>
    refine hmarks _ (fun m hm => ?_) fun m hm => ?_
    · rw [DirtyNode.markArrayAppend]
      split
      · exact hm
      split
      · exact .mk hm.nodup hm.safe hm.child
      · exact hm
    · rw [DirtyNode.markArrayAppend]
      split
      · exact hm
      split
      · exact hm
      · exact hm
  | diff ys harr =>
    refine hmarks _ (fun m hm => ?_) fun m hm => ?_
    · rw [DirtyNode.markArrayDiff]
      split
      · exact hm
      · exact .mk (by simp [Table.Nodup]) (by simp) (by simp)
    · rw [DirtyNode.markArrayDiff]
      split
      · exact hm
      · exact hm
  | replace ys harr =>
    refine hmarks _ (fun m hm => ?_) fun m hm => ?_
    · rw [DirtyNode.markArrayReplace]
      split
      · exact hm
      · exact .mk (by simp [Table.Nodup]) (by simp) (by simp)
    · rw [DirtyNode.markArrayReplace]
      split
      · exact hm
      · exact hm

/-- A mutation that does not throw keeps the invariant. -/
theorem Tracks.mutate {t t' : Tracker} {replica : Option Json} (h : Tracks t replica) {path : Path}
    {m : Mutation} (hm : m.WellFormed) (hmut : t.mutate path m = .ok t') : Tracks t' replica := by
  simp only [Tracker.mutate] at hmut
  split at hmut
  · cases hmut
  next hblocked =>
  have hsafe : SafePath path := by
    intro seg hseg
    simpa using List.find?_eq_none.mp hblocked seg hseg
  split at hmut
  · cases hmut
  next target htarget =>
  obtain ⟨⟨mark, target'⟩, hres, hmut⟩ := bind_eq_ok.mp hmut
  obtain rfl := Except.ok.inj hmut
  have heffect := mutateTarget_effect hres
  have htwf : target.WellFormed := wellFormed_of_slotAt h.root htarget
  have hrec := wellFormed_record hsafe h.pending h.clean heffect
  refine ⟨wellFormed_replaceAt h.root (mutateTarget_wellFormed htwf hm hres) htarget, hrec.1,
    hrec.2, fun hforce => ?_, fun hidle => ?_⟩
  · obtain ⟨b, x, hb, hbwf, hx, hxwf, hsame, hcov⟩ := h.baseline hforce
    exact ⟨b, x, hb, hbwf, hx, hxwf, hsame, heffect.cover hcov h.pending htarget⟩
  · cases mark <;> simp only [Bool.or_true, Bool.or_false, reduceCtorEq] at hidle
    exact h.idle hidle

theorem forceBase_mutate {t t' : Tracker} {path : Path} {m : Mutation}
    (h : t.mutate path m = .ok t') : t'.forceBase = t.forceBase := by
  simp only [Tracker.mutate] at h
  split at h
  · cases h
  split at h
  · cases h
  obtain ⟨⟨mark, target'⟩, -, h⟩ := bind_eq_ok.mp h
  obtain rfl := Except.ok.inj h
  rfl

/-- The ops of a conversion at the root, applied. -/
theorem Converts.apply_root {ops : List Op} {b r : Json} (h : Converts [] ops (some b) (some r))
    {x : Json} (hx : Same x b) (hwf : x.WellFormed) :
    ∃ v, apply (some x) ops = .ok (some v) ∧ Same v r ∧ v.WellFormed := by
  obtain ⟨y, hrun, hsame, hywf⟩ := h.runs (some x) hx fun v hv => by cases hv; exact hwf
  obtain ⟨v, rfl, hv⟩ := hsame.some_right
  exact ⟨v, hrun (some x) trivial rfl, hv, hywf v rfl⟩

theorem same_of_cover_empty {b r : Json} (h : Cover b r .empty) : Same b r := by
  obtain ⟨hk, hrest, -⟩ := h.resolve_left (by simp)
  exact same_iff.mpr ⟨hk, fun s => hrest s rfl (by simp)⟩

/-- **A flush brings the replica to the root.** -/
theorem Tracks.flush {t : Tracker} {replica : Option Json} (h : Tracks t replica) :
    ∃ ops t' v, t.flush = .ok (ops, t') ∧ (∀ op ∈ ops, op.Valid) ∧
      apply replica ops = .ok (some v) ∧ Same v t'.root ∧ Tracks t' (some v) ∧
      (t.forceBase = true → isBase ops = true) ∧ t'.forceBase = false := by
  by_cases hforce : t.forceBase = true
  · refine ⟨[.r t.root], { t.clearPending with baseline := some t.root, forceBase := false }, t.root,
      by rw [Tracker.flush, if_pos hforce], ?_, rfl, Same.refl _, ?_, fun _ => rfl, rfl⟩
    · simp [Op.Valid, assertValidOp]
    · refine ⟨h.root, DirtyNode.wellFormed_empty, rfl, fun _ => ?_, fun _ => rfl⟩
      exact ⟨t.root, t.root, rfl, h.root, rfl, h.root, Same.refl _, cover_of_same (Same.refl _)⟩
  obtain ⟨b, x, hb, hbwf, rfl, hxwf, hsame, hcov⟩ := h.baseline (by simpa using hforce)
  rw [Tracker.flush, if_neg hforce]
  simp only [hb]
  split
  · next hidle =>
    rw [h.idle hidle] at hcov
    have hbr := same_of_cover_empty hcov
    exact ⟨[], t, x, rfl, by simp, rfl, hsame.trans hbr, h, fun hf => absurd hf hforce,
      by simpa using hforce⟩
  next hpending =>
  obtain ⟨out, hwalk, hconv⟩ := walkDirty_converts t.scan hcov h.pending hbwf h.root
    (show SafePath [] by simp [SafePath])
  obtain ⟨v, hv, hvsame, hvwf⟩ := hconv.apply_root hsame hxwf
  obtain ⟨b', hb', hbsame, hbwf'⟩ : ∃ b', t.advanceBaseline b out = .ok (some b') ∧
      Same b' t.root ∧ b'.WellFormed := by
    rw [Tracker.advanceBaseline]
    split
    · next hsync =>
      obtain ⟨hs, hwf⟩ := syncInto_same hcov h.pending h.clean hsync hbwf h.root
      exact ⟨_, rfl, hs, hwf⟩
    split
    · exact hconv.apply_root (Same.refl b) hbwf
    · next hout =>
      have hnil : out = [] := List.length_eq_zero_iff.mp (by omega)
      obtain ⟨b', hb', hbsame, hbwf'⟩ := hconv.apply_root (Same.refl b) hbwf
      rw [hnil] at hb'
      exact ⟨b', hb', hbsame, hbwf'⟩
  refine ⟨out, { t.clearPending with baseline := some b' }, v, ?_, hconv.valid, hv, hvsame, ?_,
    fun hf => absurd hf hforce, by simpa [Tracker.clearPending] using hforce⟩
  · rw [hwalk, ok_bind, hb']
    rfl
  · refine ⟨h.root, DirtyNode.wellFormed_empty, rfl, fun _ => ?_, fun _ => rfl⟩
    exact ⟨b', v, rfl, hbwf', rfl, hvwf, hvsame.trans hbsame.symm, cover_of_same hbsame⟩

/-- What holds of the tracker and the batches returned so far at every point of a run. -/
structure RunInv (s : Tracker × List (List Op)) : Prop where
  replica : ∃ x, replay s.2 = .ok x ∧ Tracks s.1 x
  valid : ∀ ops ∈ s.2, ∀ op ∈ ops, op.Valid
  base : ∀ ops, s.2.head? = some ops → isBase ops = true
  fresh : s.2 = [] → s.1.forceBase = true

theorem replay_concat {batches : List (List Op)} {x : Option Json} (h : replay batches = .ok x)
    (ops : List Op) : replay (batches ++ [ops]) = apply x ops := by
  rw [replay, List.foldlM_append]
  rw [replay] at h
  simp [h]

theorem RunInv.flush {s : Tracker × List (List Op)} (h : RunInv s) :
    ∃ t batches v, step s .flush = .ok (t, batches) ∧ RunInv (t, batches) ∧ batches ≠ [] ∧
      replay batches = .ok (some v) ∧ Same v t.root := by
  obtain ⟨x, hx, htr⟩ := h.replica
  obtain ⟨ops, t', v, hflush, hvalid, happly, hsame, htr', hbase, hforce⟩ := htr.flush
  have hreplay : replay (s.2 ++ [ops]) = .ok (some v) := by rw [replay_concat hx, happly]
  refine ⟨t', s.2 ++ [ops], v, ?_, ⟨⟨some v, hreplay, htr'⟩, ?_, ?_, by simp⟩, by simp, hreplay,
    hsame⟩
  · rw [step, hflush, ok_bind]
    rfl
  · intro ops' hmem
    rcases List.mem_append.mp hmem with hmem | hmem
    · exact h.valid ops' hmem
    · rw [List.mem_singleton.mp hmem]
      exact hvalid
  · intro first hfirst
    cases hb : s.2 with
    | nil =>
      rw [hb] at hfirst
      obtain rfl : ops = first := by simpa using hfirst
      exact hbase (h.fresh hb)
    | cons b bs =>
      rw [hb] at hfirst
      exact h.base first (by rw [hb]; simpa using hfirst)

/-- Every event keeps the invariant, and none makes a flush throw. -/
theorem RunInv.step {s : Tracker × List (List Op)} (h : RunInv s) {e : Event}
    (he : e.WellFormed) : ∃ s', Delta.step s e = .ok s' ∧ RunInv s' := by
  obtain ⟨x, hx, htr⟩ := h.replica
  cases e with
  | mutate path m =>
    cases hm : s.1.mutate path m with
    | error err => exact ⟨s, by rw [Delta.step, hm], h⟩
    | ok t =>
      refine ⟨(t, s.2), by rw [Delta.step, hm], ⟨x, hx, htr.mutate he hm⟩, h.valid, h.base, ?_⟩
      intro hnil
      rw [forceBase_mutate hm]
      exact h.fresh hnil
  | flush =>
    obtain ⟨t, batches, v, hstep, hinv, -⟩ := h.flush
    exact ⟨(t, batches), hstep, hinv⟩
  | rebase => exact ⟨_, rfl, ⟨x, hx, htr.rebase⟩, h.valid, h.base, fun _ => rfl⟩
  | setState next =>
    exact ⟨_, rfl, ⟨x, hx, tracks_setState he s.1 x⟩, h.valid, h.base, fun _ => rfl⟩

theorem runInv_foldlM {s : Tracker × List (List Op)} (h : RunInv s) {events : List Event}
    (he : ∀ e ∈ events, e.WellFormed) : ∃ s', events.foldlM step s = .ok s' ∧ RunInv s' := by
  induction events generalizing s with
  | nil => exact ⟨s, rfl, h⟩
  | cons e events ih =>
    simp only [List.forall_mem_cons] at he
    obtain ⟨s', hstep, hinv⟩ := h.step he.1
    obtain ⟨s'', hrun, hinv'⟩ := ih hinv he.2
    exact ⟨s'', by rw [List.foldlM_cons, hstep, ok_bind, hrun], hinv'⟩

/-- **Convergence.** After every flush of every run, applying all batches returned so far, the first of
which is a base batch, does not throw and gives the tracked root, as JSON. Every op is valid. -/
theorem converges (root : Json) (scan : ℕ) (events : List Event) (hroot : root.WellFormed)
    (hevents : ∀ e ∈ events, e.WellFormed) :
    ∃ t batches v, run root scan (events ++ [.flush]) = .ok (t, batches) ∧
      batches.head?.any isBase = true ∧ replay batches = .ok (some v) ∧ Same v t.root ∧
      ∀ ops ∈ batches, ∀ op ∈ ops, assertValidOp op = .ok () := by
  have hinit : RunInv (track root scan, []) :=
    ⟨⟨none, rfl, tracks_track hroot scan none⟩, by simp, by simp, fun _ => rfl⟩
  obtain ⟨s, hrun, hinv⟩ := runInv_foldlM hinit hevents
  obtain ⟨t, batches, v, hstep, hinv', hne, hreplay, hsame⟩ := hinv.flush
  refine ⟨t, batches, v, ?_, ?_, hreplay, hsame, hinv'.valid⟩
  · rw [run, List.foldlM_append, hrun, ok_bind, List.foldlM_cons, hstep]
    rfl
  · obtain ⟨first, rest, hcons⟩ := List.exists_cons_of_ne_nil hne
    have hbase := hinv'.base first (by rw [show (t, batches).2 = batches from rfl, hcons]; rfl)
    rw [hcons]
    exact hbase

/-- A log and a counter. -/
def sampleRoot : Json :=
  .object [(JsString.ofAscii "log", .array [.string (JsString.ofAscii "x")]),
    (JsString.ofAscii "n", .number 1)]

/-- Appends, an assignment, a truncation and a deletion around two flushes and a rebase. -/
def sampleEvents : List Event :=
  let log : Path := [.key (JsString.ofAscii "log")]
  [.flush, .mutate log (.push [.string (JsString.ofAscii "y"), .null]),
    .mutate [] (.assign (JsString.ofAscii "n") (.number 2)), .flush,
    .mutate log (.assignLength (some 1)), .rebase, .mutate [] (.delete (JsString.ofAscii "n"))]

theorem sampleRoot_wellFormed : sampleRoot.WellFormed := by
  have hkeys : [JsString.ofAscii "log", JsString.ofAscii "n"].Nodup := by decide
  refine .object hkeys ?_
  simp only [List.forall_mem_cons, List.not_mem_nil, false_imp_iff, implies_true, and_true]
  exact ⟨.array (by simp [WellFormed.string]), .number 1⟩

theorem sampleEvents_wellFormed : ∀ e ∈ sampleEvents, e.WellFormed := by
  simp only [sampleEvents, List.forall_mem_cons, Event.WellFormed, Mutation.WellFormed,
    List.not_mem_nil, false_imp_iff, implies_true, and_true, true_and]
  exact ⟨⟨.string _, .null⟩, .number 2⟩

theorem converges_sample :
    ∃ t batches v, run sampleRoot 65536 (sampleEvents ++ [.flush]) = .ok (t, batches) ∧
      batches.head?.any isBase = true ∧ replay batches = .ok (some v) ∧ Same v t.root ∧
      ∀ ops ∈ batches, ∀ op ∈ ops, assertValidOp op = .ok () :=
  converges sampleRoot 65536 sampleEvents sampleRoot_wellFormed sampleEvents_wellFormed

end Phi.Delta

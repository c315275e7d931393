import Mathlib

/-!
# Tool calls and their results

What a provider checks of a conversation is the order of its messages and the ids of their tool calls. An `Item` is a
message seen that way. `Paired` is what the provider demands: a call has exactly one result in its turn, and a result
answers a call of the message before it.

`settle` leaves out the messages that were dropped and gives every call that has no result yet a result of its own, at
the end of the turn. `paired_settle_iff` says for which conversations that is enough.
-/

namespace Phi.Turns

variable {ι : Type}

/-- A message: of the user, of the assistant with the ids of its calls, or the result of a call. -/
inductive Item (ι : Type) where
  | user
  | assistant (dropped : Bool) (calls : List ι)
  | result (id : ι)

/-- The results in front. -/
def lead : List (Item ι) → List ι
  | .result id :: rest => id :: lead rest
  | _ => []

/-- The results behind dropped messages, up to the next message that stays. -/
def stray : List (Item ι) → List ι
  | .result _ :: rest => stray rest
  | .assistant true _ :: rest => lead rest ++ stray rest
  | _ => []

/-- The calls of an assistant message that stays. -/
def Item.calls? : Item ι → Option (List ι)
  | .assistant false calls => some calls
  | _ => none

/-- The calls of the closest assistant message. -/
def closest (items : List (Item ι)) : Option (List ι) := (items.filterMap Item.calls?).getLast?

/-- A result answers a call of the closest assistant message before it. -/
def Belongs (items : List (Item ι)) : Prop :=
  ∀ before id after, items = before ++ .result id :: after → ∃ calls, closest before = some calls ∧ id ∈ calls

section
variable [DecidableEq ι]

structure Paired (items : List (Item ι)) : Prop where
  answered : ∀ before calls after, items = before ++ .assistant false calls :: after →
    ∀ id ∈ calls, (lead after).count id = 1
  belongs : Belongs items

/-- What a conversation has to bring along. -/
structure Pairable (items : List (Item ι)) : Prop where
  belongs : Belongs items
  /-- No call has two results in its turn. -/
  once : ∀ before calls after, items = before ++ .assistant false calls :: after → (lead after).Nodup
  /-- An id that two calls of a message share has a result. -/
  shared : ∀ before calls after, items = before ++ .assistant false calls :: after →
    ∀ id, 2 ≤ calls.count id → id ∈ lead after
  /-- No result follows a dropped message in the turn. -/
  stray : ∀ before calls after, items = before ++ .assistant false calls :: after → stray after = []

/-- The results that a turn lacks. -/
def missing (calls answered : List ι) : List ι := calls.filter fun id => id ∉ answered

/-- `calls` are waiting for results, and `answered` have come since. -/
def settle : (calls answered : List ι) → List (Item ι) → List (Item ι)
  | calls, answered, [] => (missing calls answered).map .result
  | calls, answered, .user :: rest => (missing calls answered).map .result ++ .user :: settle [] [] rest
  | calls, answered, .assistant true _ :: rest => (missing calls answered).map .result ++ settle [] [] rest
  | calls, answered, .assistant false next :: rest =>
    (missing calls answered).map .result ++ .assistant false next :: settle next [] rest
  | calls, answered, .result id :: rest => .result id :: settle calls (id :: answered) rest

/-- Nothing waits, so it does not matter what came. -/
theorem settle_nil (answered : List ι) (items : List (Item ι)) : settle [] answered items = settle [] [] items := by
  induction items generalizing answered with
  | nil => rfl
  | cons item rest ih =>
    cases item with
    | user => rfl
    | assistant dropped next => cases dropped <;> rfl
    | result id => rw [settle, settle, ih, ih [id]]

/-! ## The turn of a message -/

omit [DecidableEq ι] in
theorem lead_append (ids : List ι) (rest : List (Item ι)) : lead (ids.map .result ++ rest) = ids ++ lead rest := by
  induction ids with
  | nil => rfl
  | cons id ids ih => simp only [List.map_cons, List.cons_append, lead, ih]

theorem missing_congr {calls a b : List ι} (h : ∀ id, id ∈ a ↔ id ∈ b) : missing calls a = missing calls b := by
  simp only [missing, h]

theorem missing_nil (answered : List ι) : missing ([] : List ι) answered = [] := rfl

/-- The results of a turn: those that came, those that were missing, and those behind dropped messages. -/
theorem lead_settle (calls answered : List ι) (items : List (Item ι)) :
    lead (settle calls answered items) = lead items ++ missing calls (answered ++ lead items) ++ stray items := by
  induction items generalizing calls answered with
  | nil =>
    have h := lead_append (missing calls answered) []
    rw [List.append_nil] at h
    simp only [settle, h, lead, stray, List.append_nil, List.nil_append]
  | cons item rest ih =>
    cases item with
    | user => simp only [settle, lead_append, lead, stray, List.append_nil, List.nil_append]
    | assistant dropped next =>
      cases dropped with
      | true =>
        simp only [settle, lead_append, ih, lead, stray, missing_nil, List.append_nil, List.nil_append]
      | false => simp only [settle, lead_append, lead, stray, List.append_nil, List.nil_append]
    | result id =>
      have hmem : missing calls (id :: answered ++ lead rest) = missing calls (answered ++ id :: lead rest) := by
        apply missing_congr
        intro x
        simp only [List.cons_append, List.mem_cons, List.mem_append]
        tauto
      simp only [settle, lead, ih, stray]
      rw [hmem]
      rfl

/-- One result for every call: when it is so. -/
theorem count_turn_iff {calls come behind : List ι} (hcome : ∀ id ∈ come, id ∈ calls)
    (hbehind : ∀ id ∈ behind, id ∈ calls) :
    (∀ id ∈ calls, (come ++ missing calls come ++ behind).count id = 1) ↔
      come.Nodup ∧ (∀ id, 2 ≤ calls.count id → id ∈ come) ∧ behind = [] := by
  have hmissing : ∀ id, (missing calls come).count id = if id ∈ come then 0 else calls.count id := by
    intro id
    split_ifs with hid
    · rw [List.count_eq_zero]
      simp [missing, hid]
    · exact List.count_filter (by simpa using hid)
  have hcount : ∀ id, (come ++ missing calls come ++ behind).count id
      = come.count id + (if id ∈ come then 0 else calls.count id) + behind.count id := by
    intro id
    rw [List.count_append, List.count_append, hmissing]
  simp only [hcount]
  constructor
  · intro h
    refine ⟨List.nodup_iff_count_le_one.mpr fun id => ?_, fun id hid => ?_, ?_⟩
    · by_cases hid : id ∈ come
      · have := h id (hcome id hid)
        omega
      · rw [List.count_eq_zero.mpr hid]
        omega
    · by_contra hnot
      have := h id (List.count_pos_iff.mp (by omega))
      rw [if_neg hnot] at this
      omega
    · by_contra hne
      obtain ⟨id, hid⟩ := List.exists_mem_of_ne_nil _ hne
      have hone := h id (hbehind id hid)
      have hpos := List.count_pos_iff.mpr hid
      split_ifs at hone with hin
      · have := List.count_pos_iff.mpr hin
        omega
      · have := List.count_pos_iff.mpr (hbehind id hid)
        omega
  · rintro ⟨hnodup, hshared, rfl⟩ id hid
    have hpos := List.count_pos_iff.mpr hid
    rw [List.count_nil]
    split_ifs with hin
    · rw [List.count_eq_one_of_mem hnodup hin]
    · rw [List.count_eq_zero.mpr hin]
      have : ¬2 ≤ calls.count id := fun h => hin (hshared id h)
      omega

end

/-! ## Along the conversation -/

/-- What holds wherever a list is taken apart holds at its head, and wherever its tail is. -/
theorem forall_split_cons {α : Type} {x : α} {xs : List α} {R : List α → α → List α → Prop} :
    (∀ before y after, x :: xs = before ++ y :: after → R before y after) ↔
      R [] x xs ∧ ∀ before y after, xs = before ++ y :: after → R (x :: before) y after := by
  constructor
  · intro h
    refine ⟨h [] x xs rfl, fun before y after heq => h (x :: before) y after ?_⟩
    rw [heq, List.cons_append]
  · rintro ⟨hhead, htail⟩ before y after heq
    cases before with
    | nil =>
      cases heq
      exact hhead
    | cons z before =>
      obtain ⟨rfl, hxs⟩ := List.cons.inj heq
      exact htail before y after hxs

/-- `Belongs` behind a message with the calls `last`. -/
def BelongsFrom (last : Option (List ι)) (items : List (Item ι)) : Prop :=
  ∀ before item after, items = before ++ item :: after → ∀ id, item = .result id →
    ∃ calls, (closest before).or last = some calls ∧ id ∈ calls

theorem belongs_iff (items : List (Item ι)) : Belongs items ↔ BelongsFrom none items := by
  constructor
  · intro h before item after heq id hid
    subst hid
    rw [Option.or_none]
    exact h before id after heq
  · intro h before id after heq
    have := h before (.result id) after heq id rfl
    rwa [Option.or_none] at this

theorem belongsFrom_nil (last : Option (List ι)) : BelongsFrom last [] := by
  intro before item after heq
  simp at heq

theorem closest_cons (item : Item ι) (items : List (Item ι)) (last : Option (List ι)) :
    (closest (item :: items)).or last = (closest items).or (item.calls?.or last) := by
  unfold closest
  cases hitem : item.calls? with
  | none => rw [List.filterMap_cons_none hitem, Option.none_or]
  | some calls =>
    rw [List.filterMap_cons_some hitem, List.getLast?_cons]
    cases (items.filterMap Item.calls?).getLast? <;> rfl

theorem belongsFrom_cons (last : Option (List ι)) (item : Item ι) (items : List (Item ι)) :
    BelongsFrom last (item :: items) ↔
      (∀ id, item = .result id → ∃ calls, last = some calls ∧ id ∈ calls) ∧
        BelongsFrom (item.calls?.or last) items := by
  unfold BelongsFrom
  rw [forall_split_cons]
  simp only [closest_cons]
  rfl

/-- Results that are known to belong can be put in front. -/
theorem belongsFrom_append {last : Option (List ι)} {ids : List ι}
    (hids : ∀ id ∈ ids, ∃ calls, last = some calls ∧ id ∈ calls) (items : List (Item ι)) :
    BelongsFrom last (ids.map .result ++ items) ↔ BelongsFrom last items := by
  induction ids with
  | nil => rfl
  | cons id ids ih =>
    rw [List.map_cons, List.cons_append, belongsFrom_cons, ← ih fun x hx => hids x (List.mem_cons_of_mem _ hx)]
    refine and_iff_right ?_
    rintro x ⟨⟩
    exact hids id List.mem_cons_self

/-- The results of a turn belong to its message. -/
theorem mem_of_belongsFrom {calls : List ι} {items : List (Item ι)} (h : BelongsFrom (some calls) items) :
    (∀ id ∈ lead items, id ∈ calls) ∧ ∀ id ∈ stray items, id ∈ calls := by
  induction items with
  | nil => exact ⟨fun id hid => absurd hid List.not_mem_nil, fun id hid => absurd hid List.not_mem_nil⟩
  | cons item rest ih =>
    rw [belongsFrom_cons] at h
    cases item with
    | user => exact ⟨fun id hid => absurd hid List.not_mem_nil, fun id hid => absurd hid List.not_mem_nil⟩
    | assistant dropped next =>
      cases dropped with
      | true =>
        obtain ⟨hlead, hstray⟩ := ih h.2
        exact ⟨fun id hid => absurd hid List.not_mem_nil,
          fun id hid => (List.mem_append.mp hid).elim (hlead id) (hstray id)⟩
      | false => exact ⟨fun id hid => absurd hid List.not_mem_nil, fun id hid => absurd hid List.not_mem_nil⟩
    | result x =>
      obtain ⟨hlead, hstray⟩ := ih h.2
      refine ⟨fun id hid => ?_, hstray⟩
      rcases List.mem_cons.mp hid with rfl | hid
      · obtain ⟨cs, hcs, hmem⟩ := h.1 id rfl
        cases hcs
        exact hmem
      · exact hlead id hid

/-- Wherever an assistant message stays, `Q` holds of its calls and of what follows. -/
def EachTurn (Q : List ι → List (Item ι) → Prop) (items : List (Item ι)) : Prop :=
  ∀ before item after, items = before ++ item :: after → ∀ calls, item = .assistant false calls → Q calls after

theorem eachTurn_cons {Q : List ι → List (Item ι) → Prop} (item : Item ι) (items : List (Item ι)) :
    EachTurn Q (item :: items) ↔ (∀ calls, item = .assistant false calls → Q calls items) ∧ EachTurn Q items :=
  forall_split_cons

theorem eachTurn_append {Q : List ι → List (Item ι) → Prop} (ids : List ι) (items : List (Item ι)) :
    EachTurn Q (ids.map .result ++ items) ↔ EachTurn Q items := by
  induction ids with
  | nil => rfl
  | cons id ids ih =>
    rw [List.map_cons, List.cons_append, eachTurn_cons, ih]
    exact and_iff_right (by rintro calls ⟨⟩)

section
variable [DecidableEq ι]

theorem missing_belongs {last : Option (List ι)} {calls : List ι}
    (hcalls : ∀ id ∈ calls, ∃ cs, last = some cs ∧ id ∈ cs) (answered : List ι) :
    ∀ id ∈ missing calls answered, ∃ cs, last = some cs ∧ id ∈ cs :=
  fun id hid => hcalls id (List.mem_of_mem_filter hid)

/-- `settle` adds only results that belong. -/
theorem belongsFrom_settle {last : Option (List ι)} {calls : List ι}
    (hcalls : ∀ id ∈ calls, ∃ cs, last = some cs ∧ id ∈ cs) (answered : List ι) (items : List (Item ι)) :
    BelongsFrom last (settle calls answered items) ↔ BelongsFrom last items := by
  induction items generalizing last calls answered with
  | nil =>
    have h := belongsFrom_append (missing_belongs hcalls answered) []
    rwa [List.append_nil] at h
  | cons item rest ih =>
    have hnone : ∀ last : Option (List ι), ∀ id ∈ ([] : List ι), ∃ cs, last = some cs ∧ id ∈ cs :=
      fun _ id hid => absurd hid List.not_mem_nil
    cases item with
    | user =>
      rw [settle, belongsFrom_append (missing_belongs hcalls answered), belongsFrom_cons, belongsFrom_cons]
      exact and_congr_right fun _ => ih (hnone _) []
    | assistant dropped next =>
      cases dropped with
      | true =>
        rw [settle, belongsFrom_append (missing_belongs hcalls answered), belongsFrom_cons, ih (hnone last) []]
        exact (and_iff_right (by rintro id ⟨⟩)).symm
      | false =>
        rw [settle, belongsFrom_append (missing_belongs hcalls answered), belongsFrom_cons, belongsFrom_cons]
        exact and_congr_right fun _ => ih (fun id hid => ⟨next, rfl, hid⟩) []
    | result id =>
      rw [settle, belongsFrom_cons, belongsFrom_cons]
      exact and_congr_right fun _ => ih hcalls _

/-- Turn by turn, a property of the settled conversation is one of the conversation itself. -/
theorem eachTurn_settle {Q : List ι → List (Item ι) → Prop} (calls answered : List ι) (items : List (Item ι)) :
    EachTurn Q (settle calls answered items) ↔ EachTurn (fun next after => Q next (settle next [] after)) items := by
  induction items generalizing calls answered with
  | nil =>
    have h := eachTurn_append (Q := Q) (missing calls answered) []
    rw [List.append_nil] at h
    rw [settle, h]
    constructor <;> exact fun _ before item after heq => by simp at heq
  | cons item rest ih =>
    cases item with
    | user =>
      rw [settle, eachTurn_append, eachTurn_cons, eachTurn_cons, ih]
      exact and_congr_left fun _ => ⟨by rintro _ calls ⟨⟩, by rintro _ calls ⟨⟩⟩
    | assistant dropped next =>
      cases dropped with
      | true =>
        rw [settle, eachTurn_append, eachTurn_cons, ih]
        exact (and_iff_right (by rintro calls ⟨⟩)).symm
      | false =>
        rw [settle, eachTurn_append, eachTurn_cons, eachTurn_cons, ih]
        exact and_congr_left fun _ => ⟨by rintro h calls ⟨⟩; exact h next rfl, by rintro h calls ⟨⟩; exact h next rfl⟩
    | result id =>
      rw [settle, eachTurn_cons, eachTurn_cons, ih]
      exact and_congr_left fun _ => ⟨by rintro _ calls ⟨⟩, by rintro _ calls ⟨⟩⟩

omit [DecidableEq ι] in
theorem eachTurn_iff {Q : List ι → List (Item ι) → Prop} (items : List (Item ι)) :
    EachTurn Q items ↔ ∀ before calls after, items = before ++ .assistant false calls :: after → Q calls after := by
  constructor
  · intro h before calls after heq
    exact h before _ after heq calls rfl
  · intro h before item after heq calls hitem
    subst hitem
    exact h before calls after heq

omit [DecidableEq ι] in
/-- Behind a message that stays, the results belong to it. -/
theorem BelongsFrom.behind {items before after : List (Item ι)} {calls : List ι} {last : Option (List ι)}
    (h : BelongsFrom last items) (heq : items = before ++ .assistant false calls :: after) :
    BelongsFrom (some calls) after := by
  induction before generalizing items last with
  | nil =>
    rw [heq, List.nil_append, belongsFrom_cons] at h
    exact h.2
  | cons item before ih =>
    rw [heq, List.cons_append, belongsFrom_cons] at h
    exact ih h.2 rfl

/-- A settled conversation is one a provider accepts exactly if the results that it came with are in order. -/
theorem paired_settle_iff (items : List (Item ι)) : Paired (settle [] [] items) ↔ Pairable items := by
  have hbelongs : Belongs (settle [] [] items) ↔ Belongs items := by
    rw [belongs_iff, belongs_iff, belongsFrom_settle fun id hid => absurd hid List.not_mem_nil]
  have hturn : Belongs items → ∀ before calls after, items = before ++ .assistant false calls :: after →
      ((∀ id ∈ calls, (lead (settle calls [] after)).count id = 1) ↔
        (lead after).Nodup ∧ (∀ id, 2 ≤ calls.count id → id ∈ lead after) ∧ stray after = []) := by
    intro h before calls after heq
    obtain ⟨hlead, hstray⟩ := mem_of_belongsFrom (((belongs_iff items).mp h).behind heq)
    rw [lead_settle, List.nil_append]
    exact count_turn_iff hlead hstray
  have hanswered := eachTurn_settle (Q := fun calls after => ∀ id ∈ calls, (lead after).count id = 1) [] [] items
  rw [eachTurn_iff, eachTurn_iff] at hanswered
  constructor
  · intro h
    have hb := hbelongs.mp h.belongs
    have hall := hanswered.mp h.answered
    exact ⟨hb, fun before calls after heq => ((hturn hb before calls after heq).mp (hall before calls after heq)).1,
      fun before calls after heq => ((hturn hb before calls after heq).mp (hall before calls after heq)).2.1,
      fun before calls after heq => ((hturn hb before calls after heq).mp (hall before calls after heq)).2.2⟩
  · intro h
    refine ⟨hanswered.mpr fun before calls after heq => ?_, hbelongs.mpr h.belongs⟩
    exact (hturn h.belongs before calls after heq).mpr
      ⟨h.once before calls after heq, h.shared before calls after heq, h.stray before calls after heq⟩

end

end Phi.Turns

import Mathlib.Algebra.BigOperators.Intervals
import Mathlib.Algebra.Order.BigOperators.Group.Finset
import Phi.Harness.Compaction

/-!
# Where a compaction cuts

What `findCutPoint` of `packages/agent/src/harness/compaction/compaction.ts` chooses. The walk back over the messages
stops where they reach the budget, the cut is put at the first cut point from there on, and then it goes back over the
entries in front of it that carry no message of their own.

A tool result is no cut point. Where the walk stops at one that no cut point follows, the cut stays where it was put
first, at the first cut point of all. And where the cut goes back to a custom entry, the turn of the entry it was put
at is no longer the turn that is looked for.
-/

namespace Phi.Harness

open Coding (AgentMessage name roleOf estimateTokens)

/-! ## Tokens -/

section Tokens

variable (F : NumberFormat) (entries : List Entry)

/-- The estimate of the message of an entry, which is all that the walk counts. -/
def messageTokens (i : ℕ) : ℕ := (entries[i]?.bind Entry.message?).elim 0 (estimateTokens F)

/-- The estimated tokens of the messages from an index on, up to another. -/
def tokensBetween (a b : ℕ) : ℕ := ∑ i ∈ Finset.Ico a b, messageTokens F entries i

def MessageAt (i : ℕ) : Prop := (entries[i]?.bind Entry.message?).isSome = true

end Tokens

section

variable {F : NumberFormat} {entries : List Entry}

theorem messageTokens_eq_zero {i : ℕ} (h : ¬MessageAt entries i) : messageTokens F entries i = 0 := by
  rw [MessageAt, Option.not_isSome_iff_eq_none] at h
  rw [messageTokens, h]
  rfl

theorem tokensBetween_succ {a b : ℕ} (h : a ≤ b) :
    tokensBetween F entries a (b + 1) = tokensBetween F entries a b + messageTokens F entries b :=
  Finset.sum_Ico_succ_top h _

theorem tokensBetween_append {a b c : ℕ} (hab : a ≤ b) (hbc : b ≤ c) :
    tokensBetween F entries a b + tokensBetween F entries b c = tokensBetween F entries a c :=
  Finset.sum_Ico_consecutive _ hab hbc

theorem tokensBetween_anti {a b c : ℕ} (h : a ≤ b) : tokensBetween F entries b c ≤ tokensBetween F entries a c :=
  Finset.sum_le_sum_of_subset (Finset.Ico_subset_Ico_left h)

theorem tokensBetween_eq_zero {a b : ℕ} (h : ∀ i, a ≤ i → i < b → ¬MessageAt entries i) :
    tokensBetween F entries a b = 0 := by
  apply Finset.sum_eq_zero
  intro i hi
  rw [Finset.mem_Ico] at hi
  exact messageTokens_eq_zero (h i hi.1 hi.2)

/-- Entries without a message can be left out in front. -/
theorem tokensBetween_skip {a b c : ℕ} (hab : a ≤ b) (hbc : b ≤ c)
    (h : ∀ i, a ≤ i → i < b → ¬MessageAt entries i) : tokensBetween F entries a c = tokensBetween F entries b c := by
  rw [← tokensBetween_append hab hbc, tokensBetween_eq_zero h, Nat.zero_add]

/-! ## The walk -/

/-- The messages from `i` on reach the budget, and those behind it do not. -/
structure BudgetReached (F : NumberFormat) (entries : List Entry) (startIndex endIndex : ℕ) (keepRecentTokens : ℚ)
    (i : ℕ) : Prop where
  start_le : startIndex ≤ i
  lt_end : i < endIndex
  message : MessageAt entries i
  reached : keepRecentTokens ≤ tokensBetween F entries i endIndex
  last : ∀ j, i < j → j < endIndex → MessageAt entries j → tokensBetween F entries j endIndex < keepRecentTokens

variable {startIndex endIndex : ℕ} {keepRecentTokens : ℚ}

variable (F entries startIndex keepRecentTokens) in
/-- The walk with what it has accumulated behind `n`. -/
theorem reachBudget_spec (n accumulated : ℕ) :
    match reachBudget F entries startIndex keepRecentTokens n accumulated with
    | some i => startIndex ≤ i ∧ i < n ∧ MessageAt entries i ∧
        keepRecentTokens ≤ (accumulated + tokensBetween F entries i n : ℕ) ∧
        ∀ j, i < j → j < n → MessageAt entries j →
          ((accumulated + tokensBetween F entries j n : ℕ) : ℚ) < keepRecentTokens
    | none => ∀ j, startIndex ≤ j → j < n → MessageAt entries j →
        ((accumulated + tokensBetween F entries j n : ℕ) : ℚ) < keepRecentTokens := by
  induction n generalizing accumulated with
  | zero => simp [reachBudget]
  | succ n ih =>
    rw [reachBudget]
    by_cases hstart : n < startIndex
    · rw [if_pos hstart]
      intro j hj hlt
      omega
    rw [if_neg hstart]
    cases hm : entries[n]?.bind Entry.message? with
    | none =>
      have hno : ¬MessageAt entries n := by simp [MessageAt, hm]
      have hsame : ∀ j < n, tokensBetween F entries j (n + 1) = tokensBetween F entries j n := fun j hj => by
        rw [tokensBetween_succ hj.le, messageTokens_eq_zero hno, Nat.add_zero]
      have hbehind : ∀ j, j < n + 1 → MessageAt entries j → j < n := fun j hj hmessage =>
        lt_of_le_of_ne (Nat.lt_succ_iff.mp hj) fun h => hno (h ▸ hmessage)
      specialize ih accumulated
      dsimp only
      split at ih
      next i hi =>
        obtain ⟨hle, hlt, hmessage, hreach, hlast⟩ := ih
        refine ⟨hle, by omega, hmessage, by rw [hsame i hlt]; exact hreach, fun j hij hj hjm => ?_⟩
        have hjn := hbehind j hj hjm
        rw [hsame j hjn]
        exact hlast j hij hjn hjm
      next hnone =>
        intro j hle hj hjm
        have hjn := hbehind j hj hjm
        rw [hsame j hjn]
        exact ih j hle hjn hjm
    | some message =>
      have htokens : messageTokens F entries n = estimateTokens F message := by rw [messageTokens, hm]; rfl
      have hsame : ∀ j ≤ n, accumulated + tokensBetween F entries j (n + 1)
          = accumulated + estimateTokens F message + tokensBetween F entries j n := fun j hj => by
        rw [tokensBetween_succ hj, htokens]
        omega
      have hself : accumulated + tokensBetween F entries n (n + 1) = accumulated + estimateTokens F message := by
        rw [hsame n le_rfl, tokensBetween, Finset.Ico_self, Finset.sum_empty, Nat.add_zero]
      dsimp only
      by_cases hreach : keepRecentTokens ≤ (accumulated + estimateTokens F message : ℕ)
      · rw [if_pos hreach]
        refine ⟨by omega, n.lt_succ_self, by simp [MessageAt, hm], by rw [hself]; exact hreach, fun j hnj hj => ?_⟩
        omega
      · rw [if_neg hreach]
        rw [not_le] at hreach
        specialize ih (accumulated + estimateTokens F message)
        split at ih
        next i hi =>
          obtain ⟨hle, hlt, hmessage, hbudget, hlast⟩ := ih
          refine ⟨hle, by omega, hmessage, by rw [hsame i hlt.le]; exact hbudget, fun j hij hj hjm => ?_⟩
          rcases Nat.lt_succ_iff_lt_or_eq.mp hj with hjn | rfl
          · rw [hsame j hjn.le]
            exact hlast j hij hjn hjm
          · rw [hself]
            exact hreach
        next hnone =>
          intro j hle hj hjm
          rcases Nat.lt_succ_iff_lt_or_eq.mp hj with hjn | rfl
          · rw [hsame j hjn.le]
            exact ih j hle hjn hjm
          · rw [hself]
            exact hreach

theorem budgetReached_of_reachBudget {i : ℕ}
    (h : reachBudget F entries startIndex keepRecentTokens endIndex 0 = some i) :
    BudgetReached F entries startIndex endIndex keepRecentTokens i := by
  have hspec := reachBudget_spec F entries startIndex keepRecentTokens endIndex 0
  rw [h] at hspec
  simp only [Nat.zero_add] at hspec
  exact ⟨hspec.1, hspec.2.1, hspec.2.2.1, hspec.2.2.2.1, hspec.2.2.2.2⟩

theorem not_budgetReached_of_reachBudget
    (h : reachBudget F entries startIndex keepRecentTokens endIndex 0 = none) (i : ℕ) :
    ¬BudgetReached F entries startIndex endIndex keepRecentTokens i := by
  have hspec := reachBudget_spec F entries startIndex keepRecentTokens endIndex 0
  rw [h] at hspec
  simp only [Nat.zero_add] at hspec
  intro hi
  exact absurd hi.reached (not_le.mpr (hspec i hi.start_le hi.lt_end hi.message))

theorem BudgetReached.unique {i j : ℕ} (hi : BudgetReached F entries startIndex endIndex keepRecentTokens i)
    (hj : BudgetReached F entries startIndex endIndex keepRecentTokens j) : i = j := by
  rcases lt_trichotomy i j with hlt | heq | hlt
  · exact absurd hj.reached (not_le.mpr (hi.last j hlt hj.lt_end hj.message))
  · exact heq
  · exact absurd hi.reached (not_le.mpr (hj.last i hlt hi.lt_end hi.message))

theorem exists_budgetReached {j : ℕ} (hstart : startIndex ≤ j) (hend : j < endIndex) (hmessage : MessageAt entries j)
    (hreached : keepRecentTokens ≤ tokensBetween F entries j endIndex) :
    ∃ i, j ≤ i ∧ BudgetReached F entries startIndex endIndex keepRecentTokens i := by
  -- from the last message backwards: the last one that reaches the budget
  induction hn : endIndex - j using Nat.strong_induction_on generalizing j with
  | _ n ih =>
    by_cases hlater : ∃ k, j < k ∧ k < endIndex ∧ MessageAt entries k ∧
        keepRecentTokens ≤ tokensBetween F entries k endIndex
    · obtain ⟨k, hjk, hk, hkm, hkr⟩ := hlater
      obtain ⟨i, hki, hi⟩ := ih (endIndex - k) (by omega) (hstart.trans hjk.le) hk hkm hkr rfl
      exact ⟨i, hjk.le.trans hki, hi⟩
    · exact ⟨j, le_rfl, hstart, hend, hmessage, hreached,
        fun k hjk hk hkm => not_le.mp fun hkr => hlater ⟨k, hjk, hk, hkm, hkr⟩⟩

/-- Behind the place where it is reached, what there is stays under a positive budget. -/
theorem tokensBetween_lt {a : ℕ} (hkeep : 0 < keepRecentTokens) (hstart : startIndex ≤ a)
    (h : ∀ i, BudgetReached F entries startIndex endIndex keepRecentTokens i → i < a) :
    tokensBetween F entries a endIndex < keepRecentTokens := by
  by_contra hreach
  rw [not_lt] at hreach
  have hsome : ∃ j, a ≤ j ∧ j < endIndex ∧ MessageAt entries j := by
    by_contra hnone
    rw [tokensBetween_eq_zero fun j haj hj hjm => hnone ⟨j, haj, hj, hjm⟩] at hreach
    exact absurd hreach (not_le.mpr (by simpa using hkeep))
  classical
  have hfirst : tokensBetween F entries a endIndex = tokensBetween F entries (Nat.find hsome) endIndex :=
    tokensBetween_skip (Nat.find_spec hsome).1 (Nat.find_spec hsome).2.1.le fun j haj hj hjm =>
      Nat.find_min hsome hj ⟨haj, hj.trans (Nat.find_spec hsome).2.1, hjm⟩
  obtain ⟨haj, hj, hjm⟩ := Nat.find_spec hsome
  rw [hfirst] at hreach
  obtain ⟨i, hji, hi⟩ := exists_budgetReached (hstart.trans haj) hj hjm hreach
  exact absurd (h i hi) (not_lt.mpr (haj.trans hji))

/-! ## The cut -/

/-- The cut point that the budget selects: the first one from where it is reached on, or the first of all. -/
def BudgetCut (F : NumberFormat) (entries : List Entry) (startIndex endIndex : ℕ) (keepRecentTokens : ℚ)
    (c : ℕ) : Prop :=
  c ∈ findValidCutPoints entries startIndex endIndex ∧
    ((∃ i, BudgetReached F entries startIndex endIndex keepRecentTokens i ∧ i ≤ c ∧
        ∀ c' ∈ findValidCutPoints entries startIndex endIndex, i ≤ c' → c ≤ c') ∨
      (∀ i, BudgetReached F entries startIndex endIndex keepRecentTokens i →
          ∀ c' ∈ findValidCutPoints entries startIndex endIndex, c' < i) ∧
        ∀ c' ∈ findValidCutPoints entries startIndex endIndex, c ≤ c')

variable (entries startIndex endIndex) in
theorem findValidCutPoints_sorted : (findValidCutPoints entries startIndex endIndex).Pairwise (· < ·) :=
  List.Pairwise.filter _ List.pairwise_lt_range'

/-- What a search finds comes first among all that it could have found. -/
theorem rel_of_find? {r : ℕ → ℕ → Prop} {l : List ℕ} (hsorted : l.Pairwise r) {p : ℕ → Bool} {c : ℕ}
    (h : l.find? p = some c) : ∀ c' ∈ l, p c' = true → c = c' ∨ r c c' := by
  induction l with
  | nil => simp at h
  | cons a l ih =>
    rw [List.pairwise_cons] at hsorted
    rw [List.find?_cons] at h
    split at h
    next ha =>
      rw [← Option.some.inj h]
      intro c' hc' _
      rcases List.mem_cons.mp hc' with rfl | hmem
      · exact .inl rfl
      · exact .inr (hsorted.1 c' hmem)
    next ha =>
      intro c' hc' hp
      rcases List.mem_cons.mp hc' with rfl | hmem
      · rw [hp] at ha
        cases ha
      · exact ih hsorted.2 h c' hmem hp

/-- An entry that the cut goes back over. -/
def Entry.isAside (entry : Entry) : Bool := entry.compaction?.isNone && entry.message?.isNone

theorem moveBack_succ (c : ℕ) :
    moveBack entries startIndex (c + 1) =
      if startIndex < c + 1 ∧ entries[c]?.any Entry.isAside = true then moveBack entries startIndex c else c + 1 :=
  rfl

variable (entries) in
/-- The cut goes back over all that stands aside in front of it. -/
theorem moveBack_spec (c : ℕ) (hstart : startIndex ≤ c) :
    startIndex ≤ moveBack entries startIndex c ∧ moveBack entries startIndex c ≤ c ∧
      (∀ j, moveBack entries startIndex c ≤ j → j < c → entries[j]?.any Entry.isAside = true) ∧
      ∀ j, startIndex ≤ j → j + 1 = moveBack entries startIndex c → entries[j]?.any Entry.isAside = false := by
  induction c with
  | zero => exact ⟨hstart, le_rfl, fun j _ hj => absurd hj j.not_lt_zero, fun j _ hj => absurd hj (by simp [moveBack])⟩
  | succ c ih =>
    by_cases hback : startIndex < c + 1 ∧ entries[c]?.any Entry.isAside = true
    · rw [moveBack_succ, if_pos hback]
      obtain ⟨hle, hlec, hbetween, hstop⟩ := ih (Nat.lt_succ_iff.mp hback.1)
      refine ⟨hle, hlec.trans c.le_succ, fun j hj hlt => ?_, hstop⟩
      rcases Nat.lt_succ_iff_lt_or_eq.mp hlt with hlt | rfl
      · exact hbetween j hj hlt
      · exact hback.2
    · rw [moveBack_succ, if_neg hback]
      refine ⟨hstart, le_rfl, fun j hj hlt => absurd hj (by omega), fun j hj heq => ?_⟩
      obtain rfl : j = c := Nat.succ.inj heq
      rw [not_and, Bool.not_eq_true] at hback
      exact hback (Nat.lt_succ_of_le hj)

/-- The turn that a cut at `k` is found to split. -/
def turnAt (entries : List Entry) (startIndex k : ℕ) : Option ℕ :=
  if (entries[k]?.bind Entry.message?).any fun message => roleOf message = some .user then none
  else findTurnStartIndex entries k startIndex

variable (F keepRecentTokens) in
/-- What `findCutPoint` does where there is a place to cut. -/
theorem findCutPoint_eq (h : findValidCutPoints entries startIndex endIndex ≠ []) :
    ∃ c, BudgetCut F entries startIndex endIndex keepRecentTokens c ∧
      findCutPoint F entries startIndex endIndex keepRecentTokens
        = ⟨moveBack entries startIndex c, turnAt entries startIndex (moveBack entries startIndex c),
            (turnAt entries startIndex (moveBack entries startIndex c)).isSome⟩ := by
  have hturn : ∀ k, (!((entries[k]?.bind Entry.message?).any fun message => roleOf message = some .user) &&
      (turnAt entries startIndex k).isSome) = (turnAt entries startIndex k).isSome := by
    intro k
    rw [turnAt]
    split
    next huser => simp [huser]
    next huser => simp [huser]
  have hsorted := findValidCutPoints_sorted entries startIndex endIndex
  rw [findCutPoint]
  cases hcuts : findValidCutPoints entries startIndex endIndex with
  | nil => exact absurd hcuts h
  | cons first others =>
    rw [hcuts] at hsorted
    dsimp only
    refine ⟨_, ?_, by rw [← turnAt, hturn]⟩
    have hfirst : ∀ c' ∈ first :: others, first ≤ c' := fun c' hc' => by
      rcases List.mem_cons.mp hc' with rfl | hmem
      · exact le_rfl
      · exact ((List.pairwise_cons.mp hsorted).1 c' hmem).le
    rw [BudgetCut, hcuts]
    cases hreach : reachBudget F entries startIndex keepRecentTokens endIndex 0 with
    | none =>
      exact ⟨List.mem_cons_self, .inr ⟨fun i hi => absurd hi (not_budgetReached_of_reachBudget hreach i), hfirst⟩⟩
    | some i =>
      have hi := budgetReached_of_reachBudget hreach
      dsimp only
      cases hfind : (first :: others).find? fun c => decide (i ≤ c) with
      | some c =>
        refine ⟨List.mem_of_find?_eq_some hfind, .inl ⟨i, hi, ?_, fun c' hc' hle => ?_⟩⟩
        · simpa using List.find?_some hfind
        · exact (rel_of_find? hsorted hfind c' hc' (by simpa using hle)).elim le_of_eq le_of_lt
      | none =>
        refine ⟨List.mem_cons_self, .inr ⟨fun j hj c' hc' => ?_, hfirst⟩⟩
        rw [hj.unique hi]
        simpa using List.find?_eq_none.mp hfind c' hc'

theorem not_messageAt_of_isAside {i : ℕ} (h : entries[i]?.any Entry.isAside = true) : ¬MessageAt entries i := by
  obtain ⟨e, he, haside⟩ := (Option.any_eq_true _ _).mp h
  rw [Entry.isAside, Bool.and_eq_true, Option.isNone_iff_eq_none, Option.isNone_iff_eq_none] at haside
  simp [MessageAt, he, haside.2]

theorem BudgetCut.bounds {c : ℕ} (h : BudgetCut F entries startIndex endIndex keepRecentTokens c) :
    startIndex ≤ c ∧ c < endIndex :=
  have hmem := mem_findValidCutPoints.mp h.1
  ⟨hmem.1, hmem.2.1⟩

/-- What the cut goes back over adds nothing to what is kept. -/
theorem BudgetCut.tokens {c : ℕ} (h : BudgetCut F entries startIndex endIndex keepRecentTokens c) :
    tokensBetween F entries (moveBack entries startIndex c) endIndex = tokensBetween F entries c endIndex := by
  obtain ⟨-, hle, haside, -⟩ := moveBack_spec entries c h.bounds.1
  exact tokensBetween_skip hle h.bounds.2.le fun i hi hlt => not_messageAt_of_isAside (haside i hi hlt)

/-! ## Keeping no more than asked -/

/-- What is kept has no more tokens than any part that begins at a cut point and reaches the budget. -/
def KeepsLeast (F : NumberFormat) (entries : List Entry) (startIndex endIndex : ℕ) (keepRecentTokens : ℚ) : Prop :=
  ∀ c ∈ findValidCutPoints entries startIndex endIndex, keepRecentTokens ≤ tokensBetween F entries c endIndex →
    tokensBetween F entries (findCutPoint F entries startIndex endIndex keepRecentTokens).firstKeptEntryIndex endIndex
      ≤ tokensBetween F entries c endIndex

def LastMessage (entries : List Entry) (endIndex m : ℕ) : Prop :=
  m < endIndex ∧ MessageAt entries m ∧ ∀ j, m < j → j < endIndex → ¬MessageAt entries j

/-- Nothing lies between the first cut point and the last, or what lies behind the last one stays under the budget.
A budget of nothing is reached at the last message: it must not lie behind the last cut point, and where it is a cut
point in front of the last, it must be empty. -/
def InReach (F : NumberFormat) (entries : List Entry) (startIndex endIndex : ℕ) (keepRecentTokens : ℚ)
    (first last : ℕ) : Prop :=
  tokensBetween F entries first last = 0 ∨
    (0 < keepRecentTokens ∧ tokensBetween F entries (last + 1) endIndex < keepRecentTokens) ∨
    (keepRecentTokens ≤ 0 ∧ ∀ m, LastMessage entries endIndex m → m ≤ last ∧
      (m ∈ findValidCutPoints entries startIndex endIndex → m < last → messageTokens F entries m = 0))

/-- The walk can come to the cut point that keeps least. -/
def LeastInReach (F : NumberFormat) (entries : List Entry) (startIndex endIndex : ℕ) (keepRecentTokens : ℚ) : Prop :=
  ∀ first last, (findValidCutPoints entries startIndex endIndex).head? = some first →
    (findValidCutPoints entries startIndex endIndex).getLast? = some last →
    InReach F entries startIndex endIndex keepRecentTokens first last

theorem LastMessage.unique {m n : ℕ} (hm : LastMessage entries endIndex m) (hn : LastMessage entries endIndex n) :
    m = n := by
  rcases lt_trichotomy m n with hlt | heq | hlt
  · exact absurd hn.2.1 (hm.2.2 n hlt hn.1)
  · exact heq
  · exact absurd hm.2.1 (hn.2.2 m hlt hm.1)

theorem LastMessage.tokens {m : ℕ} (hm : LastMessage entries endIndex m) :
    tokensBetween F entries m endIndex = messageTokens F entries m := by
  rw [← tokensBetween_append m.le_succ hm.1, tokensBetween_succ le_rfl, tokensBetween_eq_zero hm.2.2, tokensBetween,
    Finset.Ico_self, Finset.sum_empty, Nat.zero_add, Nat.add_zero]

/-- A budget of nothing is reached at the last message. -/
theorem BudgetReached.lastMessage {i : ℕ} (h : BudgetReached F entries startIndex endIndex keepRecentTokens i)
    (hkeep : keepRecentTokens ≤ 0) : LastMessage entries endIndex i :=
  ⟨h.lt_end, h.message, fun j hij hj hjm =>
    absurd (h.last j hij hj hjm) (not_lt.mpr (hkeep.trans (Nat.cast_nonneg _)))⟩

theorem head_le {first : ℕ} (h : (findValidCutPoints entries startIndex endIndex).head? = some first) :
    ∀ c ∈ findValidCutPoints entries startIndex endIndex, first ≤ c := by
  have hsorted := findValidCutPoints_sorted entries startIndex endIndex
  obtain ⟨others, hothers⟩ := List.head?_eq_some_iff.mp h
  rw [hothers] at hsorted ⊢
  intro c hc
  rcases List.mem_cons.mp hc with rfl | hmem
  · exact le_rfl
  · exact ((List.pairwise_cons.mp hsorted).1 c hmem).le

theorem le_getLast {last : ℕ} (h : (findValidCutPoints entries startIndex endIndex).getLast? = some last) :
    ∀ c ∈ findValidCutPoints entries startIndex endIndex, c ≤ last := by
  have hsorted := findValidCutPoints_sorted entries startIndex endIndex
  obtain ⟨others, hothers⟩ := List.getLast?_eq_some_iff.mp h
  rw [hothers] at hsorted ⊢
  intro c hc
  rcases List.mem_append.mp hc with hmem | hmem
  · exact ((List.pairwise_append.mp hsorted).2.2 c hmem last (List.mem_singleton_self _)).le
  · exact (List.mem_singleton.mp hmem).le

/-- The budget is reached at `i`, and the cut is at the first cut point from there on. -/
theorem keepsLeast_iff_of_cut_behind {first last i c : ℕ}
    (hfirst : (findValidCutPoints entries startIndex endIndex).head? = some first)
    (hlast : (findValidCutPoints entries startIndex endIndex).getLast? = some last)
    (hi : BudgetReached F entries startIndex endIndex keepRecentTokens i)
    (hc : c ∈ findValidCutPoints entries startIndex endIndex) (hic : i ≤ c)
    (hleast : ∀ c' ∈ findValidCutPoints entries startIndex endIndex, i ≤ c' → c ≤ c') :
    (∀ c' ∈ findValidCutPoints entries startIndex endIndex, keepRecentTokens ≤ tokensBetween F entries c' endIndex →
        tokensBetween F entries c endIndex ≤ tokensBetween F entries c' endIndex) ↔
      InReach F entries startIndex endIndex keepRecentTokens first last := by
  have hlastMem := List.mem_of_getLast? hlast
  have hcLast := le_getLast hlast c hc
  rcases lt_or_ge 0 keepRecentTokens with hkeep | hkeep
  · -- a cut point that reaches the budget does not lie behind `i`
    have hbehind : ∀ a, i < a → tokensBetween F entries a endIndex < keepRecentTokens := fun a ha =>
      tokensBetween_lt hkeep (hi.start_le.trans ha.le) fun j hj => hj.unique hi ▸ ha
    apply iff_of_true
    · intro c' hc' hreach
      have hle : c' ≤ i := not_lt.mp fun hlt => absurd hreach (not_le.mpr (hbehind c' hlt))
      exact tokensBetween_anti (hle.trans hic)
    · exact .inr (.inl ⟨hkeep, hbehind (last + 1) (by omega)⟩)
  · have him := hi.lastMessage hkeep
    have hzero : ∀ a, i < a → tokensBetween F entries a endIndex = 0 := fun a ha =>
      tokensBetween_eq_zero fun j haj hj => him.2.2 j (ha.trans_le haj) hj
    constructor
    · intro hkeeps
      refine .inr (.inr ⟨hkeep, fun m hm => ?_⟩)
      obtain rfl := hm.unique him
      refine ⟨hic.trans hcLast, fun hmem hlt => ?_⟩
      obtain rfl : c = m := le_antisymm (hleast m hmem le_rfl) hic
      have hlastTokens := hkeeps last hlastMem (hkeep.trans (Nat.cast_nonneg _))
      rw [hzero last hlt, Nat.le_zero, hm.tokens] at hlastTokens
      exact hlastTokens
    · rintro (hnone | ⟨hpos, -⟩ | ⟨-, hempty⟩) c' hc' -
      · have hall : tokensBetween F entries first endIndex = tokensBetween F entries last endIndex := by
          rw [← tokensBetween_append (head_le hfirst last hlastMem) (mem_findValidCutPoints.mp hlastMem).2.1.le, hnone,
            Nat.zero_add]
        calc tokensBetween F entries c endIndex
            ≤ tokensBetween F entries first endIndex := tokensBetween_anti (head_le hfirst c hc)
          _ = tokensBetween F entries last endIndex := hall
          _ ≤ tokensBetween F entries c' endIndex := tokensBetween_anti (le_getLast hlast c' hc')
      · exact absurd hpos (not_lt.mpr hkeep)
      · rcases hic.lt_or_eq with hlt | rfl
        · rw [hzero c hlt]
          exact Nat.zero_le _
        · rcases (le_getLast hlast i hc).lt_or_eq with hlt | rfl
          · rw [him.tokens, (hempty i him).2 hc hlt]
            exact Nat.zero_le _
          · exact tokensBetween_anti (le_getLast hlast c' hc')

/-- No cut point lies behind the place where the budget is reached, and the cut is at the first of all. -/
theorem keepsLeast_iff_of_cut_first {first last : ℕ}
    (hfirst : (findValidCutPoints entries startIndex endIndex).head? = some first)
    (hlast : (findValidCutPoints entries startIndex endIndex).getLast? = some last)
    (hbefore : ∀ i, BudgetReached F entries startIndex endIndex keepRecentTokens i →
      ∀ c' ∈ findValidCutPoints entries startIndex endIndex, c' < i) :
    (∀ c' ∈ findValidCutPoints entries startIndex endIndex, keepRecentTokens ≤ tokensBetween F entries c' endIndex →
        tokensBetween F entries first endIndex ≤ tokensBetween F entries c' endIndex) ↔
      InReach F entries startIndex endIndex keepRecentTokens first last := by
  have hlastMem := List.mem_of_getLast? hlast
  have hfirstMem := List.mem_of_head? hfirst
  have hfirstLast := head_le hfirst last hlastMem
  have hlastEnd := (mem_findValidCutPoints.mp hlastMem).2.1
  have hstart := (mem_findValidCutPoints.mp hfirstMem).1
  have hsum : tokensBetween F entries first last + tokensBetween F entries last endIndex
      = tokensBetween F entries first endIndex :=
    tokensBetween_append hfirstLast hlastEnd.le
  by_cases hsome : ∃ i, BudgetReached F entries startIndex endIndex keepRecentTokens i
  · obtain ⟨i, hi⟩ := hsome
    have hbound : keepRecentTokens ≤ tokensBetween F entries last endIndex :=
      hi.reached.trans (Nat.cast_le.mpr (tokensBetween_anti (hbefore i hi last hlastMem).le))
    constructor
    · intro hkeeps
      have hle := hkeeps last hlastMem hbound
      exact .inl (by omega)
    · rintro (hnone | ⟨hpos, hlt⟩ | ⟨hkeep, hempty⟩) c' hc' -
      · rw [← hsum, hnone, Nat.zero_add]
        exact tokensBetween_anti (le_getLast hlast c' hc')
      · have hle : tokensBetween F entries i endIndex ≤ tokensBetween F entries (last + 1) endIndex :=
          tokensBetween_anti (hbefore i hi last hlastMem)
        exact absurd (hi.reached.trans (Nat.cast_le.mpr hle)) (not_le.mpr hlt)
      · exact absurd (hempty i (hi.lastMessage hkeep)).1 (not_le.mpr (hbefore i hi last hlastMem))
  · have hnever : ∀ i, ¬BudgetReached F entries startIndex endIndex keepRecentTokens i := not_exists.mp hsome
    rcases lt_or_ge 0 keepRecentTokens with hkeep | hkeep
    · have hunder : ∀ a, startIndex ≤ a → tokensBetween F entries a endIndex < keepRecentTokens := fun a ha =>
        tokensBetween_lt hkeep ha fun i hi => absurd hi (hnever i)
      apply iff_of_true
      · intro c' hc' hreach
        exact absurd hreach (not_le.mpr (hunder c' (mem_findValidCutPoints.mp hc').1))
      · exact .inr (.inl ⟨hkeep, hunder (last + 1) (by omega)⟩)
    · have hempty : tokensBetween F entries first endIndex = 0 := tokensBetween_eq_zero fun j hj hlt hjm => by
        obtain ⟨i, -, hi⟩ := exists_budgetReached (hstart.trans hj) hlt hjm (hkeep.trans (Nat.cast_nonneg _))
        exact hnever i hi
      apply iff_of_true
      · intro c' hc' _
        rw [hempty]
        exact Nat.zero_le _
      · exact .inl (by omega)

/-- What is kept is as small as a cut point allows exactly when such a cut point is within the reach of the walk. -/
theorem findCutPoint_keepsLeast_iff (F : NumberFormat) (entries : List Entry) (startIndex endIndex : ℕ)
    (keepRecentTokens : ℚ) :
    KeepsLeast F entries startIndex endIndex keepRecentTokens
      ↔ LeastInReach F entries startIndex endIndex keepRecentTokens := by
  by_cases hcuts : findValidCutPoints entries startIndex endIndex = []
  · rw [KeepsLeast, LeastInReach, hcuts]
    simp
  obtain ⟨c, hcut, heq⟩ := findCutPoint_eq F keepRecentTokens hcuts
  obtain ⟨first, hfirst⟩ := Option.isSome_iff_exists.mp (List.isSome_head?.mpr hcuts)
  obtain ⟨last, hlast⟩ := Option.isSome_iff_exists.mp (List.getLast?_isSome.mpr hcuts)
  have hiff : LeastInReach F entries startIndex endIndex keepRecentTokens
      ↔ InReach F entries startIndex endIndex keepRecentTokens first last := by
    constructor
    · intro h
      exact h first last hfirst hlast
    · intro h first' last' hfirst' hlast'
      rw [hfirst, Option.some.injEq] at hfirst'
      rw [hlast, Option.some.injEq] at hlast'
      exact hfirst' ▸ hlast' ▸ h
  rw [KeepsLeast, heq, hiff]
  simp only [hcut.tokens]
  obtain ⟨hmem, ⟨i, hi, hic, hleast⟩ | ⟨hbefore, hfirstOfAll⟩⟩ := hcut
  · exact keepsLeast_iff_of_cut_behind hfirst hlast hi hmem hic hleast
  · obtain rfl : c = first :=
      le_antisymm (hfirstOfAll first (List.mem_of_head? hfirst)) (head_le hfirst c hmem)
    exact keepsLeast_iff_of_cut_first hfirst hlast hbefore

end

def toolCallMessage : AgentMessage :=
  [(name "role", .string (name "assistant")),
    (name "content", .array [.object [(name "type", .string (name "toolCall")), (name "id", .string (name "c")),
      (name "name", .string (name "read")), (name "arguments", .object [])]])]

def toolResultMessage : AgentMessage :=
  [(name "role", .string (name "toolResult")), (name "toolCallId", .string (name "c")),
    (name "content", .array [.object [(name "type", .string (name "text")), (name "text", .string (name "a result"))]])]

/-- A tool result that reaches the budget by itself, with the whole context in front of it kept. -/
theorem findCutPoint_keeps_all :
    ¬KeepsLeast NumberFormat.fractions
      [messageEntry "a" 1 userMessage, messageEntry "b" 2 toolCallMessage, messageEntry "c" 3 toolResultMessage]
      0 3 2 := by
  intro h
  have hkept := h 1 (by decide) (by decide)
  revert hkept
  decide

/-! ## Split turns -/

/-- Of the entries from `k` on, `q` is the first that carries a message. -/
def FirstRetained (entries : List Entry) (k q : ℕ) : Prop :=
  k ≤ q ∧ (entries[q]?.bind getMessageFromEntryForCompaction).isSome = true ∧
    ∀ j, k ≤ j → j < q → entries[j]?.bind getMessageFromEntryForCompaction = none

/-- The entries that stand aside in front of `c` begin at `k`. -/
def AsideFrom (entries : List Entry) (k c : ℕ) : Prop :=
  k ≤ c ∧ (∀ j, k ≤ j → j < c → entries[j]?.any Entry.isAside = true) ∧
    ∀ j, j + 1 = k → entries[j]?.any Entry.isAside = false

section

variable {F : NumberFormat} {entries : List Entry} {startIndex endIndex : ℕ} {keepRecentTokens : ℚ}

theorem BudgetCut.unique {c d : ℕ} (hc : BudgetCut F entries startIndex endIndex keepRecentTokens c)
    (hd : BudgetCut F entries startIndex endIndex keepRecentTokens d) : c = d := by
  obtain ⟨hcm, ⟨i, hi, hic, hc⟩ | ⟨hcb, hc⟩⟩ := hc <;> obtain ⟨hdm, ⟨j, hj, hjd, hd⟩ | ⟨hdb, hd⟩⟩ := hd
  · obtain rfl := hi.unique hj
    exact le_antisymm (hc d hdm hjd) (hd c hcm hic)
  · exact absurd (hdb i hi c hcm) (not_lt.mpr hic)
  · exact absurd (hcb j hj d hdm) (not_lt.mpr hjd)
  · exact le_antisymm (hc d hdm) (hd c hcm)

theorem AsideFrom.unique {k l c : ℕ} (hk : AsideFrom entries k c) (hl : AsideFrom entries l c) : k = l := by
  have hle : ∀ {k l : ℕ}, AsideFrom entries k c → AsideFrom entries l c → l ≤ k := by
    intro k l hk hl
    by_contra hlt
    rw [not_le] at hlt
    -- the entry in front of `l` would stand aside
    have hstop := hl.2.2 (l - 1) (by omega)
    rw [hk.2.1 (l - 1) (by omega) (by have := hl.1; omega)] at hstop
    cases hstop
  exact le_antisymm (hle hl hk) (hle hk hl)

theorem FirstRetained.unique {k q r : ℕ} (hq : FirstRetained entries k q) (hr : FirstRetained entries k r) :
    q = r := by
  rcases lt_trichotomy q r with hlt | heq | hlt
  · rw [FirstRetained, hr.2.2 q hq.1 hlt] at hq
    simp at hq
  · exact heq
  · rw [FirstRetained, hq.2.2 r hr.1 hlt] at hr
    simp at hr

end

end Phi.Harness

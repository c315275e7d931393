import Mathlib

/-!
# Reading page by page

Rows are read in pages behind a cursor, which is the key of the last row of the page before. `fetchAll` goes on until a
page is short. It reads every row once and in order when a page is the first rows behind its cursor and the rows are
sorted by what `past` says of their keys.
-/

namespace Phi

variable {α ε : Type*}

/-- Read pages until one is shorter than the limit, for at most as many pages as the fuel; a page may not end or fail. -/
def fetchAll (page : Option ℤ → Option (Except ε (List α))) (key : α → ℤ) (limit : ℕ) :
    ℕ → Option ℤ → Option (Except ε (List α))
  | 0, _ => none
  | fuel + 1, cursor =>
    match page cursor with
    | none => none
    | some (.error e) => some (.error e)
    | some (.ok rows) =>
      if rows.length < limit then some (.ok rows)
      else
        match rows.getLast? with
        | none => some (.ok rows)
        | some last => (fetchAll page key limit fuel (some (key last))).map (Except.map (rows ++ ·))

/-- The rows behind a cursor. -/
def behind (past : ℤ → α → Bool) (rows : List α) : Option ℤ → List α
  | none => rows
  | some cursor => rows.filter (past cursor)

namespace Paging

variable {page : Option ℤ → Option (Except ε (List α))} {key : α → ℤ} {past : ℤ → α → Bool}

/-- Of sorted rows, those behind the last of a front are the rest. -/
theorem behind_getLast {front rest : List α} (hsorted : (front ++ rest).Pairwise fun x y => past (key x) y = true)
    (hasymm : ∀ x y, past (key x) y = true → past (key y) x = false) {last : α} (hlast : front.getLast? = some last) :
    behind past (front ++ rest) (some (key last)) = rest := by
  obtain ⟨before, rfl⟩ := List.getLast?_eq_some_iff.mp hlast
  obtain ⟨hfront, -, hcross⟩ := List.pairwise_append.mp hsorted
  have hself : past (key last) last = false := by
    cases h : past (key last) last with
    | false => rfl
    | true => exact (h.symm.trans (hasymm last last h))
  have hfilter : (before ++ [last]).filter (past (key last)) = [] := by
    rw [List.filter_eq_nil_iff]
    intro x hx
    rcases List.mem_append.mp hx with hx | hx
    · simp [hasymm x last ((List.pairwise_append.mp hfront).2.2 x hx last (by simp))]
    · rw [List.mem_singleton.mp hx, hself]
      simp
  have hrest : rest.filter (past (key last)) = rest := by
    rw [List.filter_eq_self]
    exact fun y hy => hcross last (by simp) y hy
  rw [behind, List.filter_append, hfilter, hrest, List.nil_append]

/-- From a cursor on, the rows behind it are read. -/
theorem fetchAll_from {rows : List α} {limit : ℕ} (hlimit : 1 ≤ limit)
    (hsorted : rows.Pairwise fun x y => past (key x) y = true)
    (hasymm : ∀ x y, past (key x) y = true → past (key y) x = false)
    (hpage : ∀ cursor, (∀ c ∈ cursor, ∃ x ∈ rows, key x = c) →
      page cursor = some (.ok ((behind past rows cursor).take limit)))
    {front rest : List α} (hrows : rows = front ++ rest) {cursor : Option ℤ}
    (hcursor : cursor = front.getLast?.map key) {fuel : ℕ} (hfuel : rest.length < fuel) :
    fetchAll page key limit fuel cursor = some (.ok rest) := by
  induction fuel generalizing front rest cursor with
  | zero => omega
  | succ fuel ih =>
    have hbehind : behind past rows cursor = rest := by
      cases hlast : front.getLast? with
      | none =>
        rw [List.getLast?_eq_none_iff.mp hlast, List.nil_append] at hrows
        rw [hcursor, hlast, ← hrows]
        rfl
      | some last =>
        rw [hcursor, hlast, hrows]
        exact behind_getLast (hrows ▸ hsorted) hasymm hlast
    have hrow : ∀ c ∈ cursor, ∃ x ∈ rows, key x = c := by
      intro c hc
      rw [hcursor] at hc
      obtain ⟨x, hx, rfl⟩ := Option.map_eq_some_iff.mp hc
      exact ⟨x, hrows ▸ List.mem_append_left _ (List.mem_of_getLast? hx), rfl⟩
    rw [fetchAll, hpage cursor hrow, hbehind]
    by_cases hshort : rest.length < limit
    · simp only [List.take_of_length_le hshort.le, if_pos hshort]
    · have hlen : (rest.take limit).length = limit := by
        rw [List.length_take]
        omega
      have hne : rest.take limit ≠ [] := by
        intro hnil
        rw [hnil, List.length_nil] at hlen
        omega
      have hlast := List.getLast?_eq_some_getLast hne
      have hnext : fetchAll page key limit fuel (some (key ((rest.take limit).getLast hne)))
          = some (.ok (rest.drop limit)) := by
        refine ih (?_ : rows = (front ++ rest.take limit) ++ rest.drop limit) ?_ ?_
        · rw [List.append_assoc, List.take_append_drop, hrows]
        · rw [List.getLast?_append_of_ne_nil _ hne, hlast]
          rfl
        · rw [List.length_drop]
          omega
      simp only [hlen, lt_irrefl, if_false, hlast, hnext, Option.map_some, Except.map]
      rw [List.take_append_drop]

/-- All rows are read, once and in order. -/
theorem fetchAll_eq (past : ℤ → α → Bool) {rows : List α} {limit : ℕ} (hlimit : 1 ≤ limit)
    (hsorted : rows.Pairwise fun x y => past (key x) y = true)
    (hasymm : ∀ x y, past (key x) y = true → past (key y) x = false)
    (hpage : ∀ cursor, (∀ c ∈ cursor, ∃ x ∈ rows, key x = c) →
      page cursor = some (.ok ((behind past rows cursor).take limit)))
    {fuel : ℕ} (hfuel : rows.length < fuel) : fetchAll page key limit fuel none = some (.ok rows) :=
  fetchAll_from hlimit hsorted hasymm hpage (show rows = [] ++ rows from rfl) rfl hfuel

end Paging

end Phi

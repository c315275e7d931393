import Phi.Data.Except
import Phi.Data.Table

/-!
# Walks along a chain of references

Each node of a table names the key of the next one. A walk goes from node to node with a state of its own until the
chain ends or its body stops it. It remembers the keys it has visited, so it ends on every table: it fails on a key that
is not there, and on one that it meets again.
-/

namespace Phi

inductive WalkError (K : Type*) where
  | cycle (key : K)
  | missing (key : K)
deriving DecidableEq

section
variable {K N σ β : Type*} [DecidableEq K]

/-- Fewer keys are left when one more is visited. -/
theorem filter_visited_lt {nodes : Table K N} {key : K} {node : N} {visited : List K} (hkey : key ∉ visited)
    (hnode : nodes.get key = some node) :
    (nodes.keys.filter fun k => k ∉ key :: visited).length < (nodes.keys.filter fun k => k ∉ visited).length := by
  have hsub : (nodes.keys.filter fun k => k ∉ key :: visited)
      = (nodes.keys.filter fun k => k ∉ visited).filter fun k => k ≠ key := by
    rw [List.filter_filter]
    refine List.filter_congr fun k _ => ?_
    simp [not_or]
  rw [hsub]
  refine List.length_filter_lt_length_iff_exists.mpr ⟨key, ?_, by simp⟩
  exact List.mem_filter.mpr ⟨Table.mem_keys_of_get hnode, by simpa using hkey⟩

/-- The state at the end of the chain, or what the body stopped with: at a key that `exit` knows, or in a node. -/
def walk (nodes : Table K N) (next : N → Option K) (exit : σ → K → Option β) (visit : σ → K → N → σ ⊕ β)
    (visited : List K) (s : σ) (key : Option K) : Except (WalkError K) (σ ⊕ β) :=
  match key with
  | none => .ok (.inl s)
  | some key =>
    match exit s key with
    | some b => .ok (.inr b)
    | none =>
      if _hkey : key ∈ visited then .error (.cycle key)
      else
        match _hnode : nodes.get key with
        | none => .error (.missing key)
        | some node =>
          match visit s key node with
          | .inr b => .ok (.inr b)
          | .inl s => walk nodes next exit visit (key :: visited) s (next node)
termination_by (nodes.keys.filter fun k => k ∉ visited).length
decreasing_by exact filter_visited_lt ‹_› ‹_›

theorem walk_none (nodes : Table K N) (next : N → Option K) (exit : σ → K → Option β) (visit : σ → K → N → σ ⊕ β)
    (visited : List K) (s : σ) : walk nodes next exit visit visited s none = .ok (.inl s) := by
  rw [walk]

/-- One round of a walk. -/
theorem walk_some (nodes : Table K N) (next : N → Option K) (exit : σ → K → Option β) (visit : σ → K → N → σ ⊕ β)
    (visited : List K) (s : σ) (key : K) :
    walk nodes next exit visit visited s (some key) =
      (exit s key).elim (if key ∈ visited then .error (.cycle key) else
        (nodes.get key).elim (.error (.missing key)) fun node =>
          (visit s key node).elim (fun s' => walk nodes next exit visit (key :: visited) s' (next node)) fun b =>
            .ok (.inr b)) fun b => .ok (.inr b) := by
  rw [walk]
  cases exit s key with
  | some b => rfl
  | none =>
    dsimp only [Option.elim_none]
    split_ifs with hkey
    · rfl
    · split
      · rename_i heq
        rw [heq, Option.elim_none]
      · rename_i node heq
        rw [heq, Option.elim_some]
        cases visit s key node <;> rfl

/-- The rule for walks: an invariant of the state and of the rest of the chain. -/
theorem walk_rule {nodes : Table K N} {next : N → Option K} {exit : σ → K → Option β} {visit : σ → K → N → σ ⊕ β}
    {I : σ → Option K → Prop} {P : σ ⊕ β → Prop} (hend : ∀ s, I s none → P (.inl s))
    (hexit : ∀ s key b, I s (some key) → exit s key = some b → P (.inr b))
    (hstop : ∀ s key node b, I s (some key) → nodes.get key = some node → visit s key node = .inr b → P (.inr b))
    (hstep : ∀ s key node s', I s (some key) → exit s key = none → nodes.get key = some node →
      visit s key node = .inl s' → I s' (next node))
    {visited : List K} {s : σ} {key : Option K} (hI : I s key) {r : σ ⊕ β}
    (hr : walk nodes next exit visit visited s key = .ok r) : P r := by
  induction visited, s, key using walk.induct nodes next exit visit with
  | case1 visited s =>
    rw [walk_none] at hr
    cases hr
    exact hend s hI
  | case2 visited s key b hb =>
    rw [walk_some, hb] at hr
    cases hr
    exact hexit s key b hI hb
  | case3 visited s key hb hkey =>
    rw [walk_some, hb, Option.elim_none, if_pos hkey] at hr
    cases hr
  | case4 visited s key hb hkey hnode =>
    rw [walk_some, hb, Option.elim_none, if_neg hkey, hnode] at hr
    cases hr
  | case5 visited s key hb hkey node hnode b hvisit =>
    rw [walk_some, hb, Option.elim_none, if_neg hkey, hnode, Option.elim_some, hvisit] at hr
    cases hr
    exact hstop s key node b hI hnode hvisit
  | case6 visited s key hb hkey node hnode s' hvisit ih =>
    rw [walk_some, hb, Option.elim_none, if_neg hkey, hnode, Option.elim_some, hvisit] at hr
    exact ih (hstep s key node s' hI hb hnode hvisit) hr

end

end Phi

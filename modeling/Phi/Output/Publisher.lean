import Mathlib

/-!
# Adaptive publishing

`AdaptivePublisher` publishes the latest state of something without queuing what happened in between. The first
change after a pause is published at once; each publication then buys a delay that grows with its size, and one timer
makes sure that the last state is published. The state published last is the one that the next update starts from.

Delivery is the last thing that happens, so that it is returned to the caller here: `some update` is what the
consumer is called with.
-/

namespace Phi.Output

/-- What a publisher is made with, apart from the state it looks at. -/
structure AdaptivePublisherOptions (V U : Type*) where
  update : Option V → V → Option U
  measure : U → ℕ
  minIntervalMs : ℚ := 100
  targetBytesPerSecond : ℚ := 100 * 1024

structure AdaptivePublisher (V : Type*) where
  published : Option V := none
  dirty : Bool := false
  nextEmitAt : ℚ := 0
  /-- A timer is armed. -/
  timer : Bool := false
  disposed : Bool := false

namespace AdaptivePublisher

variable {V U : Type*} (options : AdaptivePublisherOptions V U)

def armTimer (p : AdaptivePublisher V) : AdaptivePublisher V := { p with timer := true }

/-- `flush(force)` at the time `now`, with the snapshot `current`. -/
def flush (p : AdaptivePublisher V) (force : Bool) (now : ℚ) (current : V) : AdaptivePublisher V × Option U :=
  if p.disposed || !p.dirty then (p, none)
  else if !force && now < p.nextEmitAt then (p.armTimer, none)
  else
    match options.update p.published current with
    | none => ({ p with timer := false, published := some current, dirty := false }, none)
    | some update =>
      ({ p with
          timer := false
          published := some current
          dirty := false
          nextEmitAt := now + max options.minIntervalMs (options.measure update * 1000 / options.targetBytesPerSecond) },
        some update)

/-- `markDirty()`. The clock is read again when it goes on to `flush()`. -/
def markDirty (p : AdaptivePublisher V) (now later : ℚ) (current : V) : AdaptivePublisher V × Option U :=
  if p.disposed then (p, none)
  else if p.nextEmitAt - now ≤ 0 then { p with dirty := true }.flush options false later current
  else ({ p with dirty := true }.armTimer, none)

def dispose (p : AdaptivePublisher V) : AdaptivePublisher V := { p with timer := false, disposed := true }

/-- A flush leaves things as they are, apart from the timer, or publishes the snapshot. -/
theorem flush_cases (p : AdaptivePublisher V) (force : Bool) (now : ℚ) (current : V) :
    ((p.flush options force now current).2 = none ∧ (p.flush options force now current).1.published = p.published ∧
        (p.flush options force now current).1.dirty = p.dirty ∧
        (p.flush options force now current).1.disposed = p.disposed ∧
        (force = true → p.disposed = true ∨ p.dirty = false)) ∨
      (p.disposed = false ∧ (p.flush options force now current).1.disposed = false ∧
        (p.flush options force now current).2 = options.update p.published current ∧
        (p.flush options force now current).1.published = some current ∧
        (p.flush options force now current).1.dirty = false) := by
  rw [flush]
  split
  · rename_i hidle
    refine .inl ⟨rfl, rfl, rfl, rfl, fun _ => ?_⟩
    simpa using hidle
  · rename_i hbusy
    have hdisposed : p.disposed = false := by
      simp only [Bool.or_eq_true, not_or] at hbusy
      simpa using hbusy.1
    split
    · rename_i hwait
      refine .inl ⟨rfl, rfl, rfl, rfl, fun hforce => ?_⟩
      simp [hforce] at hwait
    · split
      · rename_i hnone
        exact .inr ⟨hdisposed, hdisposed, hnone.symm, rfl, rfl⟩
      · rename_i update hsome
        exact .inr ⟨hdisposed, hdisposed, hsome.symm, rfl, rfl⟩

/-- A change is noted, and published now or later. -/
theorem markDirty_cases (p : AdaptivePublisher V) (now later : ℚ) (current : V) (hdisposed : p.disposed = false) :
    (p.markDirty options now later current).1.disposed = false ∧
      (((p.markDirty options now later current).2 = none ∧
          (p.markDirty options now later current).1.published = p.published ∧
          (p.markDirty options now later current).1.dirty = true) ∨
        ((p.markDirty options now later current).2 = options.update p.published current ∧
          (p.markDirty options now later current).1.published = some current ∧
          (p.markDirty options now later current).1.dirty = false)) := by
  rw [markDirty, if_neg (by simp [hdisposed])]
  split
  · rcases flush_cases options { p with dirty := true } false later current with
      ⟨hnone, hpublished, hdirty, hsame, -⟩ | ⟨-, hopen, hupdate, hpublished, hdirty⟩
    · exact ⟨hsame.trans hdisposed, .inl ⟨hnone, hpublished, hdirty⟩⟩
    · exact ⟨hopen, .inr ⟨hupdate, hpublished, hdirty⟩⟩
  · exact ⟨hdisposed, .inl ⟨rfl, rfl, rfl⟩⟩

end AdaptivePublisher

end Phi.Output

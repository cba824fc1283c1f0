import Mathlib.Logic.Relation

/-!
# Invariants of transition systems

A safety property of a running system is proved by naming an invariant that
holds at the start and that no step breaks.  The two rules below package the
induction over the run once; every lab of this development uses them.
-/

namespace OperateSystem.Invariant

variable {State : Type*} {Step : State → State → Prop}

/-- A state reached from `start` by any number of steps. -/
abbrev Reachable (Step : State → State → Prop) (start state : State) : Prop :=
  Relation.ReflTransGen Step start state

/-- An invariant of the start state that every step keeps holds in every
reachable state. -/
theorem reachable_invariant (Inv : State → Prop) {start state : State}
    (hstart : Inv start)
    (hstep : ∀ before after, Inv before → Step before after → Inv after)
    (hreach : Reachable Step start state) : Inv state := by
  induction hreach with
  | refl => exact hstart
  | tail _ hlast ih => exact hstep _ _ ih hlast

end OperateSystem.Invariant

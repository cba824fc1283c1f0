import Mathlib.Tactic.Common

/-!
# Runs with their calls

A trace records, latest first, every call of a run with the state before it and the
state after it.  Where each call of a run that has gone well so far goes well
exactly when a condition holds before it, a whole run goes well exactly when the
condition held before each of its calls.
-/

namespace OperateSystem.Traces

variable {State Call : Type*} {step : State → Call → State → Prop}

/-- The calls of a run from `start` to its last state. -/
inductive Trace (step : State → Call → State → Prop) (start : State) :
    List (State × Call × State) → State → Prop
  | nil : Trace step start [] start
  | snoc {calls : List (State × Call × State)} {before after : State} {call : Call}
      (htrace : Trace step start calls before) (hstep : step before call after) :
      Trace step start ((before, call, after) :: calls) after

variable {start last : State} {calls : List (State × Call × State)}

/-- Where a call that starts with the invariant and has the property `P` leaves the
invariant, it holds at the end of a run all of whose calls have it. -/
theorem Trace.forall_of (Inv : State → Prop) {P Q : State → Call → State → Prop}
    (h : Trace step start calls last) (hstart : Inv start)
    (hcalls : ∀ e ∈ calls, P e.1 e.2.1 e.2.2)
    (hstep : ∀ before call after, Inv before → P before call after → step before call after →
      Q before call after ∧ Inv after) :
    (∀ e ∈ calls, Q e.1 e.2.1 e.2.2) ∧ Inv last := by
  induction h with
  | nil => exact ⟨by simp, hstart⟩
  | @snoc calls before after call _ hlast ih =>
      rw [List.forall_mem_cons] at hcalls
      obtain ⟨hrest, hinv⟩ := ih hcalls.2
      obtain ⟨hcall, hinv'⟩ := hstep before call after hinv hcalls.1 hlast
      exact ⟨List.forall_mem_cons.mpr ⟨hcall, hrest⟩, hinv'⟩

/-- A call goes well exactly when it is `Good` to make, and then the invariant
survives. -/
theorem Trace.forall_iff (Inv : State → Prop) {Well : State → Call → State → Prop}
    {Good : State → Call → Prop} (h : Trace step start calls last) (hstart : Inv start)
    (hstep : ∀ before call after, Inv before → step before call after →
      (Well before call after ↔ Good before call) ∧ (Good before call → Inv after)) :
    (∀ e ∈ calls, Well e.1 e.2.1 e.2.2) ↔ ∀ e ∈ calls, Good e.1 e.2.1 := by
  constructor
  · intro hwell
    refine (h.forall_of Inv (Q := fun before call _ => Good before call) hstart hwell ?_).1
    intro before call after hinv hcall hlast
    obtain ⟨hiff, hkeep⟩ := hstep before call after hinv hlast
    have hgood := hiff.mp hcall
    exact ⟨hgood, hkeep hgood⟩
  · intro hgood
    refine (h.forall_of Inv (P := fun before call _ => Good before call) (Q := Well) hstart hgood
      ?_).1
    intro before call after hinv hcall hlast
    obtain ⟨hiff, hkeep⟩ := hstep before call after hinv hlast
    exact ⟨hiff.mpr hcall, hkeep hcall⟩

/-- A map of states and calls that every step of the one system takes to a step of the
other takes its runs to runs of the other. -/
theorem Trace.map {State' Call' : Type*} {step' : State' → Call' → State' → Prop}
    (Inv : State → Prop) (f : State → State') (g : State → Call → Call')
    (h : Trace step start calls last) (hstart : Inv start)
    (hstep : ∀ before call after, Inv before → step before call after →
      Inv after ∧ step' (f before) (g before call) (f after)) :
    Inv last ∧
      Trace step' (f start) (calls.map fun e => (f e.1, g e.1 e.2.1, f e.2.2)) (f last) := by
  induction h with
  | nil => exact ⟨hstart, Trace.nil⟩
  | @snoc calls before after call _ hlast ih =>
      obtain ⟨hinv, hrun⟩ := ih
      obtain ⟨hinv', hstep'⟩ := hstep before call after hinv hlast
      exact ⟨hinv', Trace.snoc hrun hstep'⟩

end OperateSystem.Traces

import Mathlib.Data.List.Infix
import OperateSystem.Core.Invariant

/-!
# Runs with their instants

Some properties speak of the instants between the start and the end of a call, and
not only of the state at its end.  A path records the states it passes through.  The
two rules below are about a sweep: a call that inspects places one after another
while other calls change them behind it and ahead of it.
-/

namespace OperateSystem.Sweep

open OperateSystem.Invariant

variable {State : Type*} {Step : State → State → Prop}

/-- A run from `start` to its last state, with the states it passes through, latest
first. -/
inductive Path (Step : State → State → Prop) (start : State) : List State → State → Prop
  | refl : Path Step start [start] start
  | tail {visited : List State} {before after : State} (hpath : Path Step start visited before)
      (hstep : Step before after) : Path Step start (after :: visited) after

/-- `after` is the state right after `before` on the path. -/
def Consecutive (visited : List State) (before after : State) : Prop :=
  [after, before] <:+: visited

variable {start last : State} {visited : List State}

theorem Path.last_mem (h : Path Step start visited last) : last ∈ visited := by
  cases h with
  | refl => simp
  | tail hpath hstep => simp

theorem Path.consecutive_tail {before after : State} (h : Path Step start visited before) :
    Consecutive (after :: visited) before after := by
  cases h with
  | refl => exact List.infix_rfl
  | tail hpath hstep => exact ⟨[], _, rfl⟩

theorem Consecutive.cons {before after state : State} (h : Consecutive visited before after) :
    Consecutive (state :: visited) before after :=
  h.trans (List.suffix_cons _ _).isInfix

/-- An invariant of the start state that every step keeps holds in every state the path
passes through. -/
theorem Path.invariant (Inv : State → Prop) (h : Path Step start visited last)
    (hstart : Inv start) (hstep : ∀ before after, Inv before → Step before after → Inv after) :
    ∀ state ∈ visited, Inv state := by
  induction h with
  | refl => simpa using hstart
  | tail hpath hlast ih =>
      intro state hmem
      rcases List.mem_cons.mp hmem with rfl | hmem
      · exact hstep _ _ (ih _ hpath.last_mem) hlast
      · exact ih state hmem

/-- A path all of whose states satisfy `P`. -/
def Through (Step : State → State → Prop) (P : State → Prop) (start last : State) : Prop :=
  ∃ visited, Path Step start visited last ∧ ∀ state ∈ visited, P state

theorem Through.refl {P : State → Prop} (h : P start) : Through Step P start start :=
  ⟨[start], .refl, by simpa using h⟩

theorem Through.tail {P : State → Prop} {before after : State}
    (h : Through Step P start before) (hstep : Step before after) (hafter : P after) :
    Through Step P start after := by
  obtain ⟨visited, hpath, hall⟩ := h
  refine ⟨after :: visited, hpath.tail hstep, ?_⟩
  intro state hmem
  rcases List.mem_cons.mp hmem with rfl | hmem
  · exact hafter
  · exact hall state hmem

section Sweep

variable {Place : Type*} (inspected : State → Place → Prop)

/-- A place that has been inspected was found so at some instant. -/
theorem Path.exists_observed (observed : State → Place → Prop)
    (h : Path Step start visited last)
    (hstart : ∀ place, ¬ inspected start place)
    (hstep : ∀ before ∈ visited, ∀ after, Step before after → ∀ place, inspected after place →
      inspected before place ∨ observed before place) :
    ∀ place, inspected last place → ∃ state ∈ visited, observed state place := by
  induction h with
  | refl => exact fun place hplace => absurd hplace (hstart place)
  | @tail visited before after hpath hlast ih =>
      intro place hplace
      have hmem := List.mem_cons_of_mem after hpath.last_mem
      rcases hstep before hmem after hlast place hplace with hbefore | hnow
      · obtain ⟨state, hstate, hobserved⟩ := ih
          (fun before hmem => hstep before (List.mem_cons_of_mem _ hmem)) place hbefore
        exact ⟨state, List.mem_cons_of_mem _ hstate, hobserved⟩
      · exact ⟨before, hmem, hnow⟩

/-- Unless something disturbs a place that has been inspected, all inspected places
are clear at the same time. -/
theorem Path.clear_or_disturbed (clear : State → Place → Prop)
    (disturbs : State → State → Place → Prop) (h : Path Step start visited last)
    (hstart : ∀ place, ¬ inspected start place)
    (hstep : ∀ before ∈ visited, ∀ after, Step before after → ∀ place, inspected after place →
      (inspected before place → clear before place) →
        clear after place ∨ disturbs before after place) :
    (∀ place, inspected last place → clear last place) ∨
      ∃ before after place, Consecutive visited before after ∧ disturbs before after place := by
  induction h with
  | refl => exact Or.inl fun place hplace => absurd hplace (hstart place)
  | @tail visited before after hpath hlast ih =>
      rcases ih fun before hmem => hstep before (List.mem_cons_of_mem _ hmem) with hclear | hfound
      · by_cases hall : ∀ place, inspected after place → clear after place
        · exact Or.inl hall
        · push Not at hall
          obtain ⟨place, hinspected, hnot⟩ := hall
          have hnow := hstep before (List.mem_cons_of_mem _ hpath.last_mem) after hlast place
            hinspected (hclear place)
          exact Or.inr ⟨before, after, place, hpath.consecutive_tail, hnow.resolve_left hnot⟩
      · obtain ⟨u, u', place, hconsecutive, hdisturbs⟩ := hfound
        exact Or.inr ⟨u, u', place, hconsecutive.cons, hdisturbs⟩

end Sweep

end OperateSystem.Sweep

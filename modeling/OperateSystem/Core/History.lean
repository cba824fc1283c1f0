import Mathlib.Logic.Function.Basic

/-!
# Histories of a plain array

A store of blocks is used through reads and modifications.  Its history is legal when
every read returned the value of the latest modification of the block before it, or the
initial value of the block if there was none: what a plain array would have answered.
Histories are listed latest event first.
-/

namespace OperateSystem.History

variable {Block Data : Type*} [DecidableEq Block]

inductive Event (Block Data : Type*)
  | modify (block : Block) (value : Data)
  | read (block : Block) (value : Data)

/-- The contents of the plain array after the events. -/
def latest (initial : Block → Data) : List (Event Block Data) → Block → Data
  | [] => initial
  | .modify block value :: events => Function.update (latest initial events) block value
  | .read _ _ :: events => latest initial events

/-- Every read returned what the plain array held at that time. -/
def Legal (initial : Block → Data) : List (Event Block Data) → Prop
  | [] => True
  | .modify _ _ :: events => Legal initial events
  | .read block value :: events => value = latest initial events block ∧ Legal initial events

section Runs

variable {State : Type*} {Step : State → Option (Event Block Data) → State → Prop}

/-- A run from `start` with the events of its steps; most steps have none. -/
inductive Run (Step : State → Option (Event Block Data) → State → Prop) (start : State) :
    List (Event Block Data) → State → Prop
  | refl : Run Step start [] start
  | tail {events before event after} (hrun : Run Step start events before)
      (hstep : Step before event after) : Run Step start (event.toList ++ events) after

/-- A system refines the plain array if some relation between its states and the array
holds at the start, is kept by every step, and lets only the right value be read. -/
theorem Run.legal {initial : Block → Data} {start state : State}
    {events : List (Event Block Data)} (Inv : (Block → Data) → State → Prop)
    (hstart : Inv initial start)
    (hsilent : ∀ array before after, Inv array before → Step before none after → Inv array after)
    (hmodify : ∀ array before block value after, Inv array before →
      Step before (some (.modify block value)) after →
      Inv (Function.update array block value) after)
    (hread : ∀ array before block value after, Inv array before →
      Step before (some (.read block value)) after → value = array block ∧ Inv array after)
    (hrun : Run Step start events state) :
    Legal initial events ∧ Inv (latest initial events) state := by
  induction hrun with
  | refl => exact ⟨trivial, hstart⟩
  | @tail events before event after _ hstep ih =>
      obtain ⟨hlegal, hinv⟩ := ih
      cases event with
      | none => exact ⟨hlegal, hsilent _ _ _ hinv hstep⟩
      | some event =>
          cases event with
          | modify block value => exact ⟨hlegal, hmodify _ _ _ _ _ hinv hstep⟩
          | read block value =>
              obtain ⟨hvalue, hinv'⟩ := hread _ _ _ _ _ hinv hstep
              exact ⟨⟨hvalue, hlegal⟩, hinv'⟩

end Runs

end OperateSystem.History

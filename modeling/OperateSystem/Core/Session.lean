import Mathlib.Logic.Function.Basic
import OperateSystem.Core.Invariant

/-!
# Programs that make calls

A program is a tree of calls; the answer to a call decides how it goes on.  A contract says
which calls a caller may make with what it has, which answers it can get, and what it has
after them.  A program that meets its contract for every answer meets it beside any number
of other programs, since they reach it through its answers only.
-/

namespace OperateSystem.Session

open OperateSystem.Invariant

/-- A program: it ends with a value, or makes a call. -/
inductive Prog (Call : Type) (Answer : Call → Type) (α : Type)
  | ret (a : α)
  | call (c : Call) (next : Answer c → Prog Call Answer α)

section Prog

variable {Call : Type} {Answer : Call → Type} {α β γ : Type}

namespace Prog

/-- The rest of a program begins with the value of the first part. -/
def bind : Prog Call Answer α → (α → Prog Call Answer β) → Prog Call Answer β
  | .ret a, f => f a
  | .call c next, f => .call c fun answer => (next answer).bind f

instance : Monad (Prog Call Answer) where
  pure := .ret
  bind := bind

/-- A single call. -/
def perform (c : Call) : Prog Call Answer (Answer c) := .call c .ret

@[simp]
theorem pure_eq (a : α) : (pure a : Prog Call Answer α) = .ret a := rfl

@[simp]
theorem ret_bind (a : α) (f : α → Prog Call Answer β) : (Prog.ret a >>= f) = f a := rfl

@[simp]
theorem call_bind (c : Call) (next : Answer c → Prog Call Answer α) (f : α → Prog Call Answer β) :
    (Prog.call c next >>= f) = .call c fun answer => next answer >>= f := rfl

@[simp]
theorem perform_bind (c : Call) (f : Answer c → Prog Call Answer β) :
    (perform c >>= f) = .call c f := rfl

theorem bind_assoc (x : Prog Call Answer α) (f : α → Prog Call Answer β)
    (g : β → Prog Call Answer γ) : (x >>= f) >>= g = x >>= fun a => f a >>= g := by
  induction x with
  | ret a => rfl
  | call c next ih =>
      rw [call_bind, call_bind, call_bind]
      exact congrArg (Prog.call c) (funext ih)

end Prog

/-- What calls mean to their caller: which calls it may make, the answers that can come, and
what it has then. -/
structure Contract (Call : Type) (Answer : Call → Type) (Own : Type) where
  permits : Own → Call → Prop
  legal : Own → (c : Call) → Answer c → Prop
  after : Own → (c : Call) → Answer c → Own

variable {Own : Type} {C : Contract Call Answer Own} {own : Own}

/-- Every call is permitted, and the program ends with `post`, whatever the answers are. -/
def Prog.Meets (C : Contract Call Answer Own) (post : α → Own → Prop) :
    Prog Call Answer α → Own → Prop
  | .ret a, own => post a own
  | .call c next, own =>
      C.permits own c ∧ ∀ answer, C.legal own c answer →
        (next answer).Meets C post (C.after own c answer)

variable {post post' : α → Own → Prop}

theorem Prog.meets_ret {a : α} : (Prog.ret a : Prog Call Answer α).Meets C post own ↔ post a own :=
  Iff.rfl

theorem Prog.meets_call {c : Call} {next : Answer c → Prog Call Answer α} :
    (Prog.call c next).Meets C post own ↔ C.permits own c ∧ ∀ answer, C.legal own c answer →
      (next answer).Meets C post (C.after own c answer) := Iff.rfl

theorem Prog.Meets.mono {x : Prog Call Answer α} (h : x.Meets C post own)
    (hpost : ∀ a own, post a own → post' a own) : x.Meets C post' own := by
  induction x generalizing own with
  | ret a => exact hpost a own h
  | call c next ih => exact ⟨h.1, fun answer hlegal => ih answer (h.2 answer hlegal)⟩

/-- A program in two parts. -/
theorem Prog.meets_bind {x : Prog Call Answer α} {f : α → Prog Call Answer β}
    {post : β → Own → Prop} :
    (x >>= f).Meets C post own ↔ x.Meets C (fun a own' => (f a).Meets C post own') own := by
  induction x generalizing own with
  | ret a => exact Iff.rfl
  | call c next ih =>
      rw [Prog.call_bind, meets_call, meets_call]
      exact and_congr_right fun _ => forall_congr' fun answer => imp_congr_right fun _ =>
        ih answer

/-- A contract with a log of the calls and of their answers, latest first. -/
def Contract.logged (C : Contract Call Answer Own) :
    Contract Call Answer (Own × List ((c : Call) × Answer c)) where
  permits s := C.permits s.1
  legal s := C.legal s.1
  after s c answer := (C.after s.1 c answer, ⟨c, answer⟩ :: s.2)

/-- A log says that a call has been answered so. -/
def Logged (log : List ((c : Call) × Answer c)) (c : Call) (answer : Answer c) : Prop :=
  ⟨c, answer⟩ ∈ log

variable {log : List ((c : Call) × Answer c)}
  {logPost : α → Own × List ((c : Call) × Answer c) → Prop}

theorem logged_self {c : Call} {answer : Answer c} : Logged (⟨c, answer⟩ :: log) c answer :=
  List.mem_cons_self

/-- A log that grows says what it said. -/
theorem Logged.suffix {log' : List ((c : Call) × Answer c)} {c : Call} {answer : Answer c}
    (h : Logged log c answer) (hlog : log <:+ log') : Logged log' c answer := hlog.mem h

theorem Logged.cons {c d : Call} {answer : Answer c} {e : Answer d} (h : Logged log c answer) :
    Logged (⟨d, e⟩ :: log) c answer := List.mem_cons_of_mem _ h

/-- A program does with a log what it does without, and adds to the log only. -/
theorem Prog.Meets.logged {x : Prog Call Answer α} (h : x.Meets C post own)
    (hpost : ∀ a own' log', post a own' → log <:+ log' → logPost a (own', log')) :
    x.Meets C.logged logPost (own, log) := by
  induction x generalizing own log with
  | ret a => exact hpost a own log h List.suffix_rfl
  | call c next ih =>
      refine ⟨h.1, fun answer hlegal => ih answer (h.2 answer hlegal) ?_⟩
      intro a own' log' ha hlog
      exact hpost a own' log' ha ((List.suffix_cons _ log).trans hlog)

/-- A program does without a log what it does with one. -/
theorem Prog.Meets.of_logged {x : Prog Call Answer α} (h : x.Meets C.logged logPost (own, log))
    (hpost : ∀ a own' log', logPost a (own', log') → post a own') : x.Meets C post own := by
  induction x generalizing own log with
  | ret a => exact hpost a own log h
  | call c next ih => exact ⟨h.1, fun answer hlegal => ih answer (h.2 answer hlegal)⟩

/-- A loop over a list keeps what each round keeps. -/
theorem Prog.meets_forM {xs : List β} {f : β → Prog Call Answer Unit} (I : List β → Own → Prop)
    {post : Unit → Own → Prop} (hstart : I [] own)
    (hround : ∀ before x after own', xs = before ++ x :: after → I before own' →
      (f x).Meets C (fun _ own'' => I (before ++ [x]) own'') own')
    (hend : ∀ own', I xs own' → post () own') : (xs.forM f).Meets C post own := by
  have hloop : ∀ after before own', xs = before ++ after → I before own' →
      (after.forM f).Meets C post own' := by
    intro after
    induction after with
    | nil =>
        intro before own' heq hbefore
        rw [List.append_nil] at heq
        subst heq
        exact hend own' hbefore
    | cons x after ih =>
        intro before own' heq hbefore
        refine meets_bind.mpr ((hround before x after own' heq hbefore).mono ?_)
        intro _ own'' hround'
        exact ih (before ++ [x]) own'' (by rw [heq, List.append_assoc]; rfl) hround'
  exact hloop xs [] own rfl hstart

end Prog

/-- Several processes, each with what it has, and the rest of the program it is in. -/
structure World (Shared : Type) (Index : Type) (Own : Type) (Call : Type) (Answer : Call → Type)
    where
  shared : Shared
  own : Index → Own
  running : Index → Option (Prog Call Answer Unit)

/-- What is left to run. -/
def Prog.rest {Call : Type} {Answer : Call → Type} :
    Prog Call Answer Unit → Option (Prog Call Answer Unit)
  | .ret _ => none
  | .call c next => some (.call c next)

section World

variable {Shared Index Own Call : Type} {Answer : Call → Type} [DecidableEq Index]

/-- A process enters a program, or the environment answers one of its calls. -/
inductive World.Step (Enters : Own → Prog Call Answer Unit → Prop)
    (Answers : Shared → (Index → Own) → Index → (c : Call) → Answer c → Shared → (Index → Own) →
      Prop) :
    World Shared Index Own Call Answer → World Shared Index Own Call Answer → Prop
  | enter {w : World Shared Index Own Call Answer} {i : Index} {p : Prog Call Answer Unit}
      (hidle : w.running i = none) (henter : Enters (w.own i) p) :
      Step Enters Answers w { w with running := Function.update w.running i p.rest }
  | call {w : World Shared Index Own Call Answer} {i : Index} {c : Call}
      {next : Answer c → Prog Call Answer Unit} {answer : Answer c} {shared : Shared}
      {own : Index → Own} (hrunning : w.running i = some (.call c next))
      (hanswer : Answers w.shared w.own i c answer shared own) :
      Step Enters Answers w ⟨shared, own, Function.update w.running i (next answer).rest⟩

/-- The invariant holds, the processes outside of programs rest, and the others are on the way
to rest. -/
structure World.Orderly (C : Contract Call Answer Own) (Inv : Shared → (Index → Own) → Prop)
    (Rests : Own → Prop) (w : World Shared Index Own Call Answer) : Prop where
  inv : Inv w.shared w.own
  outside : ∀ i, w.running i = none → Rests (w.own i)
  inside : ∀ i p, w.running i = some p → p.Meets C (fun _ own => Rests own) (w.own i)

variable {C : Contract Call Answer Own} {Inv : Shared → (Index → Own) → Prop} {Rests : Own → Prop}
  {Enters : Own → Prog Call Answer Unit → Prop}
  {Answers : Shared → (Index → Own) → Index → (c : Call) → Answer c → Shared → (Index → Own) → Prop}

/-- What a process is left to do takes it to rest. -/
theorem Prog.Meets.rest {p : Prog Call Answer Unit} {own : Own}
    (h : p.Meets C (fun _ own => Rests own) own) :
    (p.rest = none → Rests own) ∧
      ∀ q, p.rest = some q → q.Meets C (fun _ own => Rests own) own := by
  cases p with
  | ret a => exact ⟨fun _ => h, nofun⟩
  | call c next =>
      refine ⟨nofun, ?_⟩
      rintro q hq
      cases hq
      exact h

/-- Programs that meet their contracts keep a world orderly, when every answer to a call that is
permitted is legal, keeps the invariant and leaves the other processes as they are, or at rest
if they may not make calls. -/
theorem World.Orderly.step {w w' : World Shared Index Own Call Answer} (h : w.Orderly C Inv Rests)
    (henters : ∀ own p, Rests own → Enters own p → p.Meets C (fun _ own => Rests own) own)
    (hanswers : ∀ shared own i c answer shared' own', Inv shared own → C.permits (own i) c →
      Answers shared own i c answer shared' own' →
      C.legal (own i) c answer ∧ own' i = C.after (own i) c answer ∧ Inv shared' own' ∧
        ∀ j, j ≠ i → own' j = own j ∨ Rests (own' j) ∧ ∀ c, ¬ C.permits (own j) c)
    (hstep : World.Step Enters Answers w w') : w'.Orderly C Inv Rests := by
  cases hstep with
  | @enter i p hidle henter =>
      have hmeets := (henters _ p (h.outside i hidle) henter).rest
      refine ⟨h.inv, fun j hj => ?_, fun j q hj => ?_⟩
      · dsimp only at hj ⊢
        by_cases heq : j = i
        · subst heq
          exact h.outside j hidle
        · rw [Function.update_of_ne heq] at hj
          exact h.outside j hj
      · dsimp only at hj ⊢
        by_cases heq : j = i
        · subst heq
          rw [Function.update_self] at hj
          exact hmeets.2 q hj
        · rw [Function.update_of_ne heq] at hj
          exact h.inside j q hj
  | @call i c next answer shared own hrunning hanswer =>
      obtain ⟨hpermits, hnext⟩ := h.inside i _ hrunning
      obtain ⟨hlegal, hown, hinv, hothers⟩ :=
        hanswers _ _ _ _ _ _ _ h.inv hpermits hanswer
      have hmeets := (hnext answer hlegal).rest
      rw [← hown] at hmeets
      refine ⟨hinv, fun j hj => ?_, fun j q hj => ?_⟩
      · dsimp only at hj ⊢
        by_cases heq : j = i
        · subst heq
          rw [Function.update_self] at hj
          exact hmeets.1 hj
        · rw [Function.update_of_ne heq] at hj
          rcases hothers j heq with hsame | ⟨hrests, -⟩
          · rw [hsame]
            exact h.outside j hj
          · exact hrests
      · dsimp only at hj ⊢
        by_cases heq : j = i
        · subst heq
          rw [Function.update_self] at hj
          exact hmeets.2 q hj
        · rw [Function.update_of_ne heq] at hj
          have hold := h.inside j q hj
          rcases hothers j heq with hsame | ⟨hrests, hnone⟩
          · rw [hsame]
            exact hold
          · cases q with
            | ret a => exact hrests
            | call c next => exact absurd hold.1 (hnone c)

/-- Every reachable world is orderly. -/
theorem reachable_orderly {w₀ w : World Shared Index Own Call Answer}
    (hstart : w₀.Orderly C Inv Rests)
    (henters : ∀ own p, Rests own → Enters own p → p.Meets C (fun _ own => Rests own) own)
    (hanswers : ∀ shared own i c answer shared' own', Inv shared own → C.permits (own i) c →
      Answers shared own i c answer shared' own' →
      C.legal (own i) c answer ∧ own' i = C.after (own i) c answer ∧ Inv shared' own' ∧
        ∀ j, j ≠ i → own' j = own j ∨ Rests (own' j) ∧ ∀ c, ¬ C.permits (own j) c)
    (hrun : Reachable (World.Step Enters Answers) w₀ w) : w.Orderly C Inv Rests :=
  reachable_invariant (World.Orderly C Inv Rests) hstart
    (fun _ _ h hstep => h.step henters hanswers hstep) hrun

end World

end OperateSystem.Session

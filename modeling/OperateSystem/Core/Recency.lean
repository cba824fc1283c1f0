import Mathlib.Algebra.Order.Monoid.Unbundled.WithTop
import OperateSystem.Core.Trace

/-!
# Lists in order of recency

Resources stand in a list; some are free, and each has a time at which it was released
last, or `⊥` when it never was.  The list is in order of recency when the free ones
appear with the latest released first.  A resource that is taken may stay where it is,
and one that is released has to move to the front.
-/

namespace OperateSystem.Recency

open OperateSystem.Traces

section Lists

variable {α τ : Type*} [Preorder τ] [OrderBot τ] {free free' : α → Bool}
  {released released' : α → τ} {l l' : List α} {a : α}

/-- The free resources appear in decreasing order of the time of their release, and those
that were never released come last. -/
def Recent (free : α → Bool) (released : α → τ) (l : List α) : Prop :=
  (l.filter free).Pairwise fun near far => released far = ⊥ ∨ released far < released near

theorem recent_iff : Recent free released l ↔ l.Pairwise fun near far =>
    free near → free far → released far = ⊥ ∨ released far < released near :=
  List.pairwise_filter

/-- Resources that are taken or disappear do not disturb the order of the others. -/
theorem Recent.restrict (h : Recent free released l) (hsub : l'.Sublist l)
    (hfree : ∀ x ∈ l', free' x → free x ∧ released' x = released x) :
    Recent free' released' l' := by
  rw [recent_iff] at h ⊢
  refine (h.sublist hsub).imp_of_mem ?_
  intro near far hnear hfar hold hnearFree hfarFree
  obtain ⟨hnear', hnearTime⟩ := hfree near hnear hnearFree
  obtain ⟨hfar', hfarTime⟩ := hfree far hfar hfarFree
  rw [hnearTime, hfarTime]
  exact hold hnear' hfar'

/-- A resource in use may stand anywhere, so also in front. -/
theorem Recent.cons_used (h : Recent free released l) (hused : free a = false) :
    Recent free released (a :: l) := by
  rwa [Recent, List.filter_cons_of_neg (by simp [hused])]

/-- The latest released resource belongs in front. -/
theorem Recent.cons_latest (h : Recent free released l)
    (hlatest : ∀ x ∈ l, released x < released a) : Recent free released (a :: l) := by
  rw [recent_iff] at h ⊢
  refine List.pairwise_cons.mpr ⟨fun far hfar _ _ => Or.inr (hlatest far hfar), h⟩

/-- The last free resource of the list is one that was released least recently. -/
theorem Recent.oldest (h : Recent free released l) (hfind : l.reverse.find? free = some a) :
    ∀ x ∈ l, free x → released a ≤ released x := by
  obtain ⟨hfree, after, before, hsplit, hused⟩ := List.find?_eq_some_iff_append.mp hfind
  have hl : l = before.reverse ++ a :: after.reverse := by
    rw [← List.reverse_reverse l, hsplit]
    simp
  rw [recent_iff, hl, List.pairwise_append] at h
  intro x hx hxfree
  rw [hl, List.mem_append, List.mem_cons, List.mem_reverse, List.mem_reverse] at hx
  rcases hx with hbefore | rfl | hafter
  · rcases h.2.2 x (List.mem_reverse.mpr hbefore) a List.mem_cons_self hxfree hfree with
      hnever | hlt
    · rw [hnever]
      exact bot_le
    · exact hlt.le
  · exact le_rfl
  · have hcontra := hused x hafter
    rw [hxfree] at hcontra
    cases hcontra

end Lists

section Times

variable {State Call : Type*} {P : State → State → Prop}
  [∀ before after, Decidable (P before after)]

/-- The time of the latest entry of a trace that `P` says is a release, or `⊥` when there
is none.  The time of an entry is the number of entries before it. -/
def lastTime (P : State → State → Prop) [∀ before after, Decidable (P before after)] :
    List (State × Call × State) → WithBot ℕ
  | [] => ⊥
  | (before, _, after) :: calls => if P before after then (calls.length : ℕ) else lastTime P calls

theorem lastTime_lt (calls : List (State × Call × State)) :
    lastTime P calls < (calls.length : ℕ) := by
  induction calls with
  | nil => exact WithBot.bot_lt_coe _
  | cons call calls ih =>
      have hlength : ((calls.length : ℕ) : WithBot ℕ) < ((call :: calls).length : ℕ) :=
        WithBot.coe_lt_coe.mpr (Nat.lt_succ_self _)
      rw [lastTime]
      split
      · exact hlength
      · exact ih.trans hlength

end Times

end OperateSystem.Recency

import OperateSystem.Core.WaitGraph
import OperateSystem.Bio.Identity

/-!
# The bucket locks do not deadlock

`bget` takes the lock of a second bucket while it holds that of its home bucket,
after a read of `lock[findCount].locked` that may be out of date when it comes to
the `acquire`.  No order of the buckets is kept.  What excludes a cycle is that a
process which begins to wait for a second lock has seen it free, so nobody it waits
for was waiting when it took that lock.
-/

namespace OperateSystem.Bio

open OperateSystem.Invariant
open OperateSystem.Ring
open OperateSystem.WaitGraph

variable {nbuf : ℕ} {Tid : Type*} [DecidableEq Tid]

/-- The bucket lock that a process is spinning for in `acquire`. -/
def Pc.spinsOn : Pc nbuf → Option (Fin nbuckets)
  | .bgetAcquire _ blockno => some (bucketOf blockno)
  | .stealAcquire _ _ findCount => some findCount
  | .brelseAcquire _ currentCount | .bpinAcquire _ currentCount
  | .bunpinAcquire _ currentCount => some currentCount
  | _ => none

/-- Process `t` is spinning for a bucket lock that `t'` holds. -/
def State.Waits (s : State nbuf Tid) (t t' : Tid) : Prop :=
  ∃ k, (s.pc t).spinsOn = some k ∧ s.lock k = some t'

/-- What a step does to the locks: nothing, and then a process that begins to spin
holds no lock or has seen the other one free; or it takes a free lock; or it
releases one. -/
inductive LockStep (s s' : State nbuf Tid) (t : Tid) (pc : Pc nbuf) : Prop
  | keep (hlock : s'.lock = s.lock) (hholds : ∀ k, (s.pc t).holds k → pc.holds k)
      (hspins : ∀ k, pc.spinsOn = some k → (∀ j, ¬ pc.holds j) ∨ s.lock k = none)
  | acquire (k : Fin nbuckets) (hlock : s'.lock = Function.update s.lock k (some t))
      (hholds : ∀ j, (s.pc t).holds j ∨ j = k → pc.holds j) (hspins : pc.spinsOn = none)
  | release (k : Fin nbuckets) (hlock : s'.lock = Function.update s.lock k none)
      (hholds : ∀ j, (s.pc t).holds j → j ≠ k → pc.holds j) (hspins : pc.spinsOn = none)

section Steps

variable {s s' : State nbuf Tid}

theorem Step.lockStep (hstep : Step s s') :
    ∃ t pc, s'.pc = Function.update s.pc t pc ∧ LockStep s s' t pc := by
  cases hstep with
  | bgetCall dev blockno hpc hdev =>
      exact ⟨_, _, rfl, .keep rfl (by simp [hpc, Pc.holds]) fun k _ => Or.inl (by simp [Pc.holds])⟩
  | bgetAcquire hpc hfree =>
      exact ⟨_, _, rfl, .acquire _ rfl (by simp [hpc, Pc.holds]) rfl⟩
  | bgetFound hpc hbody =>
      exact ⟨_, _, rfl, .keep rfl (by simp [hpc, Pc.holds]) (by simp [Pc.spinsOn])⟩
  | bgetMiss hpc hbody =>
      exact ⟨_, _, rfl, .keep rfl (by simp [hpc, Pc.holds]) (by simp [Pc.spinsOn])⟩
  | stealEnd hpc hend =>
      exact ⟨_, _, rfl, .keep rfl (by simp [hpc, Pc.holds]) (by simp [Pc.spinsOn])⟩
  | stealSkip hpc hgo hlocked =>
      exact ⟨_, _, rfl, .keep rfl (by simp [hpc, Pc.holds]) (by simp [Pc.spinsOn])⟩
  | stealTry hpc hgo hfree =>
      refine ⟨_, _, rfl, .keep rfl (by simp [hpc, Pc.holds]) ?_⟩
      rintro k heq
      obtain rfl := Option.some.inj heq
      exact Or.inr hfree
  | stealAcquire hpc hfree =>
      exact ⟨_, _, rfl, .acquire _ rfl (by simp [hpc, Pc.holds]) rfl⟩
  | stealFound hpc hbody =>
      exact ⟨_, _, rfl, .keep rfl (by simp [hpc, Pc.holds]) (by simp [Pc.spinsOn])⟩
  | stealMiss hpc hbody =>
      exact ⟨_, _, rfl, .keep rfl (by simp [hpc, Pc.holds]) (by simp [Pc.spinsOn])⟩
  | stealNext hpc =>
      refine ⟨_, _, rfl, .release _ rfl ?_ rfl⟩
      simp only [hpc, Pc.holds]
      tauto
  | stolen hpc =>
      refine ⟨_, _, rfl, .release _ rfl ?_ rfl⟩
      simp only [hpc, Pc.holds]
      tauto
  | bgetRelease hpc => exact ⟨_, _, rfl, .release _ rfl (by simp [hpc, Pc.holds]) rfl⟩
  | bgetSleep hpc hfree =>
      exact ⟨_, _, rfl, .keep rfl (by simp [hpc, Pc.holds]) (by simp [Pc.spinsOn])⟩
  | bgetFail hpc => exact ⟨_, _, rfl, .release _ rfl (by simp [hpc, Pc.holds]) rfl⟩
  | brelseCall hpc hholding =>
      exact ⟨_, _, rfl, .keep rfl (by simp [hpc, Pc.holds]) fun k _ => Or.inl (by simp [Pc.holds])⟩
  | brelseAcquire hpc hfree =>
      exact ⟨_, _, rfl, .acquire _ rfl (by simp [hpc, Pc.holds]) rfl⟩
  | brelseBody hpc =>
      exact ⟨_, _, rfl, .keep rfl (by simp [hpc, Pc.holds]) (by simp [Pc.spinsOn])⟩
  | bpinCall b hpc =>
      exact ⟨_, _, rfl, .keep rfl (by simp [hpc, Pc.holds]) fun k _ => Or.inl (by simp [Pc.holds])⟩
  | bpinAcquire hpc hfree =>
      exact ⟨_, _, rfl, .acquire _ rfl (by simp [hpc, Pc.holds]) rfl⟩
  | bpinBody hpc =>
      exact ⟨_, _, rfl, .keep rfl (by simp [hpc, Pc.holds]) (by simp [Pc.spinsOn])⟩
  | bunpinCall hpc hpin =>
      exact ⟨_, _, rfl, .keep rfl (by simp [hpc, Pc.holds]) fun k _ => Or.inl (by simp [Pc.holds])⟩
  | bunpinAcquire hpc hfree =>
      exact ⟨_, _, rfl, .acquire _ rfl (by simp [hpc, Pc.holds]) rfl⟩
  | bunpinBody hpc =>
      exact ⟨_, _, rfl, .keep rfl (by simp [hpc, Pc.holds]) (by simp [Pc.spinsOn])⟩
  | release hpc => exact ⟨_, _, rfl, .release _ rfl (by simp [hpc, Pc.holds]) rfl⟩

/-- A lock is only ever held by a process that stands inside its lock region. -/
def HeldInside (s : State nbuf Tid) : Prop := ∀ t k, s.lock k = some t → (s.pc t).holds k

theorem HeldInside.step (h : HeldInside s) (hstep : Step s s') : HeldInside s' := by
  obtain ⟨t, pc, hpc, hlocks⟩ := hstep.lockStep
  intro t' k hheld
  rw [hpc]
  cases hlocks with
  | keep hlock hholds hspins =>
      rw [hlock] at hheld
      by_cases ht : t' = t
      · subst ht
        rw [Function.update_self]
        exact hholds k (h t' k hheld)
      · rw [Function.update_of_ne ht]
        exact h t' k hheld
  | acquire j hlock hholds hspins =>
      rw [hlock, Function.update_apply] at hheld
      split at hheld
      · rename_i heq
        obtain rfl := Option.some.inj hheld
        rw [Function.update_self]
        exact hholds k (Or.inr heq)
      · by_cases ht : t' = t
        · subst ht
          rw [Function.update_self]
          exact hholds k (Or.inl (h t' k hheld))
        · rw [Function.update_of_ne ht]
          exact h t' k hheld
  | release j hlock hholds hspins =>
      rw [hlock, Function.update_apply] at hheld
      split at hheld
      · cases hheld
      · rename_i hne
        by_cases ht : t' = t
        · subst ht
          rw [Function.update_self]
          exact hholds k (h t' k hheld) hne
        · rw [Function.update_of_ne ht]
          exact h t' k hheld

theorem reachable_heldInside {garbage : Links (Node nbuf)}
    (hreach : Reachable Step (State.boot (binit garbage)) s) : HeldInside s :=
  reachable_invariant HeldInside (by simp [HeldInside]) (fun _ _ hheld hstep => hheld.step hstep)
    hreach

/-- A step adds only edges to a process that does not wait, or from one that holds
no lock. -/
theorem Waits.step (h : HeldInside s) (hstep : Step s s') {a b : Tid} (hwaits : s'.Waits a b) :
    s.Waits a b ∨ (∀ c, ¬ s'.Waits b c) ∨ ∀ c, ¬ s'.Waits c a := by
  have hheld' := h.step hstep
  obtain ⟨t, pc, hpc, hlocks⟩ := hstep.lockStep
  obtain ⟨k, hspin, hlock'⟩ := hwaits
  -- A process other than `t` stands where it stood before.
  have hother : a ≠ t → s.lock k = some b → s.Waits a b := by
    intro ht hlock
    rw [hpc, Function.update_of_ne ht] at hspin
    exact ⟨k, hspin, hlock⟩
  cases hlocks with
  | keep hlock hholds hspins =>
      rw [hlock] at hlock'
      by_cases ht : a = t
      · subst ht
        rw [hpc, Function.update_self] at hspin
        rcases hspins k hspin with hnone | hfree
        · refine Or.inr (Or.inr ?_)
          rintro c ⟨j, -, hj⟩
          have hin := hheld' a j hj
          rw [hpc, Function.update_self] at hin
          exact hnone j hin
        · rw [hfree] at hlock'
          cases hlock'
      · exact Or.inl (hother ht hlock')
  | acquire j hlock hholds hspins =>
      have ht : a ≠ t := by
        rintro rfl
        rw [hpc, Function.update_self, hspins] at hspin
        cases hspin
      rw [hlock, Function.update_apply] at hlock'
      split at hlock'
      · obtain rfl := Option.some.inj hlock'
        refine Or.inr (Or.inl ?_)
        rintro c ⟨i, hi, -⟩
        rw [hpc, Function.update_self, hspins] at hi
        cases hi
      · exact Or.inl (hother ht hlock')
  | release j hlock hholds hspins =>
      have ht : a ≠ t := by
        rintro rfl
        rw [hpc, Function.update_self, hspins] at hspin
        cases hspin
      rw [hlock, Function.update_apply] at hlock'
      split at hlock'
      · cases hlock'
      · exact Or.inl (hother ht hlock')

/-- **The bucket locks do not deadlock.**  In every reachable state there is no
cycle of processes, of any length, each spinning for a bucket lock that the next one
holds; in particular nobody spins for a lock of its own. -/
theorem bucket_locks_acyclic {garbage : Links (Node nbuf)}
    (hreach : Reachable Step (State.boot (binit garbage)) s) :
    Acyclic s.Waits ∧ ∀ t k, (s.pc t).spinsOn = some k → s.lock k ≠ some t := by
  have hinv : HeldInside s ∧ Acyclic s.Waits := by
    refine reachable_invariant (fun s : State nbuf Tid => HeldInside s ∧ Acyclic s.Waits) ?_ ?_
      hreach
    · refine ⟨by simp [HeldInside], ?_⟩
      intro t hcycle
      obtain ⟨t', ⟨k, hspin, -⟩, -⟩ := Relation.TransGen.head'_iff.mp hcycle
      simp [Pc.spinsOn] at hspin
    · rintro before after ⟨hheld, hacyclic⟩ hstep
      exact ⟨hheld.step hstep, hacyclic.grow fun a b hwaits => Waits.step hheld hstep hwaits⟩
  refine ⟨hinv.2, ?_⟩
  intro t k hspin hheld
  exact hinv.2 t (.single ⟨k, hspin, hheld⟩)

/-- Two processes look for the same block and one of them waits for the other. -/
theorem bucket_locks_acyclic_bget : ∃ s : State 30 (Fin 2),
    Reachable Step (State.boot (binit ⟨id, id⟩)) s ∧ s.Waits 1 0 ∧ Acyclic s.Waits := by
  have hreach := Relation.ReflTransGen.refl (r := Step)
    (a := (State.boot (binit ⟨id, id⟩) : State 30 (Fin 2)))
  replace hreach := hreach.tail (.bgetCall (t := 0) 1 7 rfl (by decide))
  replace hreach := hreach.tail (.bgetCall (t := 1) 1 7 rfl (by decide))
  replace hreach := hreach.tail (.bgetAcquire (t := 0) rfl rfl)
  exact ⟨_, hreach, ⟨bucketOf 7, rfl, rfl⟩, (bucket_locks_acyclic hreach).1⟩

end Steps

end OperateSystem.Bio

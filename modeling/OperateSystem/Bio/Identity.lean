import Mathlib.Algebra.BigOperators.Group.Finset.Basic
import Mathlib.Data.Fintype.BigOperators
import Mathlib.Tactic.FinCases
import Mathlib.Algebra.Order.BigOperators.Group.Finset
import OperateSystem.Core.Invariant
import OperateSystem.Bio.Rings
import OperateSystem.Bio.Interleaving

/-!
# Buffer identity

The invariant of the buffer cache under any interleaving: the rings are well
formed and hold every buffer once, a buffer that has been assigned a block is
on the ring of that block, no block has two buffers, and the reference count
of a buffer is the number of references the processes have on it.

The argument for uniqueness is that a block is only ever assigned by a process
that holds the lock of its home bucket without interruption since it looked for
the block there.
-/

namespace OperateSystem.Bio

open OperateSystem.Invariant
open OperateSystem.Ring

variable {nbuf : ℕ} {Tid : Type*} [DecidableEq Tid]

/-! ## Bodies of lock regions over well-formed rings -/

section Bodies

variable {c c' : Cache nbuf} {ring : Fin nbuckets → List (Fin nbuf)}

/-- What the home-bucket part of `bget` can do. -/
theorem bgetHome_cases (h : Rings c.links ring) {dev blockno : ℕ}
    {result : Option (Fin nbuf)} (hbody : c.bgetHome dev blockno = some (result, c')) :
    (∃ b ∈ ring (bucketOf blockno), c.dev b = dev ∧ c.blockno b = blockno ∧
      result = some b ∧ c' = c.incr b) ∨
    ((∀ b ∈ ring (bucketOf blockno), ¬ (c.dev b = dev ∧ c.blockno b = blockno)) ∧
      ((∃ b ∈ ring (bucketOf blockno), c.refcnt b = 0 ∧ result = some b ∧
        c' = c.assign b dev blockno) ∨
      (result = none ∧ c' = c))) := by
  simp only [Cache.bgetHome, h.scanNext, h.scanPrev] at hbody
  cases hhit : (ring (bucketOf blockno)).find? (c.hits dev blockno) with
  | some b =>
      simp only [hhit, Option.some.injEq, Prod.mk.injEq] at hbody
      obtain ⟨rfl, rfl⟩ := hbody
      have htest := List.find?_some hhit
      simp only [Cache.hits, Bool.and_eq_true, decide_eq_true_eq] at htest
      exact Or.inl ⟨b, List.mem_of_find?_eq_some hhit, htest.1, htest.2, rfl, rfl⟩
  | none =>
      refine Or.inr ⟨fun b hb => ?_, ?_⟩
      · have hmiss := List.find?_eq_none.mp hhit b hb
        simpa [Cache.hits] using hmiss
      · simp only [hhit] at hbody
        cases hfree : (ring (bucketOf blockno)).reverse.find? c.isFree with
        | some b =>
            simp only [hfree, Option.some.injEq, Prod.mk.injEq] at hbody
            obtain ⟨rfl, rfl⟩ := hbody
            have htest := List.find?_some hfree
            simp only [Cache.isFree, decide_eq_true_eq] at htest
            refine Or.inl ⟨b, ?_, htest, rfl, rfl⟩
            simpa using List.mem_of_find?_eq_some hfree
        | none =>
            simp only [hfree, Option.some.injEq, Prod.mk.injEq] at hbody
            exact Or.inr ⟨hbody.1.symm, hbody.2.symm⟩

/-- What one round of the stealing loop can do. -/
theorem bgetSteal_cases (h : Rings c.links ring) {dev blockno : ℕ}
    {findCount : Fin nbuckets} {result : Option (Fin nbuf)}
    (hbody : c.bgetSteal dev blockno findCount = some (result, c')) :
    (∃ b ∈ ring findCount, c.refcnt b = 0 ∧ result = some b ∧
      c' = (c.moveToFront b (bucketOf blockno)).assign b dev blockno) ∨
    (result = none ∧ c' = c) := by
  simp only [Cache.bgetSteal, h.scanPrev] at hbody
  cases hfree : (ring findCount).reverse.find? c.isFree with
  | some b =>
      simp only [hfree, Option.some.injEq, Prod.mk.injEq] at hbody
      obtain ⟨rfl, rfl⟩ := hbody
      have htest := List.find?_some hfree
      simp only [Cache.isFree, decide_eq_true_eq] at htest
      refine Or.inl ⟨b, ?_, htest, rfl, rfl⟩
      simpa using List.mem_of_find?_eq_some hfree
  | none =>
      simp only [hfree, Option.some.injEq, Prod.mk.injEq] at hbody
      exact Or.inr ⟨hbody.1.symm, hbody.2.symm⟩

@[simp]
theorem Cache.brelse_refcnt (c : Cache nbuf) (b : Fin nbuf) (currentCount : Fin nbuckets) :
    (c.brelse b currentCount).refcnt = Function.update c.refcnt b (c.refcnt b - 1) := by
  simp only [Cache.brelse]
  split <;> rfl

end Bodies

/-! ## Locks -/

/-- The two locks of a stealing process are different. -/
def Pc.apart : Pc nbuf → Prop
  | .stealBody _ blockno findCount | .stealNext _ blockno findCount =>
      bucketOf blockno ≠ findCount
  | .stolen _ currentCount findCount => currentCount ≠ findCount
  | _ => True

/-- A process that stands inside a lock region holds the lock. -/
structure LockInv (s : State nbuf Tid) : Prop where
  held : ∀ t k, (s.pc t).holds k → s.lock k = some t
  apart : ∀ t, (s.pc t).apart

section Locks

variable {s s' : State nbuf Tid} {t : Tid} {pc : Pc nbuf}

omit [DecidableEq Tid] in
theorem LockInv.withCache (h : LockInv s) (cache : Cache nbuf) :
    LockInv (s.withCache cache) := ⟨h.held, h.apart⟩

omit [DecidableEq Tid] in
theorem LockInv.setSleepLock (h : LockInv s) (b : Fin nbuf) (holder : Option Tid) :
    LockInv (s.setSleepLock b holder) := ⟨h.held, h.apart⟩

omit [DecidableEq Tid] in
theorem LockInv.setPins (h : LockInv s) (b : Fin nbuf) (pins : ℕ) :
    LockInv (s.setPins b pins) := ⟨h.held, h.apart⟩

/-- A process moves on and keeps some of its locks. -/
theorem LockInv.goto (h : LockInv s) (hapart : pc.apart)
    (hkeep : ∀ k, pc.holds k → (s.pc t).holds k) : LockInv (s.goto t pc) := by
  refine ⟨fun t' k hholds => ?_, fun t' => ?_⟩
  · by_cases ht : t' = t
    · subst ht
      rw [State.goto_pc, Function.update_self] at hholds
      exact h.held t' k (hkeep k hholds)
    · rw [State.goto_pc, Function.update_of_ne ht] at hholds
      exact h.held t' k hholds
  · by_cases ht : t' = t
    · subst ht
      rwa [State.goto_pc, Function.update_self]
    · rw [State.goto_pc, Function.update_of_ne ht]
      exact h.apart t'

/-- A process acquires a free lock. -/
theorem LockInv.acquire (h : LockInv s) {k : Fin nbuckets} (hfree : s.lock k = none)
    (hapart : pc.apart) (hkeep : ∀ j, pc.holds j → (s.pc t).holds j ∨ j = k) :
    LockInv ((s.setLock k (some t)).goto t pc) := by
  have hothers : ∀ t' j, (s.pc t').holds j → j ≠ k := by
    rintro t' j hholds rfl
    rw [h.held t' j hholds] at hfree
    simp at hfree
  refine ⟨fun t' j hholds => ?_, fun t' => ?_⟩
  · by_cases ht : t' = t
    · subst ht
      rw [State.goto_pc, Function.update_self] at hholds
      rcases hkeep j hholds with hold | rfl
      · simpa [hothers t' j hold] using h.held t' j hold
      · simp
    · rw [State.goto_pc, Function.update_of_ne ht] at hholds
      simpa [hothers t' j hholds] using h.held t' j hholds
  · by_cases ht : t' = t
    · subst ht
      rwa [State.goto_pc, Function.update_self]
    · rw [State.goto_pc, Function.update_of_ne ht]
      exact h.apart t'

/-- A process releases a lock it holds. -/
theorem LockInv.release (h : LockInv s) {k : Fin nbuckets} (hholds : (s.pc t).holds k)
    (hapart : pc.apart) (hkeep : ∀ j, pc.holds j → (s.pc t).holds j ∧ j ≠ k) :
    LockInv ((s.setLock k none).goto t pc) := by
  refine ⟨fun t' j hholds' => ?_, fun t' => ?_⟩
  · by_cases ht : t' = t
    · subst ht
      rw [State.goto_pc, Function.update_self] at hholds'
      obtain ⟨hold, hne⟩ := hkeep j hholds'
      simpa [hne] using h.held t' j hold
    · rw [State.goto_pc, Function.update_of_ne ht] at hholds'
      have hlock := h.held t' j hholds'
      have hne : j ≠ k := by
        rintro rfl
        rw [h.held t j hholds] at hlock
        exact ht (Option.some.inj hlock).symm
      simpa [hne] using hlock
  · by_cases ht : t' = t
    · subst ht
      rwa [State.goto_pc, Function.update_self]
    · rw [State.goto_pc, Function.update_of_ne ht]
      exact h.apart t'

theorem LockInv.step (h : LockInv s) (hstep : Step s s') : LockInv s' := by
  cases hstep with
  | bgetCall dev blockno hpc hdev => exact h.goto trivial (by simp [Pc.holds])
  | bgetAcquire hpc hfree => exact h.acquire hfree trivial (by simp [Pc.holds])
  | bgetFound hpc hbody =>
      exact (h.withCache _).goto trivial (by simp [Pc.holds, hpc])
  | bgetMiss hpc hbody => exact (h.withCache _).goto trivial (by simp [Pc.holds, hpc])
  | stealEnd hpc hend => exact h.goto trivial (by simp [Pc.holds, hpc])
  | stealSkip hpc hgo hlocked => exact h.goto trivial (by simp [Pc.holds, hpc])
  | stealTry hpc hgo hfree => exact h.goto trivial (by simp [Pc.holds, hpc])
  | stealAcquire hpc hfree =>
      refine h.acquire hfree ?_ (by simp [Pc.holds, hpc])
      have hhome := h.held _ _ (by rw [hpc]; exact rfl)
      rintro rfl
      rw [hfree] at hhome
      simp at hhome
  | @stealFound t dev blockno findCount b cache hpc hbody =>
      have hapart := h.apart t
      rw [hpc] at hapart
      exact (h.withCache _).goto hapart (by simp [Pc.holds, hpc])
  | @stealMiss t dev blockno findCount cache hpc hbody =>
      have hapart := h.apart t
      rw [hpc] at hapart
      exact (h.withCache _).goto hapart (by simp [Pc.holds, hpc])
  | @stealNext t dev blockno findCount hpc =>
      have hapart := h.apart t
      rw [hpc] at hapart
      refine h.release (by simp [hpc, Pc.holds]) trivial ?_
      rintro j rfl
      exact ⟨by simp [hpc, Pc.holds], hapart⟩
  | @stolen t b currentCount findCount hpc =>
      have hapart := h.apart t
      rw [hpc] at hapart
      refine h.release (by simp [hpc, Pc.holds]) trivial ?_
      rintro j rfl
      exact ⟨by simp [hpc, Pc.holds], hapart⟩
  | bgetRelease hpc => exact h.release (by simp [hpc, Pc.holds]) trivial (by simp [Pc.holds])
  | bgetSleep hpc hfree => exact (h.setSleepLock _ _).goto trivial (by simp [Pc.holds])
  | bgetFail hpc => exact h.release (by simp [hpc, Pc.holds]) trivial (by simp [Pc.holds])
  | brelseCall hpc hholding => exact (h.setSleepLock _ _).goto trivial (by simp [Pc.holds])
  | brelseAcquire hpc hfree => exact h.acquire hfree trivial (by simp [Pc.holds])
  | brelseBody hpc => exact (h.withCache _).goto trivial (by simp [Pc.holds, hpc])
  | bpinCall b hpc => exact h.goto trivial (by simp [Pc.holds])
  | bpinAcquire hpc hfree => exact h.acquire hfree trivial (by simp [Pc.holds])
  | bpinBody hpc =>
      exact ((h.withCache _).setPins _ _).goto trivial (by simp [Pc.holds, hpc])
  | bunpinCall hpc hpin => exact (h.setPins _ _).goto trivial (by simp [Pc.holds])
  | bunpinAcquire hpc hfree => exact h.acquire hfree trivial (by simp [Pc.holds])
  | bunpinBody hpc => exact (h.withCache _).goto trivial (by simp [Pc.holds, hpc])
  | release hpc => exact h.release (by simp [hpc, Pc.holds]) trivial (by simp [Pc.holds])

end Locks

/-! ## Reference counts -/

/-- The buffer on which a call in progress has a reference. -/
def Pc.refOf : Pc nbuf → Option (Fin nbuf)
  | .stolen b _ _ | .bgetRelease b _ | .bgetSleep b | .brelseAcquire b _
  | .brelseBody b _ | .bunpinAcquire b _ | .bunpinBody b _ => some b
  | _ => none

/-- The number of references that a call in progress has on buffer `b`. -/
def Pc.refs (pc : Pc nbuf) (b : Fin nbuf) : ℕ := if pc.refOf = some b then 1 else 0

/-- A reference is that of a waiting `bget`, of a `brelse` under way, or of a
`bunpin` under way. -/
theorem Pc.refs_eq (pc : Pc nbuf) (b : Fin nbuf) :
    pc.refs b = (if pc.waitsFor = some b then 1 else 0) +
      (if pc.releases = some b then 1 else 0) + (if pc.unpins = some b then 1 else 0) := by
  cases pc <;> simp [Pc.refs, Pc.refOf, Pc.waitsFor, Pc.releases, Pc.unpins]

section References

variable [Fintype Tid] {s s' : State nbuf Tid} {t : Tid} {pc : Pc nbuf}

/-- Processes that hold the sleep lock of `b`: none or one. -/
def State.holders (s : State nbuf Tid) (b : Fin nbuf) : ℕ :=
  if (s.sleepLock b).isSome then 1 else 0

/-- Every reference count is the number of references. -/
def RefInv (s : State nbuf Tid) : Prop :=
  ∀ b, s.cache.refcnt b = s.holders b + ∑ t, (s.pc t).refs b + s.pins b

/-- When one process moves on, the sum of the references changes by what this
process gives up and takes. -/
theorem sum_refs_goto (s : State nbuf Tid) (t : Tid) (pc : Pc nbuf) (b : Fin nbuf) :
    ∑ u, ((s.goto t pc).pc u).refs b + (s.pc t).refs b =
      ∑ u, (s.pc u).refs b + pc.refs b := by
  have hsum : ∀ f : Tid → Pc nbuf, ∑ u, (f u).refs b =
      (f t).refs b + ∑ u ∈ Finset.univ.erase t, (f u).refs b := by
    intro f
    exact (Finset.add_sum_erase Finset.univ (fun u => (f u).refs b) (Finset.mem_univ t)).symm
  rw [hsum (s.goto t pc).pc, hsum s.pc]
  have hrest : ∑ u ∈ Finset.univ.erase t, ((s.goto t pc).pc u).refs b =
      ∑ u ∈ Finset.univ.erase t, (s.pc u).refs b := by
    refine Finset.sum_congr rfl fun u hu => ?_
    rw [State.goto_pc, Function.update_of_ne (Finset.ne_of_mem_erase hu)]
  rw [hrest, State.goto_pc, Function.update_self]
  omega

omit [DecidableEq Tid] in
/-- A buffer without references is in nobody's hands. -/
theorem RefInv.of_zero (h : RefInv s) {b : Fin nbuf} (hzero : s.cache.refcnt b = 0) :
    s.sleepLock b = none ∧ s.pins b = 0 ∧ ∀ t, (s.pc t).refs b = 0 := by
  have hcount := h b
  rw [hzero] at hcount
  refine ⟨?_, by omega, fun t => ?_⟩
  · cases hlock : s.sleepLock b with
    | none => rfl
    | some u =>
        simp only [State.holders, hlock, Option.isSome_some, if_true] at hcount
        omega
  · have hle := Finset.single_le_sum (f := fun u => (s.pc u).refs b)
      (fun _ _ => Nat.zero_le _) (Finset.mem_univ t)
    omega

omit [DecidableEq Tid] in
/-- A buffer that a call in progress refers to has a positive count. -/
theorem RefInv.pos_of_refs (h : RefInv s) {b : Fin nbuf} (hrefs : (s.pc t).refs b = 1) :
    0 < s.cache.refcnt b := by
  by_contra hzero
  have hnone := (h.of_zero (Nat.eq_zero_of_not_pos hzero)).2.2 t
  omega

/-- A process moves on without touching reference counts. -/
theorem RefInv.goto (h : RefInv s) (hrefs : ∀ b, pc.refs b = (s.pc t).refs b) :
    RefInv (s.goto t pc) := by
  intro b
  have hsum := sum_refs_goto s t pc b
  have hcount := h b
  have hb := hrefs b
  simp only [State.goto_cache, State.holders, State.goto_sleepLock, State.goto_pins] at *
  omega

omit [DecidableEq Tid] in
theorem RefInv.setLock (h : RefInv s) (k : Fin nbuckets) (holder : Option Tid) :
    RefInv (s.setLock k holder) := h

/-- Whatever a step does, it is enough to balance the books of every buffer. -/
theorem RefInv.of_balance (h : RefInv s) {cache : Cache nbuf}
    {sleepLock : Fin nbuf → Option Tid} {pins : Fin nbuf → ℕ}
    (hbalance : ∀ b, cache.refcnt b + s.holders b + (s.pc t).refs b + s.pins b =
      s.cache.refcnt b + (if (sleepLock b).isSome then 1 else 0) + pc.refs b + pins b) :
    RefInv (State.goto { s with cache := cache, sleepLock := sleepLock, pins := pins }
      t pc) := by
  intro b
  have hsum := sum_refs_goto s t pc b
  have hcount := h b
  have hb := hbalance b
  simp only [State.goto_cache, State.holders, State.goto_sleepLock, State.goto_pins,
    State.goto_pc] at *
  omega

theorem RefInv.step {ring : Fin nbuckets → List (Fin nbuf)}
    (hrings : Rings s.cache.links ring) (h : RefInv s) (hstep : Step s s') : RefInv s' := by
  cases hstep with
  | bgetCall dev blockno hpc hdev => exact h.goto (by simp [hpc, Pc.refs, Pc.refOf])
  | bgetAcquire hpc hfree => exact (h.setLock _ _).goto (by simp [hpc, Pc.refs, Pc.refOf])
  | @bgetFound t dev blockno b cache hpc hbody =>
      refine h.of_balance fun b' => ?_
      rcases bgetHome_cases hrings hbody with
        ⟨b'', -, -, -, heq, rfl⟩ | ⟨-, ⟨b'', -, hzero, heq, rfl⟩ | ⟨heq, -⟩⟩
      · obtain rfl := Option.some.inj heq
        by_cases hb : b' = b
        · subst hb
          simp [hpc, Pc.refs, Pc.refOf, Cache.incr, State.holders]
          omega
        · simp [hpc, Pc.refs, Pc.refOf, Cache.incr, State.holders, hb, Ne.symm hb]
      · obtain rfl := Option.some.inj heq
        by_cases hb : b' = b
        · subst hb
          simp [hpc, Pc.refs, Pc.refOf, Cache.assign, State.holders, hzero]
          omega
        · simp [hpc, Pc.refs, Pc.refOf, Cache.assign, State.holders, hb, Ne.symm hb]
      · simp at heq
  | bgetMiss hpc hbody =>
      rcases bgetHome_cases hrings hbody with
        ⟨b'', -, -, -, heq, -⟩ | ⟨-, ⟨b'', -, -, heq, -⟩ | ⟨-, rfl⟩⟩
      · simp at heq
      · simp at heq
      · exact h.goto (by simp [hpc, Pc.refs, Pc.refOf])
  | stealEnd hpc hend => exact h.goto (by simp [hpc, Pc.refs, Pc.refOf])
  | stealSkip hpc hgo hlocked => exact h.goto (by simp [hpc, Pc.refs, Pc.refOf])
  | stealTry hpc hgo hfree => exact h.goto (by simp [hpc, Pc.refs, Pc.refOf])
  | stealAcquire hpc hfree => exact (h.setLock _ _).goto (by simp [hpc, Pc.refs, Pc.refOf])
  | @stealFound t dev blockno findCount b cache hpc hbody =>
      refine h.of_balance fun b' => ?_
      rcases bgetSteal_cases hrings hbody with ⟨b'', -, hzero, heq, rfl⟩ | ⟨heq, -⟩
      · obtain rfl := Option.some.inj heq
        by_cases hb : b' = b
        · subst hb
          simp [hpc, Pc.refs, Pc.refOf, Cache.assign, Cache.moveToFront, State.holders, hzero]
          omega
        · simp [hpc, Pc.refs, Pc.refOf, Cache.assign, Cache.moveToFront, State.holders, hb,
            Ne.symm hb]
      · simp at heq
  | stealMiss hpc hbody =>
      rcases bgetSteal_cases hrings hbody with ⟨b'', -, -, heq, -⟩ | ⟨-, rfl⟩
      · simp at heq
      · exact h.goto (by simp [hpc, Pc.refs, Pc.refOf])
  | stealNext hpc => exact (h.setLock _ _).goto (by simp [hpc, Pc.refs, Pc.refOf])
  | stolen hpc => exact (h.setLock _ _).goto (by simp [hpc, Pc.refs, Pc.refOf])
  | bgetRelease hpc => exact (h.setLock _ _).goto (by simp [hpc, Pc.refs, Pc.refOf])
  | @bgetSleep t b hpc hfree =>
      refine h.of_balance fun b' => ?_
      by_cases hb : b' = b
      · subst hb
        simp [hpc, Pc.refs, Pc.refOf, State.holders, hfree]
      · simp [hpc, Pc.refs, Pc.refOf, State.holders, hb, Ne.symm hb]
  | bgetFail hpc => exact (h.setLock _ _).goto (by simp [hpc, Pc.refs, Pc.refOf])
  | @brelseCall t b hpc hholding =>
      refine h.of_balance fun b' => ?_
      by_cases hb : b' = b
      · subst hb
        simp [hpc, Pc.refs, Pc.refOf, State.holders, hholding]
      · simp [hpc, Pc.refs, Pc.refOf, State.holders, hb, Ne.symm hb]
  | brelseAcquire hpc hfree => exact (h.setLock _ _).goto (by simp [hpc, Pc.refs, Pc.refOf])
  | @brelseBody t b currentCount hpc =>
      have hpos := h.pos_of_refs (t := t) (b := b) (by simp [hpc, Pc.refs, Pc.refOf])
      refine h.of_balance fun b' => ?_
      rw [Cache.brelse_refcnt]
      by_cases hb : b' = b
      · subst hb
        simp [hpc, Pc.refs, Pc.refOf, State.holders]
        omega
      · simp [hpc, Pc.refs, Pc.refOf, State.holders, hb, Ne.symm hb]
  | bpinCall b hpc => exact h.goto (by simp [hpc, Pc.refs, Pc.refOf])
  | bpinAcquire hpc hfree => exact (h.setLock _ _).goto (by simp [hpc, Pc.refs, Pc.refOf])
  | @bpinBody t b currentCount hpc =>
      refine h.of_balance fun b' => ?_
      by_cases hb : b' = b
      · subst hb
        simp [hpc, Pc.refs, Pc.refOf, Cache.incr, State.holders]
        omega
      · simp [hpc, Pc.refs, Pc.refOf, Cache.incr, State.holders, hb]
  | @bunpinCall t b hpc hpin =>
      refine h.of_balance fun b' => ?_
      by_cases hb : b' = b
      · subst hb
        simp [hpc, Pc.refs, Pc.refOf, State.holders]
        omega
      · simp [hpc, Pc.refs, Pc.refOf, State.holders, hb, Ne.symm hb]
  | bunpinAcquire hpc hfree => exact (h.setLock _ _).goto (by simp [hpc, Pc.refs, Pc.refOf])
  | @bunpinBody t b currentCount hpc =>
      have hpos := h.pos_of_refs (t := t) (b := b) (by simp [hpc, Pc.refs, Pc.refOf])
      refine h.of_balance fun b' => ?_
      by_cases hb : b' = b
      · subst hb
        simp [hpc, Pc.refs, Pc.refOf, Cache.decr, State.holders]
        omega
      · simp [hpc, Pc.refs, Pc.refOf, Cache.decr, State.holders, hb, Ne.symm hb]
  | release hpc => exact (h.setLock _ _).goto (by simp [hpc, Pc.refs, Pc.refOf])

end References

/-! ## Identity -/

/-- The rings, and which buffer caches which block. -/
structure CacheOk (c : Cache nbuf) (ring : Fin nbuckets → List (Fin nbuf)) : Prop where
  rings : Rings c.links ring
  cover : ∀ b, ∃ k, b ∈ ring k
  placed : ∀ b, c.dev b ≠ 0 → b ∈ ring (bucketOf (c.blockno b))
  unique : ∀ b b', c.dev b ≠ 0 → c.dev b = c.dev b' → c.blockno b = c.blockno b' → b = b'

/-- What the program counter of a process says about the cache. -/
structure PcOk (c : Cache nbuf) (pc : Pc nbuf) : Prop where
  target : ∀ dev blockno, pc.target = some (dev, blockno) → dev ≠ 0
  missed : ∀ dev blockno, pc.missed = some (dev, blockno) →
    ∀ b, ¬ (c.dev b = dev ∧ c.blockno b = blockno)
  waited : ∀ b, pc.waitsFor = some b → c.dev b ≠ 0
  released : ∀ b k, pc = .brelseAcquire b k ∨ pc = .brelseBody b k →
    c.dev b ≠ 0 ∧ k = bucketOf (c.blockno b)

structure IdInv (s : State nbuf Tid) (ring : Fin nbuckets → List (Fin nbuf)) : Prop where
  cache : CacheOk s.cache ring
  pcs : ∀ t, PcOk s.cache (s.pc t)
  held : ∀ b, s.sleepLock b ≠ none → s.cache.dev b ≠ 0

section CacheLemmas

variable {c c' : Cache nbuf} {ring : Fin nbuckets → List (Fin nbuf)} {pc : Pc nbuf}

/-- Reference counts and valid flags do not matter. -/
theorem CacheOk.congr (h : CacheOk c ring) (hlinks : c'.links = c.links)
    (hdev : c'.dev = c.dev) (hblockno : c'.blockno = c.blockno) : CacheOk c' ring := by
  refine ⟨hlinks ▸ h.rings, h.cover, ?_, ?_⟩
  · rw [hdev, hblockno]
    exact h.placed
  · rw [hdev, hblockno]
    exact h.unique

theorem PcOk.congr (h : PcOk c pc) (hdev : c'.dev = c.dev)
    (hblockno : c'.blockno = c.blockno) : PcOk c' pc := by
  refine ⟨h.target, ?_, ?_, ?_⟩ <;> rw [hdev]
  · rw [hblockno]
    exact h.missed
  · exact h.waited
  · rw [hblockno]
    exact h.released

/-- If the block is not on its home ring, it is nowhere. -/
theorem CacheOk.absent (h : CacheOk c ring) {dev blockno : ℕ} (hdev : dev ≠ 0)
    (hmiss : ∀ b ∈ ring (bucketOf blockno), ¬ (c.dev b = dev ∧ c.blockno b = blockno)) :
    ∀ b, ¬ (c.dev b = dev ∧ c.blockno b = blockno) := by
  rintro b ⟨rfl, rfl⟩
  exact hmiss b (h.placed b hdev) ⟨rfl, rfl⟩

/-- A released buffer moves to the front of its own ring. -/
theorem CacheOk.moveToFront (h : CacheOk c ring) {b : Fin nbuf} (hdev : c.dev b ≠ 0) :
    CacheOk (c.moveToFront b (bucketOf (c.blockno b)))
      (movedToFront ring b (bucketOf (c.blockno b))) := by
  have hmem := mem_movedToFront h.rings b (bucketOf (c.blockno b))
  refine ⟨h.rings.moveToFront (h.placed b hdev) _, fun b' => ?_, fun b' hb' => ?_, h.unique⟩
  · by_cases hb : b' = b
    · exact ⟨_, (hmem b' _).mpr (Or.inl ⟨hb, rfl⟩)⟩
    · obtain ⟨k, hk⟩ := h.cover b'
      exact ⟨k, (hmem b' k).mpr (Or.inr ⟨hb, hk⟩)⟩
  · by_cases hb : b' = b
    · exact (hmem b' _).mpr (Or.inl ⟨hb, by rw [hb]; rfl⟩)
    · exact (hmem b' _).mpr (Or.inr ⟨hb, h.placed b' hb'⟩)

/-- A buffer that takes over a block that no buffer caches keeps the blocks apart. -/
theorem CacheOk.assign_unique (h : CacheOk c ring) {b : Fin nbuf} {dev blockno : ℕ}
    (habsent : ∀ b', ¬ (c.dev b' = dev ∧ c.blockno b' = blockno)) (left right : Fin nbuf)
    (hleft : (c.assign b dev blockno).dev left ≠ 0)
    (hdev : (c.assign b dev blockno).dev left = (c.assign b dev blockno).dev right)
    (hblockno : (c.assign b dev blockno).blockno left =
      (c.assign b dev blockno).blockno right) : left = right := by
  by_cases hl : left = b <;> by_cases hr : right = b
  · rw [hl, hr]
  · subst hl
    simp only [Cache.assign, Function.update_self, Function.update_of_ne hr] at hdev hblockno
    exact absurd ⟨hdev.symm, hblockno.symm⟩ (habsent right)
  · subst hr
    simp only [Cache.assign, Function.update_self, Function.update_of_ne hl] at hdev hblockno
    exact absurd ⟨hdev, hblockno⟩ (habsent left)
  · simp only [Cache.assign, Function.update_of_ne hl, Function.update_of_ne hr] at *
    exact h.unique left right hleft hdev hblockno

/-- Assigning a block that no buffer caches to a buffer on its home ring. -/
theorem CacheOk.assign (h : CacheOk c ring) {b : Fin nbuf} {dev blockno : ℕ}
    (habsent : ∀ b', ¬ (c.dev b' = dev ∧ c.blockno b' = blockno))
    (hmem : b ∈ ring (bucketOf blockno)) : CacheOk (c.assign b dev blockno) ring := by
  refine ⟨h.rings, h.cover, fun b' hb' => ?_, h.assign_unique habsent⟩
  by_cases hb : b' = b
  · subst hb
    simpa [Cache.assign] using hmem
  · simpa [Cache.assign, hb] using h.placed b' (by simpa [Cache.assign, hb] using hb')

/-- Stealing a buffer: it moves to the ring of its new block. -/
theorem CacheOk.steal (h : CacheOk c ring) {b : Fin nbuf} {dev blockno : ℕ}
    (habsent : ∀ b', ¬ (c.dev b' = dev ∧ c.blockno b' = blockno)) :
    CacheOk ((c.moveToFront b (bucketOf blockno)).assign b dev blockno)
      (movedToFront ring b (bucketOf blockno)) := by
  obtain ⟨k, hk⟩ := h.cover b
  have hmem := mem_movedToFront h.rings b (bucketOf blockno)
  -- Identities do not depend on the rings, so they are those of a plain assignment.
  refine ⟨h.rings.moveToFront hk _, fun b' => ?_, fun b' hb' => ?_, h.assign_unique habsent⟩
  · by_cases hb : b' = b
    · exact ⟨_, (hmem b' _).mpr (Or.inl ⟨hb, rfl⟩)⟩
    · obtain ⟨k', hk'⟩ := h.cover b'
      exact ⟨k', (hmem b' k').mpr (Or.inr ⟨hb, hk'⟩)⟩
  · by_cases hb : b' = b
    · subst hb
      simpa [Cache.assign] using (hmem b' _).mpr (Or.inl ⟨rfl, rfl⟩)
    · have hold : c.dev b' ≠ 0 := by
        simpa [Cache.assign, Cache.moveToFront, hb] using hb'
      simpa [Cache.assign, Cache.moveToFront, hb] using
        (hmem b' _).mpr (Or.inr ⟨hb, h.placed b' hold⟩)

/-- Reassigning a buffer that nobody refers to leaves the other processes
undisturbed, as long as nobody else is looking for the new block. -/
theorem PcOk.assign (h : PcOk c pc) {b : Fin nbuf} {dev blockno : ℕ}
    (hrefs : pc.refs b = 0) (hmissed : pc.missed ≠ some (dev, blockno))
    (hdev : c'.dev = Function.update c.dev b dev)
    (hblockno : c'.blockno = Function.update c.blockno b blockno) : PcOk c' pc := by
  have hne : ∀ b', pc.refOf = some b' → b' ≠ b := by
    rintro b' hrefOf rfl
    simp [Pc.refs, hrefOf] at hrefs
  refine ⟨h.target, fun dev' blockno' hmiss b' => ?_, fun b' hwaits => ?_,
    fun b' k hpc => ?_⟩
  · by_cases hb : b' = b
    · subst hb
      rw [hdev, hblockno, Function.update_self, Function.update_self]
      rintro ⟨rfl, rfl⟩
      exact hmissed hmiss
    · rw [hdev, hblockno, Function.update_of_ne hb, Function.update_of_ne hb]
      exact h.missed dev' blockno' hmiss b'
  · have hb : b' ≠ b := hne b' (by
      cases pc <;> simp_all [Pc.waitsFor, Pc.refOf])
    rw [hdev, Function.update_of_ne hb]
    exact h.waited b' hwaits
  · have hb : b' ≠ b := hne b' (by
      rcases hpc with rfl | rfl <;> rfl)
    rw [hdev, hblockno, Function.update_of_ne hb, Function.update_of_ne hb]
    exact h.released b' k hpc

end CacheLemmas

section Identity

variable [Fintype Tid] {s s' : State nbuf Tid} {t : Tid} {pc : Pc nbuf}
  {ring : Fin nbuckets → List (Fin nbuf)}

omit [Fintype Tid] in
/-- A process moves on; the new program counter and the new sleep locks have to
be justified. -/
theorem IdInv.goto (h : IdInv s ring) {lock : Fin nbuckets → Option Tid}
    {sleepLock : Fin nbuf → Option Tid} {pins : Fin nbuf → ℕ}
    (hheld : ∀ b, sleepLock b ≠ none → s.cache.dev b ≠ 0) (hpc : PcOk s.cache pc) :
    IdInv (State.goto { s with lock := lock, sleepLock := sleepLock, pins := pins } t pc)
      ring := by
  refine ⟨h.cache, fun t' => ?_, hheld⟩
  by_cases ht : t' = t
  · subst ht
    rwa [State.goto_pc, Function.update_self]
  · rw [State.goto_pc, Function.update_of_ne ht]
    exact h.pcs t'

omit [Fintype Tid] in
/-- A program counter that refers to nothing new is justified by an old one. -/
theorem PcOk.of_le {c : Cache nbuf} {pc' : Pc nbuf} (h : PcOk c pc)
    (htarget : ∀ x, pc'.target = some x → pc.target = some x)
    (hmissed : ∀ x, pc'.missed = some x → pc.missed = some x)
    (hwaits : ∀ b, pc'.waitsFor = some b → pc.waitsFor = some b)
    (hreleases : ∀ b k, pc' = .brelseAcquire b k ∨ pc' = .brelseBody b k →
      pc = .brelseAcquire b k ∨ pc = .brelseBody b k) : PcOk c pc' :=
  ⟨fun dev blockno hx => h.target dev blockno (htarget _ hx),
    fun dev blockno hx => h.missed dev blockno (hmissed _ hx),
    fun b hb => h.waited b (hwaits b hb),
    fun b k hb => h.released b k (hreleases b k hb)⟩

omit [Fintype Tid] in
/-- A process moves on, perhaps with another bucket lock, and refers to nothing new. -/
theorem IdInv.onward (h : IdInv s ring) {lock : Fin nbuckets → Option Tid} {pc' : Pc nbuf}
    (hpc : s.pc t = pc) (htarget : ∀ x, pc'.target = some x → pc.target = some x)
    (hmissed : ∀ x, pc'.missed = some x → pc.missed = some x)
    (hwaits : ∀ b, pc'.waitsFor = some b → pc.waitsFor = some b)
    (hreleases : ∀ b k, pc' = .brelseAcquire b k ∨ pc' = .brelseBody b k →
      pc = .brelseAcquire b k ∨ pc = .brelseBody b k) :
    IdInv (State.goto { s with lock := lock } t pc') ring := by
  have hold := h.pcs t
  rw [hpc] at hold
  exact h.goto h.held (hold.of_le htarget hmissed hwaits hreleases)

omit [Fintype Tid] in
/-- A program counter that refers to nothing. -/
theorem PcOk.quiet {c : Cache nbuf} (htarget : pc.target = none) (hmissed : pc.missed = none)
    (hwaits : pc.waitsFor = none) (hreleases : pc.releases = none) : PcOk c pc := by
  refine ⟨by simp [htarget], by simp [hmissed], by simp [hwaits], fun b k hpc => ?_⟩
  rcases hpc with rfl | rfl <;> simp [Pc.releases] at hreleases

omit [Fintype Tid] [DecidableEq Tid] in
/-- A lock region that changes only reference counts. -/
theorem IdInv.withCache (h : IdInv s ring) {c : Cache nbuf} (hlinks : c.links = s.cache.links)
    (hdev : c.dev = s.cache.dev) (hblockno : c.blockno = s.cache.blockno) :
    IdInv (s.withCache c) ring := by
  refine ⟨h.cache.congr hlinks hdev hblockno, fun t => (h.pcs t).congr hdev hblockno, ?_⟩
  rw [State.withCache_cache, hdev]
  exact h.held

omit [Fintype Tid] [DecidableEq Tid] in
/-- A process that is looking for a block holds the lock of its home bucket. -/
theorem holds_of_missed {dev blockno : ℕ} (hmissed : (s.pc t).missed = some (dev, blockno)) :
    (s.pc t).holds (bucketOf blockno) := by
  cases hpc : s.pc t <;> simp_all [Pc.missed, Pc.holds]

/-- Process `t`, holding the lock of the home bucket, assigns a block to a
buffer without references. -/
theorem IdInv.assign (h : IdInv s ring) (hlocks : LockInv s) (hrefs : RefInv s)
    {ring' : Fin nbuckets → List (Fin nbuf)} {b : Fin nbuf} {dev blockno : ℕ}
    {c : Cache nbuf} (hholds : (s.pc t).holds (bucketOf blockno))
    (hzero : s.cache.refcnt b = 0) (hcache : CacheOk c ring')
    (hdev : c.dev = Function.update s.cache.dev b dev)
    (hblockno : c.blockno = Function.update s.cache.blockno b blockno)
    (hpc : PcOk c pc) : IdInv ((s.withCache c).goto t pc) ring' := by
  obtain ⟨hfree, -, hnone⟩ := hrefs.of_zero hzero
  refine ⟨hcache, fun t' => ?_, fun b' hb' => ?_⟩
  · by_cases ht : t' = t
    · subst ht
      rwa [State.goto_pc, Function.update_self]
    · rw [State.goto_pc, Function.update_of_ne ht]
      refine (h.pcs t').assign (hnone t') (fun hmissed => ht ?_) hdev hblockno
      -- Two processes cannot hold the lock of the same bucket.
      have hleft := hlocks.held t' _ (holds_of_missed hmissed)
      have hright := hlocks.held t _ hholds
      rw [hleft] at hright
      exact Option.some.inj hright
  · have hb : b' ≠ b := by
      rintro rfl
      exact hb' hfree
    change c.dev b' ≠ 0
    rw [hdev, Function.update_of_ne hb]
    exact h.held b' hb'

/-- `bget` finds its block, or a free buffer, on the home ring. -/
theorem IdInv.bgetFound (h : IdInv s ring) (hlocks : LockInv s) (hrefs : RefInv s)
    {dev blockno : ℕ} {b : Fin nbuf} {cache : Cache nbuf}
    (hpc : s.pc t = .bgetHome dev blockno)
    (hbody : s.cache.bgetHome dev blockno = some (some b, cache)) :
    IdInv ((s.withCache cache).goto t (.bgetRelease b (bucketOf blockno))) ring := by
  have hdev : dev ≠ 0 := (h.pcs t).target dev blockno (by rw [hpc]; rfl)
  rcases bgetHome_cases h.cache.rings hbody with
    ⟨b', -, hdev', hblockno', heq, rfl⟩ | ⟨hmiss, ⟨b', hmem, hzero, heq, rfl⟩ | ⟨heq, -⟩⟩
  · obtain rfl := Option.some.inj heq
    have hpc' : PcOk s.cache (.bgetRelease b (bucketOf blockno)) :=
      ⟨by simp [Pc.target], by simp [Pc.missed],
        by simpa [Pc.waitsFor] using hdev' ▸ hdev, by simp⟩
    exact (h.withCache (c := s.cache.incr b) rfl rfl rfl).goto h.held (hpc'.congr rfl rfl)
  · obtain rfl := Option.some.inj heq
    have hpc' : PcOk (s.cache.assign b dev blockno) (.bgetRelease b (bucketOf blockno)) :=
      ⟨by simp [Pc.target], by simp [Pc.missed],
        by simpa [Pc.waitsFor, Cache.assign] using hdev, by simp⟩
    exact h.assign hlocks hrefs (by rw [hpc]; rfl) hzero
      (h.cache.assign (h.cache.absent hdev hmiss) hmem) rfl rfl hpc'
  · simp at heq

omit [Fintype Tid] in
/-- `brelse` moves the buffer to the front of its own ring, or leaves it where it is. -/
theorem IdInv.brelseBody (h : IdInv s ring) {b : Fin nbuf} {currentCount : Fin nbuckets}
    (hpc : s.pc t = .brelseBody b currentCount) :
    ∃ ring', IdInv ((s.withCache (s.cache.brelse b currentCount)).goto t
      (.release currentCount)) ring' := by
  obtain ⟨hdev, rfl⟩ := (h.pcs t).released b currentCount (Or.inr hpc)
  have hquiet : ∀ c : Cache nbuf, PcOk c (.release (bucketOf (s.cache.blockno b))) :=
    fun c => .quiet rfl rfl rfl rfl
  have hdecr : IdInv (s.withCache (s.cache.decr b)) ring := h.withCache rfl rfl rfl
  simp only [Cache.brelse]
  split
  · refine ⟨_, ⟨hdecr.cache.moveToFront hdev, fun t' => ?_, h.held⟩⟩
    by_cases ht : t' = t
    · subst ht
      rw [State.goto_pc, Function.update_self]
      exact hquiet _
    · rw [State.goto_pc, Function.update_of_ne ht]
      exact (h.pcs t').congr rfl rfl
  · exact ⟨ring, hdecr.goto h.held (hquiet _)⟩

/-- Every step keeps the identities of the buffers. -/
theorem IdInv.step (h : IdInv s ring) (hlocks : LockInv s) (hrefs : RefInv s)
    (hstep : Step s s') : ∃ ring', IdInv s' ring' := by
  cases hstep with
  | @bgetCall t dev blockno hpc hdev =>
      refine ⟨ring, h.goto h.held ⟨?_, by simp [Pc.missed], by simp [Pc.waitsFor], by simp⟩⟩
      rintro dev' blockno' heq
      obtain ⟨rfl, -⟩ := Prod.mk.inj (Option.some.inj heq)
      exact hdev
  | @bgetAcquire t dev blockno hpc hfree =>
      exact ⟨ring, h.onward hpc (by simp [Pc.target]) (by simp [Pc.missed])
        (by simp [Pc.waitsFor]) (by simp)⟩
  | @bgetFound t dev blockno b cache hpc hbody =>
      exact ⟨ring, h.bgetFound hlocks hrefs hpc hbody⟩
  | @bgetMiss t dev blockno cache hpc hbody =>
      have hold := h.pcs t
      rw [hpc] at hold
      have hdev : dev ≠ 0 := hold.target dev blockno rfl
      rcases bgetHome_cases h.cache.rings hbody with
        ⟨b', -, -, -, heq, -⟩ | ⟨hmiss, ⟨b', -, -, heq, -⟩ | ⟨-, rfl⟩⟩
      · simp at heq
      · simp at heq
      · refine ⟨ring, h.goto h.held ⟨hold.target, ?_, by simp [Pc.waitsFor], by simp⟩⟩
        intro dev' blockno' heq
        obtain ⟨rfl, rfl⟩ := Prod.mk.inj (Option.some.inj heq)
        exact h.cache.absent hdev hmiss
  | @stealEnd t dev blockno findCount hpc hend =>
      exact ⟨ring, h.goto h.held (.quiet rfl rfl rfl rfl)⟩
  | @stealSkip t dev blockno findCount hpc hgo hlocked =>
      exact ⟨ring, h.onward hpc (by simp [Pc.target]) (by simp [Pc.missed])
        (by simp [Pc.waitsFor]) (by simp)⟩
  | @stealTry t dev blockno findCount hpc hgo hfree =>
      exact ⟨ring, h.onward hpc (by simp [Pc.target]) (by simp [Pc.missed])
        (by simp [Pc.waitsFor]) (by simp)⟩
  | @stealAcquire t dev blockno findCount hpc hfree =>
      exact ⟨ring, h.onward hpc (by simp [Pc.target]) (by simp [Pc.missed])
        (by simp [Pc.waitsFor]) (by simp)⟩
  | @stealFound t dev blockno findCount b cache hpc hbody =>
      have hold := h.pcs t
      rw [hpc] at hold
      rcases bgetSteal_cases h.cache.rings hbody with ⟨b', hmem, hzero, heq, rfl⟩ | ⟨heq, -⟩
      · obtain rfl := Option.some.inj heq
        have hholds : (s.pc t).holds (bucketOf blockno) := by
          rw [hpc]
          exact Or.inl rfl
        refine ⟨_, h.assign hlocks hrefs hholds hzero
          (h.cache.steal (hold.missed dev blockno rfl)) rfl rfl
          ⟨by simp [Pc.target], by simp [Pc.missed], ?_, by simp⟩⟩
        simpa [Pc.waitsFor, Cache.assign] using hold.target dev blockno rfl
      · simp at heq
  | @stealMiss t dev blockno findCount cache hpc hbody =>
      rcases bgetSteal_cases h.cache.rings hbody with ⟨b', -, -, heq, -⟩ | ⟨-, rfl⟩
      · simp at heq
      · exact ⟨ring, h.onward hpc (by simp [Pc.target]) (by simp [Pc.missed])
          (by simp [Pc.waitsFor]) (by simp)⟩
  | @stealNext t dev blockno findCount hpc =>
      exact ⟨ring, h.onward hpc (by simp [Pc.target]) (by simp [Pc.missed])
        (by simp [Pc.waitsFor]) (by simp)⟩
  | @stolen t b currentCount findCount hpc =>
      exact ⟨ring, h.onward hpc (by simp [Pc.target]) (by simp [Pc.missed])
        (by simp [Pc.waitsFor]) (by simp)⟩
  | @bgetRelease t b currentCount hpc =>
      exact ⟨ring, h.onward hpc (by simp [Pc.target]) (by simp [Pc.missed])
        (by simp [Pc.waitsFor]) (by simp)⟩
  | @bgetSleep t b hpc hfree =>
      have hdev : s.cache.dev b ≠ 0 := (h.pcs t).waited b (by rw [hpc]; rfl)
      refine ⟨ring, h.goto (fun b' hb' => ?_) (.quiet rfl rfl rfl rfl)⟩
      by_cases hb : b' = b
      · exact hb ▸ hdev
      · exact h.held b' (by simpa [hb] using hb')
  | @bgetFail t currentCount hpc =>
      exact ⟨ring, h.goto h.held (.quiet rfl rfl rfl rfl)⟩
  | @brelseCall t b hpc hholding =>
      have hdev : s.cache.dev b ≠ 0 := h.held b (by simp [hholding])
      refine ⟨ring, h.goto (fun b' hb' => ?_) ⟨by simp [Pc.target], by simp [Pc.missed],
        by simp [Pc.waitsFor], ?_⟩⟩
      · by_cases hb : b' = b
        · exact hb ▸ hdev
        · exact h.held b' (by simpa [hb] using hb')
      · rintro b' k (heq | heq)
        · obtain ⟨rfl, rfl⟩ := Pc.brelseAcquire.inj heq
          exact ⟨hdev, rfl⟩
        · simp at heq
  | @brelseAcquire t b currentCount hpc hfree =>
      exact ⟨ring, h.onward hpc (by simp [Pc.target]) (by simp [Pc.missed])
        (by simp [Pc.waitsFor]) (by simp)⟩
  | @brelseBody t b currentCount hpc =>
      exact h.brelseBody hpc
  | @bpinCall t b hpc =>
      exact ⟨ring, h.goto h.held (.quiet rfl rfl rfl rfl)⟩
  | @bpinAcquire t b currentCount hpc hfree =>
      exact ⟨ring, h.goto h.held (.quiet rfl rfl rfl rfl)⟩
  | @bpinBody t b currentCount hpc =>
      exact ⟨ring, (h.withCache (c := s.cache.incr b) rfl rfl rfl).goto h.held
        (.quiet rfl rfl rfl rfl)⟩
  | @bunpinCall t b hpc hpin =>
      exact ⟨ring, h.goto h.held (.quiet rfl rfl rfl rfl)⟩
  | @bunpinAcquire t b currentCount hpc hfree =>
      exact ⟨ring, h.goto h.held (.quiet rfl rfl rfl rfl)⟩
  | @bunpinBody t b currentCount hpc =>
      exact ⟨ring, (h.withCache (c := s.cache.decr b) rfl rfl rfl).goto h.held
        (.quiet rfl rfl rfl rfl)⟩
  | @release t currentCount hpc =>
      exact ⟨ring, h.goto h.held (.quiet rfl rfl rfl rfl)⟩

/-- The three parts of the invariant, for some list of rings. -/
def Inv (s : State nbuf Tid) : Prop :=
  LockInv s ∧ RefInv s ∧ ∃ ring, IdInv s ring

omit [DecidableEq Tid] in
theorem inv_boot (garbage : Links (Node nbuf)) :
    Inv (State.boot (binit garbage) : State nbuf Tid) := by
  obtain ⟨ring, hrings, hcover⟩ := rings_binit garbage
  refine ⟨⟨by simp [Pc.holds], by simp [Pc.apart]⟩, ?_, ring, ?_⟩
  · intro b
    simp [binit, State.holders, Pc.refs, Pc.refOf]
  · exact ⟨⟨hrings, hcover, by simp [binit], by simp [binit]⟩,
      fun t => .quiet rfl rfl rfl rfl, by simp⟩

theorem Inv.step (h : Inv s) (hstep : Step s s') : Inv s' := by
  obtain ⟨hlocks, hrefs, ring, hid⟩ := h
  exact ⟨hlocks.step hstep, hrefs.step hid.cache.rings hstep, hid.step hlocks hrefs hstep⟩

theorem reachable_inv {garbage : Links (Node nbuf)}
    (hreach : Reachable Step (State.boot (binit garbage)) s) : Inv s :=
  reachable_invariant Inv (inv_boot garbage) (fun _ _ hinv hstep => hinv.step hstep) hreach

omit [Fintype Tid] in
/-- No step gives a referenced buffer to another block. -/
theorem Inv.stable [Fintype Tid] (h : Inv s) (hstep : Step s s') {b : Fin nbuf}
    (hpos : 0 < s.cache.refcnt b) :
    s'.cache.dev b = s.cache.dev b ∧ s'.cache.blockno b = s.cache.blockno b := by
  obtain ⟨-, -, ring, hid⟩ := h
  have hassign : ∀ {b' : Fin nbuf} {dev blockno : ℕ}, s.cache.refcnt b' = 0 →
      Function.update s.cache.dev b' dev b = s.cache.dev b ∧
        Function.update s.cache.blockno b' blockno b = s.cache.blockno b := by
    intro b' dev blockno hzero
    have hne : b ≠ b' := by
      rintro rfl
      omega
    exact ⟨Function.update_of_ne hne _ _, Function.update_of_ne hne _ _⟩
  cases hstep with
  | bgetFound hpc hbody =>
      rcases bgetHome_cases hid.cache.rings hbody with
        ⟨b', -, -, -, -, rfl⟩ | ⟨-, ⟨b', -, hzero, -, rfl⟩ | ⟨-, rfl⟩⟩
      · exact ⟨rfl, rfl⟩
      · exact hassign hzero
      · exact ⟨rfl, rfl⟩
  | bgetMiss hpc hbody =>
      rcases bgetHome_cases hid.cache.rings hbody with
        ⟨b', -, -, -, -, rfl⟩ | ⟨-, ⟨b', -, hzero, -, rfl⟩ | ⟨-, rfl⟩⟩
      · exact ⟨rfl, rfl⟩
      · exact hassign hzero
      · exact ⟨rfl, rfl⟩
  | stealFound hpc hbody =>
      rcases bgetSteal_cases hid.cache.rings hbody with ⟨b', -, hzero, -, rfl⟩ | ⟨-, rfl⟩
      · exact hassign hzero
      · exact ⟨rfl, rfl⟩
  | stealMiss hpc hbody =>
      rcases bgetSteal_cases hid.cache.rings hbody with ⟨b', -, hzero, -, rfl⟩ | ⟨-, rfl⟩
      · exact hassign hzero
      · exact ⟨rfl, rfl⟩
  | brelseBody hpc =>
      simp only [Cache.brelse]
      split <;> exact ⟨rfl, rfl⟩
  | _ => exact ⟨rfl, rfl⟩

/-- Processes in `bget` that have a reference on `b` and wait for its sleep
lock. -/
def State.waiting (s : State nbuf Tid) (b : Fin nbuf) : ℕ :=
  (Finset.univ.filter fun t => (s.pc t).waitsFor = some b).card

/-- Processes in `brelse` that have released the sleep lock of `b` and not yet
dropped their reference. -/
def State.releasing (s : State nbuf Tid) (b : Fin nbuf) : ℕ :=
  (Finset.univ.filter fun t => (s.pc t).releases = some b).card

/-- Pins of `b`: those without a `bunpin` and those whose `bunpin` is under
way. -/
def State.outstandingPins (s : State nbuf Tid) (b : Fin nbuf) : ℕ :=
  s.pins b + (Finset.univ.filter fun t => (s.pc t).unpins = some b).card

omit [DecidableEq Tid] in
theorem RefInv.refcnt_eq (h : RefInv s) (b : Fin nbuf) :
    s.cache.refcnt b = s.holders b + s.waiting b + s.releasing b + s.outstandingPins b := by
  have hsum : ∑ t, (s.pc t).refs b = s.waiting b + s.releasing b +
      (Finset.univ.filter fun t => (s.pc t).unpins = some b).card := by
    simp only [Pc.refs_eq, Finset.sum_add_distrib, State.waiting, State.releasing,
      Finset.card_filter]
  rw [h b, hsum, State.outstandingPins]
  omega

/-- **Buffer identity.**  In every state reachable after `binit`, every buffer
is on exactly one bucket ring and every ring is a well-formed doubly linked
cycle; assigned buffers are in the bucket of their block; no two assigned
buffers cache the same block; `refcnt` is the number of processes that hold the
buffer, wait for it or are inside `brelse` before dropping it, plus the
outstanding pins; and no step changes the block of a referenced buffer. -/
theorem buffer_identity {garbage : Links (Node nbuf)}
    (hreach : Reachable Step (State.boot (binit garbage)) s) :
    (∃ ring : Fin nbuckets → List (Fin nbuf),
      (∀ k, Cycle s.cache.links (.bucket k) ((ring k).map .buf)) ∧
      (∀ k, (ring k).Nodup) ∧ (∀ b, ∃! k, b ∈ ring k) ∧
      ∀ b, s.cache.dev b ≠ 0 → b ∈ ring (bucketOf (s.cache.blockno b))) ∧
    (∀ b b', s.cache.dev b ≠ 0 → s.cache.dev b' ≠ 0 → s.cache.dev b = s.cache.dev b' →
      s.cache.blockno b = s.cache.blockno b' → b = b') ∧
    (∀ b, s.cache.refcnt b =
      s.holders b + s.waiting b + s.releasing b + s.outstandingPins b) ∧
    ∀ s', Step s s' → ∀ b, 0 < s.cache.refcnt b →
      s'.cache.dev b = s.cache.dev b ∧ s'.cache.blockno b = s.cache.blockno b := by
  have hinv := reachable_inv hreach
  obtain ⟨-, hrefs, ring, hid⟩ := id hinv
  refine ⟨⟨ring, hid.cache.rings.cycle, hid.cache.rings.nodup, fun b => ?_, hid.cache.placed⟩,
    fun b b' hb _ => hid.cache.unique b b' hb, hrefs.refcnt_eq,
    fun s' hstep b hpos => hinv.stable hstep hpos⟩
  obtain ⟨k, hk⟩ := hid.cache.cover b
  exact ⟨k, hk, fun k' hk' => hid.cache.rings.disjoint b k' k hk' hk⟩

/-- One process gets a buffer for block 7 of device 1 from the fresh cache and
calls `brelse`; the state is the one before `brelse` takes the bucket lock. -/
theorem reachable_brelse : ∃ (s : State 30 (Fin 2)) (b : Fin 30),
    Reachable Step (State.boot (binit ⟨id, id⟩)) s ∧ s.cache.refcnt b = 1 ∧
      s.pc 0 = .brelseAcquire b (bucketOf 7) ∧ s.pc 1 = .idle ∧
      s.sleepLock b = none ∧ s.pins b = 0 := by
  have hbody : ((binit ⟨id, id⟩ : Cache 30).bgetHome 1 7).map
      (fun result => (result.1, result.2.refcnt 7, result.2.blockno 7)) =
        some (some 7, 1, 7) := by decide +kernel
  obtain ⟨⟨found, cache⟩, hbody, heq⟩ := Option.map_eq_some_iff.mp hbody
  simp only [Prod.mk.injEq] at heq
  obtain ⟨rfl, hrefcnt, hblockno⟩ := heq
  have hreach := Relation.ReflTransGen.refl (r := Step)
    (a := (State.boot (binit ⟨id, id⟩) : State 30 (Fin 2)))
  replace hreach := hreach.tail (.bgetCall (t := 0) 1 7 rfl (by decide))
  replace hreach := hreach.tail (.bgetAcquire (t := 0) rfl rfl)
  replace hreach := hreach.tail (.bgetFound (t := 0) rfl hbody)
  replace hreach := hreach.tail (.bgetRelease (t := 0) rfl)
  replace hreach := hreach.tail (.bgetSleep (t := 0) rfl rfl)
  replace hreach := hreach.tail (.brelseCall (t := 0) (b := 7) rfl rfl)
  exact ⟨_, 7, hreach, hrefcnt, by simp [hblockno], rfl, rfl, rfl⟩

/-- The reference of a process inside `brelse` is counted although it neither
holds the buffer nor waits for it. -/
theorem refcnt_ne_holders_add_waiting_add_pins : ∃ (s : State 30 (Fin 2)) (b : Fin 30),
    Reachable Step (State.boot (binit ⟨id, id⟩)) s ∧
      s.cache.refcnt b ≠ s.holders b + s.waiting b + s.outstandingPins b := by
  obtain ⟨s, b, hreach, hrefcnt, hzero, hone, hlock, hpins⟩ := reachable_brelse
  refine ⟨s, b, hreach, ?_⟩
  have hpcs : ∀ t : Fin 2, (s.pc t).waitsFor ≠ some b ∧ (s.pc t).unpins ≠ some b := by
    intro t
    fin_cases t
    · simp [hzero, Pc.waitsFor, Pc.unpins]
    · simp [hone, Pc.waitsFor, Pc.unpins]
  simp [hrefcnt, State.holders, State.waiting, State.outstandingPins, hlock, hpins,
    fun t => (hpcs t).1, fun t => (hpcs t).2]

theorem buffer_identity_brelse : ∃ (s : State 30 (Fin 2)) (b : Fin 30),
    Reachable Step (State.boot (binit ⟨id, id⟩)) s ∧ s.releasing b = 1 ∧
      s.cache.refcnt b =
        s.holders b + s.waiting b + s.releasing b + s.outstandingPins b := by
  obtain ⟨s, b, hreach, hrefcnt, hzero, hone, hlock, hpins⟩ := reachable_brelse
  refine ⟨s, b, hreach, ?_, (buffer_identity hreach).2.2.1 b⟩
  have hpcs : ∀ t : Fin 2, (s.pc t).releases = some b ↔ t = 0 := by
    intro t
    fin_cases t
    · simp [hzero, Pc.releases]
    · simp [hone, Pc.releases]
  simp [State.releasing, hpcs, Finset.filter_eq']

end Identity

end OperateSystem.Bio

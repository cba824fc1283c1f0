import Mathlib.Data.Fintype.Basic
import OperateSystem.Core.Sweep
import OperateSystem.Kalloc.Conservation

/-!
# When `kalloc` gives up

`kalloc` looks at its own list and then at the others, each under its own lock, and
returns 0 when it has found every one of them empty.  It never holds two of the locks,
so the lists need not have been empty at the same time: a page may be freed onto a
list that the call has already looked at.  That is the only way in which the answer
can differ from the answer of a single list.
-/

namespace OperateSystem.Kalloc

open OperateSystem.Invariant
open OperateSystem.Sweep

variable {Tid : Type*} [DecidableEq Tid] {L : Layout}

/-- The lists that a call of `kalloc` has found empty so far: its own, and of the others
those below the loop variable. -/
def Pc.inspected {ncpu : ℕ} : Pc ncpu → Fin ncpu → Prop
  | .kallocSteal cpuId id, i => i = cpuId ∨ (i : ℕ) < id
  | _, _ => False

/-- A call of `kalloc` by thread `t` from its first state to one before it returns, with
the states of the whole system in between. -/
structure KallocCall (t : Tid) (start : State L Tid) (visited : List (State L Tid))
    (last : State L Tid) : Prop where
  path : Path (Step L) start visited last
  called : start.pc t = .kallocCpu
  inside : ∀ s ∈ visited, s.pc t ≠ .idle

/-- A lock region of `kfree` puts a page on list `i`. -/
def Pushes (before after : State L Tid) (i : Fin L.ncpu) : Prop :=
  ∃ t pa, before.pc t = .kfreeLock pa i ∧
    after = (before.withKmems (before.kmems.push i pa)).goto t .idle

section Steps

variable {before after : State L Tid}

/-- Only `kfree` makes an empty list non-empty. -/
theorem Step.freelist_eq_zero_or_pushes (hstep : Step L before after) {i : Fin L.ncpu}
    (hempty : before.kmems.freelist i = 0) :
    after.kmems.freelist i = 0 ∨ Pushes before after i := by
  have hpop : ∀ {id : Fin L.ncpu} {t : Tid} {pc : Pc L.ncpu},
      before.kmems.freelist id ≠ 0 →
        ((before.withKmems (before.kmems.pop id).2).goto t pc).kmems.freelist i = 0 := by
    intro id t pc hsome
    have hne : i ≠ id := by
      rintro rfl
      exact hsome hempty
    simp [State.goto, State.withKmems, Kmems.pop, hsome, hne, hempty]
  cases hstep with
  | @kfreePush t pa cpuId hpc =>
      by_cases hi : i = cpuId
      · subst hi
        exact Or.inr ⟨t, pa, hpc, rfl⟩
      · exact Or.inl (by simp [State.goto, State.withKmems, Kmems.push, hi, hempty])
  | kallocOwn hpc hsome => exact Or.inl (hpop hsome)
  | kallocSteal hpc hother hsome => exact Or.inl (hpop hsome)
  | _ => exact Or.inl hempty

theorem goto_inspected {s : State L Tid} {t u : Tid} {pc : Pc L.ncpu} {i : Fin L.ncpu}
    {found : Prop} (hnew : pc.inspected i → (s.pc u).inspected i ∨ found)
    (hinspected : ((s.goto u pc).pc t).inspected i) : (s.pc t).inspected i ∨ found := by
  by_cases ht : t = u
  · subst ht
    simp only [State.goto, Function.update_self] at hinspected
    exact hnew hinspected
  · simp only [State.goto, Function.update_of_ne ht] at hinspected
    exact Or.inl hinspected

/-- A list is inspected in a step that finds it empty. -/
theorem Step.inspected (hstep : Step L before after) {t : Tid} {i : Fin L.ncpu}
    (hinspected : (after.pc t).inspected i) :
    (before.pc t).inspected i ∨
      (before.kmems.freelist i = 0 ∧ after.kmems.freelist i = 0) := by
  cases hstep with
  | store value howner => exact Or.inl hinspected
  | kallocOwnEmpty hpc hnone =>
      refine goto_inspected ?_ hinspected
      rintro (rfl | hlt)
      · exact Or.inr ⟨hnone, hnone⟩
      · exact absurd hlt (Nat.not_lt_zero _)
  | @kallocSkip u cpuId id hpc hown =>
      refine goto_inspected ?_ hinspected
      rintro (rfl | hlt)
      · exact Or.inl (by simp [hpc, Pc.inspected])
      · refine Or.inl ?_
        rw [hpc]
        by_cases hi : i = cpuId
        · exact Or.inl hi
        · refine Or.inr ?_
          have hne : (i : ℕ) ≠ cpuId := fun heq => hi (Fin.ext heq)
          omega
  | @kallocStealEmpty u cpuId id hpc hother hnone =>
      refine goto_inspected ?_ hinspected
      rintro (rfl | hlt)
      · exact Or.inl (by simp [hpc, Pc.inspected])
      · by_cases hi : i = id
        · subst hi
          exact Or.inr ⟨hnone, hnone⟩
        · refine Or.inl ?_
          rw [hpc]
          refine Or.inr ?_
          have hne : (i : ℕ) ≠ id := fun heq => hi (Fin.ext heq)
          omega
  | _ => exact goto_inspected (by simp [Pc.inspected]) hinspected

end Steps

/-- **`kalloc` fails only when it has found every list empty.**  In every call that is
about to return 0, each list was empty at some instant of the call; and all lists were
empty at one and the same instant of it, unless some `kfree` put a page on a list that
the call had already found empty. -/
theorem kalloc_fails_exhausted {t : Tid} {start last : State L Tid}
    {visited : List (State L Tid)} (hcall : KallocCall t start visited last)
    {cpuId : Fin L.ncpu} (hfail : last.pc t = .kallocSteal cpuId L.ncpu) :
    (∀ i, ∃ s ∈ visited, s.kmems.freelist i = 0) ∧
      ((∃ s ∈ visited, ∀ i, s.kmems.freelist i = 0) ∨
        ∃ before after i, Consecutive visited before after ∧
          (before.pc t).inspected i ∧ Pushes before after i) := by
  have hstart : ∀ i, ¬ (start.pc t).inspected i := by simp [hcall.called, Pc.inspected]
  have hall : ∀ i, (last.pc t).inspected i := by
    intro i
    rw [hfail]
    exact Or.inr i.isLt
  constructor
  · intro i
    refine hcall.path.exists_observed (fun s i => (s.pc t).inspected i)
      (fun s i => s.kmems.freelist i = 0) hstart ?_ i (hall i)
    intro before _ after hstep i hinspected
    rcases hstep.inspected hinspected with hold | ⟨hempty, -⟩
    · exact Or.inl hold
    · exact Or.inr hempty
  · have hsweep := hcall.path.clear_or_disturbed (fun s i => (s.pc t).inspected i)
      (fun s i => s.kmems.freelist i = 0)
      (fun before after i => (before.pc t).inspected i ∧ Pushes before after i) hstart ?_
    · rcases hsweep with hclear | ⟨before, after, i, hconsecutive, hpush⟩
      · exact Or.inl ⟨last, hcall.path.last_mem, fun i => hclear i (hall i)⟩
      · exact Or.inr ⟨before, after, i, hconsecutive, hpush⟩
    · intro before _ after hstep i hinspected hbefore
      rcases hstep.inspected hinspected with hold | ⟨-, hempty⟩
      · rcases hstep.freelist_eq_zero_or_pushes (hbefore hold) with hempty | hpush
        · exact Or.inl hempty
        · exact Or.inr ⟨hold, hpush⟩
      · exact Or.inl hempty

/-! ## A spurious failure -/

section Spurious

theorem State.goto_goto (s : State L Tid) (t : Tid) (pc pc' : Pc L.ncpu) :
    (s.goto t pc).goto t pc' = s.goto t pc' := by
  simp [State.goto, Function.update_idem]

@[simp]
theorem State.goto_pc_self (s : State L Tid) (t : Tid) (pc : Pc L.ncpu) :
    (s.goto t pc).pc t = pc :=
  Function.update_self ..

/-- Inside a call of `t`, with a page on some free list. -/
def PageLeft (t : Tid) (s : State L Tid) : Prop :=
  s.pc t ≠ .idle ∧ ∃ i, s.kmems.freelist i ≠ 0

/-- A stretch of the loop of `kalloc` in which no list but its own has a page. -/
theorem through_kallocSteal {t : Tid} {own : Fin L.ncpu} {start s : State L Tid}
    (hleft : ∃ i, s.kmems.freelist i ≠ 0) {first : ℕ}
    (h : Through (Step L) (PageLeft t) start (s.goto t (.kallocSteal own first))) (id : ℕ)
    (hle : first ≤ id) (hid : id ≤ L.ncpu)
    (hempty : ∀ i : Fin L.ncpu, first ≤ i → (i : ℕ) < id → i ≠ own → s.kmems.freelist i = 0) :
    Through (Step L) (PageLeft t) start (s.goto t (.kallocSteal own id)) := by
  induction id, hle using Nat.le_induction with
  | base => exact h
  | succ id hle ih =>
      have hbefore := ih (by omega) fun i hfirst hlt => hempty i hfirst (by omega)
      have hpc : (s.goto t (.kallocSteal own id)).pc t = .kallocSteal own id :=
        s.goto_pc_self t _
      have hafter : PageLeft t (s.goto t (.kallocSteal own (id + 1))) := ⟨by simp, hleft⟩
      by_cases hskip : (⟨id, hid⟩ : Fin L.ncpu) = own
      · have hstep := @Step.kallocSkip Tid _ L _ t own ⟨id, hid⟩ hpc hskip
        rw [State.goto_goto] at hstep
        exact hbefore.tail hstep hafter
      · have hnone := hempty ⟨id, hid⟩ hle (Nat.lt_succ_self id) hskip
        have hstep := @Step.kallocStealEmpty Tid _ L _ t own ⟨id, hid⟩ hpc hskip hnone
        rw [State.goto_goto] at hstep
        exact hbefore.tail hstep hafter

variable {t u v : Tid} {other : Fin L.ncpu} {pa pa' : ℕ} {s : State L Tid}

/-- Thread `u` owns page `pa`, the last free page `pa'` is on the list of CPU `other`,
thread `t` has just called `kalloc`, and `v` is idle. -/
structure LastPage (t u v : Tid) (other : Fin L.ncpu) (pa pa' : ℕ) (s : State L Tid) :
    Prop where
  calling : s.pc t = .kallocCpu
  idle : s.pc u = .idle
  idle' : s.pc v = .idle
  owned : s.owner pa = some u
  page : L.IsPage pa
  page' : L.IsPage pa'
  ne : pa' ≠ pa
  first : s.kmems.freelist other = pa'
  second : s.kmems.next pa' = 0
  others : ∀ i, i ≠ other → s.kmems.freelist i = 0

/-- On CPU `own`, thread `t` finds its own list and the lists up to `freed` empty.  Then
thread `u` frees its page on CPU `freed`, `v` takes the last page of `other`, and `t`
finds no page on the lists that are left. -/
theorem LastPage.fails (h : LastPage t u v other pa pa' s) (htu : t ≠ u) (htv : t ≠ v)
    (huv : u ≠ v) (own freed : Fin L.ncpu) (howned : own ≠ other) (hlt : freed < other) :
    ∃ last, Through (Step L) (PageLeft t) s last ∧ last.pc t = .kallocSteal own L.ncpu := by
  have hleft : s.kmems.freelist other ≠ 0 := by
    rw [h.first]
    exact h.page'.ne_zero
  have hpath : Through (Step L) (PageLeft t) s s :=
    .refl ⟨by simp [h.calling], other, hleft⟩
  replace hpath := hpath.tail (.kallocCpu own h.calling) ⟨by simp, other, hleft⟩
  replace hpath := hpath.tail (.kallocOwnEmpty (State.goto_pc_self ..) (h.others own howned))
    ⟨by simp, other, hleft⟩
  rw [State.goto_goto] at hpath
  replace hpath := through_kallocSteal ⟨other, hleft⟩ hpath (freed + 1) (Nat.zero_le _)
    freed.isLt fun i _ hi _ => h.others i (by rintro rfl; omega)
  replace hpath := hpath.tail (.kfreeCall (t := u) (by simp [State.goto, h.idle, htu.symm])
    h.owned h.page.kfreePanics) ⟨by simp [State.goto, State.setOwner, htu], other, hleft⟩
  replace hpath := hpath.tail (.kfreeFill (State.goto_pc_self ..))
    ⟨by simp [State.goto, State.setOwner, State.withKmems, htu], other, hleft⟩
  replace hpath := hpath.tail (.kfreeCpu freed (State.goto_pc_self ..))
    ⟨by simp [State.goto, State.setOwner, State.withKmems, htu], other, hleft⟩
  replace hpath := hpath.tail (.kfreePush (State.goto_pc_self ..))
    ⟨by simp [State.goto, State.setOwner, State.withKmems, htu], freed,
      by simp [State.goto, State.setOwner, State.withKmems, Kmems.push, h.page.ne_zero]⟩
  generalize hpushed : State.goto _ u .idle = pushed at hpath
  have hpcs : pushed.pc v = .idle ∧ pushed.pc t = .kallocSteal own (freed + 1) := by
    simp [← hpushed, State.goto, State.withKmems, State.setOwner, htu, htv.symm, huv.symm,
      h.idle']
  have hlists : pushed.kmems.freelist freed = pa ∧ pushed.kmems.freelist other = pa' ∧
      pushed.kmems.next pa' = 0 ∧
      ∀ i, i ≠ other → i ≠ freed → pushed.kmems.freelist i = 0 := by
    simp +contextual [← hpushed, State.goto, State.withKmems, State.setOwner, Kmems.push,
      Kmems.memset, hlt.ne', h.first, h.second, h.ne, h.others]
  clear hpushed
  obtain ⟨hpcv, hpct⟩ := hpcs
  obtain ⟨hfirst, hother, hnext, hothers⟩ := hlists
  have hnonempty : ∃ i, pushed.kmems.freelist i ≠ 0 := by
    refine ⟨freed, ?_⟩
    rw [hfirst]
    exact h.page.ne_zero
  have hpop : (pushed.kmems.pop other).2.freelist =
      Function.update pushed.kmems.freelist other 0 := by
    simp [Kmems.pop, hother, hnext, h.page'.ne_zero]
  have hfreed : (pushed.kmems.pop other).2.freelist freed ≠ 0 := by
    rw [hpop, Function.update_of_ne hlt.ne, hfirst]
    exact h.page.ne_zero
  replace hpath := hpath.tail (.kallocCall hpcv)
    ⟨by simp [State.goto, htv, hpct], hnonempty⟩
  replace hpath := hpath.tail (.kallocCpu other (State.goto_pc_self ..))
    ⟨by simp [State.goto, htv, hpct], hnonempty⟩
  replace hpath := hpath.tail (.kallocOwn (State.goto_pc_self ..)
    (hother.trans_ne h.page'.ne_zero))
    ⟨by simp [State.goto, State.withKmems, htv, hpct], freed, hfreed⟩
  generalize hlast : State.goto _ v (.kallocFill _) = last at hpath
  have hkmems : last.kmems = (pushed.kmems.pop other).2 := by
    simp [← hlast, State.goto, State.withKmems]
  have hsame : last.goto t (.kallocSteal own (freed + 1)) = last := by
    simp [← hlast, State.goto, State.withKmems, Function.update_comm htv.symm, ← hpct]
  refine ⟨last.goto t (.kallocSteal own L.ncpu), through_kallocSteal ⟨freed, by rwa [hkmems]⟩
    (by rwa [hsame]) L.ncpu freed.isLt le_rfl ?_, State.goto_pc_self ..⟩
  intro i hi _ _
  have hne : i ≠ freed := by
    rintro rfl
    omega
  rw [hkmems, hpop]
  by_cases hi' : i = other
  · rw [hi', Function.update_self]
  · rw [Function.update_of_ne hi', hothers i hi' hne]

end Spurious

/-- Eight CPUs and two pages of memory after the kernel. -/
def twoPages : Layout where
  ncpu := 8
  kernelEnd := 0x80020020
  phystop := 0x80023000
  kernelEnd_pos := by decide
  phystop_aligned := by decide
  phystop_lt := by decide
  kernelEnd_le := by decide

/-- Both pages start on the list of CPU 1 and thread 1, on CPU 0, takes one of them. -/
theorem exists_lastPage : ∃ (kmems : Kmems 8) (s : State twoPages (Fin 3)),
    kinit twoPages (1 : Fin 8) (fun _ => 0) = some kmems ∧
      Reachable (Step twoPages) (State.boot kmems) s ∧
      LastPage 0 1 2 (1 : Fin 8) 0x80022000 0x80021000 s := by
  have hlists : Option.map (fun kmems : Kmems 8 => (kmems.freelist 1, kmems.next 0x80022000,
      kmems.next 0x80021000, decide (∀ i, i ≠ 1 → kmems.freelist i = 0)))
      (kinit twoPages (1 : Fin 8) fun _ => 0) =
        some (0x80022000, 0x80021000, 0, true) := by decide +kernel
  obtain ⟨kmems, hboot, hlists⟩ := Option.map_eq_some_iff.mp hlists
  simp only [Prod.mk.injEq, decide_eq_true_eq] at hlists
  obtain ⟨hfirst, hsecond, hend, hothers⟩ := hlists
  have hpop : kmems.pop (1 : Fin 8) = (0x80022000, { kmems with
      freelist := Function.update kmems.freelist (1 : Fin 8) 0x80021000 }) := by
    simp [Kmems.pop, hfirst, hsecond]
  have hreach := Relation.ReflTransGen.refl (r := Step twoPages)
    (a := (State.boot kmems : State twoPages (Fin 3)))
  replace hreach := hreach.tail (.kallocCall (t := 1) rfl)
  replace hreach := hreach.tail (.kallocCpu (t := 1) (0 : Fin 8) rfl)
  replace hreach := hreach.tail (.kallocOwnEmpty (t := 1) rfl (by
    exact hothers 0 (by decide)))
  replace hreach := hreach.tail (@Step.kallocSkip (Fin 3) _ twoPages _ 1 (0 : Fin 8)
    (0 : Fin 8) rfl rfl)
  replace hreach := hreach.tail (@Step.kallocSteal (Fin 3) _ twoPages _ 1 (0 : Fin 8)
    (1 : Fin 8) rfl (by decide : (1 : Fin 8) ≠ 0) (by
      simp [State.goto, State.boot, hfirst]))
  replace hreach := hreach.tail (.kallocReturn (t := 1) rfl)
  replace hreach := hreach.tail (.kallocCall (t := 0) rfl)
  refine ⟨kmems, _, hboot, hreach, rfl, rfl, rfl, ?_, ⟨by decide, by decide, by decide⟩,
    ⟨by decide, by decide, by decide⟩, by decide, ?_, ?_, ?_⟩
  · change Function.update _ (kmems.pop (1 : Fin 8)).1 _ _ = _
    simp [hpop]
  · change (kmems.pop (1 : Fin 8)).2.freelist 1 = _
    simp [hpop]
  · change Function.update (kmems.pop (1 : Fin 8)).2.next (kmems.pop (1 : Fin 8)).1 _ _ = _
    simp [hpop, hend]
  · intro i hi
    change (kmems.pop (1 : Fin 8)).2.freelist i = _
    rw [hpop]
    exact (Function.update_of_ne hi _ _).trans (hothers i hi)

/-- Three threads on CPUs 2, 0 and 1 of the eight-CPU allocator: a call of `kalloc`
returns 0 although at every instant of the call some list has a page. -/
theorem exists_spurious_failure : ∃ (kmems : Kmems 8) (start last : State twoPages (Fin 3))
    (visited : List (State twoPages (Fin 3))),
    kinit twoPages (1 : Fin 8) (fun _ => 0) = some kmems ∧
      Reachable (Step twoPages) (State.boot kmems) start ∧
      KallocCall 0 start visited last ∧ last.pc 0 = .kallocSteal (2 : Fin 8) 8 ∧
      ∀ s ∈ visited, ∃ i : Fin 8, s.kmems.freelist i ≠ 0 := by
  obtain ⟨kmems, start, hboot, hreach, hstart⟩ := exists_lastPage
  obtain ⟨last, ⟨visited, hpath, hleft⟩, hfail⟩ :=
    hstart.fails (by decide) (by decide) (by decide) (2 : Fin 8) (0 : Fin 8)
      (by decide : (2 : Fin 8) ≠ 1) (by decide : (0 : Fin 8) < 1)
  exact ⟨kmems, start, last, visited, hboot, hreach,
    ⟨hpath, hstart.calling, fun s hs => (hleft s hs).1⟩, hfail, fun s hs => (hleft s hs).2⟩

/-- The lists need not have been empty at the same time. -/
theorem kalloc_fails_not_exhausted : ¬ ∀ (kmems : Kmems 8)
    (start last : State twoPages (Fin 3)) (visited : List (State twoPages (Fin 3))),
    kinit twoPages (1 : Fin 8) (fun _ => 0) = some kmems →
      Reachable (Step twoPages) (State.boot kmems) start →
      KallocCall 0 start visited last → last.pc 0 = .kallocSteal (2 : Fin 8) 8 →
      ∃ s ∈ visited, ∀ i : Fin 8, s.kmems.freelist i = 0 := by
  intro hclaim
  obtain ⟨kmems, start, last, visited, hboot, hreach, hcall, hfail, hleft⟩ :=
    exists_spurious_failure
  obtain ⟨s, hs, hempty⟩ := hclaim kmems start last visited hboot hreach hcall hfail
  obtain ⟨i, hi⟩ := hleft s hs
  exact hi (hempty i)

theorem kalloc_fails_exhausted_spurious : ∃ (kmems : Kmems 8)
    (start last : State twoPages (Fin 3)) (visited : List (State twoPages (Fin 3))),
    kinit twoPages (1 : Fin 8) (fun _ => 0) = some kmems ∧
      Reachable (Step twoPages) (State.boot kmems) start ∧
      KallocCall 0 start visited last ∧ last.pc 0 = .kallocSteal (2 : Fin 8) 8 ∧
      ∃ before after i, Consecutive visited before after ∧
        (before.pc 0).inspected i ∧ Pushes before after i := by
  obtain ⟨kmems, start, last, visited, hboot, hreach, hcall, hfail, hleft⟩ :=
    exists_spurious_failure
  refine ⟨kmems, start, last, visited, hboot, hreach, hcall, hfail, ?_⟩
  rcases (kalloc_fails_exhausted hcall hfail).2 with ⟨s, hs, hempty⟩ | hpush
  · obtain ⟨i, hi⟩ := hleft s hs
    exact absurd (hempty i) hi
  · exact hpush

end OperateSystem.Kalloc
